import MicroCcl.Accept
import MicroCcl.Descriptors
import Mathlib.Data.Finset.Card

namespace MicroCcl
open Sockets Descriptors

def acceptedFds (arrivals : List Accepted) : List ℕ :=
  arrivals.filterMap fun
    | .failed _ => none
    | .conn fd _ => some fd

theorem acceptedFds_conn (fd : ℕ) (sock : Reader) (script : List Accepted) :
    acceptedFds (.conn fd sock :: script) = fd :: acceptedFds script := rfl

theorem acceptedFds_arrivals (conns : List (ℕ × Reader)) (rest : List Accepted) :
    acceptedFds (arrivals conns ++ rest) = conns.map Prod.fst ++ acceptedFds rest := by
  induction conns with
  | nil => rfl
  | cons c conns ih => exact congrArg (c.1 :: ·) ih

/-- The outcomes of the calls of rank 0. None of its descriptors is closed as long as it accepts, so
those that the kernel hands out are all different. -/
structure RootCalls where
  socket : Except String ℕ
  bind : Except String Unit
  listen : Except String Unit
  arrivals : List Accepted
  distinct : ∀ fd, socket = .ok fd → (fd :: acceptedFds arrivals).Nodup

/-- A turn of the loop of `connect_with_retry`. -/
inductive Attempt where
  | socketFailed (why : String)
  | refused (fd : ℕ) (why : String)
  | connected (fd : ℕ) (sock : Writer)

def maxAttempts : ℕ := 50

/-- The outcomes of the calls of another rank. -/
structure PeerCalls where
  getaddrinfo : Except String Unit
  attempts : List Attempt
  attempts_length : attempts.length = maxAttempts

structure TcpBootstrap where
  rank : Int32
  worldSize : Int32
  connFd : ℤ := -1
  listenFd : ℤ := -1
  peerFds : List ℤ := []

namespace TcpBootstrap

def check {A : Type} (call : String) : Except String A → FdM (Stop Exn) A
  | .ok a => pure a
  | .error why => throw (.thrown (.runtimeError (call ++ " failed: " ++ why)))

/-- The call of `assign` on `peer_fds_`; a negative size becomes one that no vector has. -/
def assignPeers (worldSize : Int32) : FdM (Stop Exn) (List ℤ) :=
  if worldSize < 0 then
    throw (.thrown (.lengthError "cannot create std::vector larger than max_size()"))
  else pure (List.replicate worldSize.toNatClampNeg (-1))

def acceptPeers (worldSize : ℕ) : ℕ → List ℤ → List Accepted → FdM (Stop Exn) (List ℤ)
  | 0, peerFds, _ => pure peerFds
  | _ + 1, _, [] => throw .waiting
  | _ + 1, _, .failed why :: _ => throw (.thrown (.runtimeError ("accept() failed: " ++ why)))
  | n + 1, peerFds, .conn fd sock :: arrivals => do
    acquire fd
    let (theirRank, _) ← MonadExcept.ofExcept (Socket.recvU32 sock)
    if theirRank = 0 ∨ theirRank ≥ UInt32.ofNat worldSize then
      close fd
      throw (.thrown (invalidRank theirRank))
    else acceptPeers worldSize n (peerFds.set theirRank.toNat fd) arrivals

def connectLoop (host : String) (port : UInt16) :
    List Attempt → String → FdM (Stop Exn) (ℕ × Writer)
  | [], lastError => throw (.thrown (.runtimeError ("could not connect to " ++ host ++ ":" ++
      toString port ++ " after retries, last error: " ++ lastError)))
  | .socketFailed why :: _, _ => throw (.thrown (.runtimeError ("socket() failed: " ++ why)))
  | .refused fd why :: attempts, _ => do
    acquire fd
    close fd
    connectLoop host port attempts why
  | .connected fd sock :: _, _ => do
    acquire fd
    return (fd, sock)

def connectWithRetry (host : String) (port : UInt16) (calls : PeerCalls) :
    FdM (Stop Exn) (ℕ × Writer) := do
  check ("getaddrinfo(" ++ host ++ ")") calls.getaddrinfo
  connectLoop host port calls.attempts ""

def constructRoot (worldSize : Int32) (calls : RootCalls) : FdM (Stop Exn) TcpBootstrap := do
  let listenFd ← check "socket()" calls.socket
  acquire listenFd
  check "bind()" calls.bind
  check "listen()" calls.listen
  let peerFds ← assignPeers worldSize
  let peerFds ← acceptPeers worldSize.toNatClampNeg (worldSize.toNatClampNeg - 1) peerFds
    calls.arrivals
  return { rank := 0, worldSize, listenFd, peerFds }

def constructPeer (rank worldSize : Int32) (host : String) (port : UInt16) (calls : PeerCalls) :
    FdM (Stop Exn) TcpBootstrap := do
  let (connFd, sock) ← connectWithRetry host port calls
  let _ ← MonadExcept.ofExcept (Socket.sendU32 rank.toUInt32 sock)
  return { rank, worldSize, connFd }

def construct (rank worldSize : Int32) (host : String) (port : UInt16) (root : RootCalls)
    (peer : PeerCalls) : FdM (Stop Exn) TcpBootstrap :=
  if rank = 0 then constructRoot worldSize root
  else constructPeer rank worldSize host port peer

def closeValid (fd : ℤ) : FdM (Stop Exn) Unit := if fd ≥ 0 then close fd.toNat else pure ()

def destroy (b : TcpBootstrap) : FdM (Stop Exn) Unit := do
  closeValid b.connFd
  closeValid b.listenFd
  forM b.peerFds closeValid

/-- From the constructor on to the end of the destructor, or to the exception that leaves the
constructor. -/
def lifetime (rank worldSize : Int32) (host : String) (port : UInt16) (root : RootCalls)
    (peer : PeerCalls) : FdM (Stop Exn) Unit := do
  let b ← construct rank worldSize host port root peer
  b.destroy

section Loop

variable {P n : ℕ} {fds : List ℤ} {t : Table} {fd : ℕ} {sock : Reader} {script : List Accepted}

theorem exec_acceptPeers_conn (P n : ℕ) (fds : List ℤ) (fd : ℕ) (sock : Reader)
    (script : List Accepted) (t : Table) :
    exec (acceptPeers P (n + 1) fds (.conn fd sock :: script)) t =
      match Socket.recvU32 sock with
      | .error e => (.error e, { t with opened := insert fd t.opened })
      | .ok (r, _) =>
        if r = 0 ∨ r ≥ UInt32.ofNat P then
          (.error (.thrown (invalidRank r)),
            { t with opened := (insert fd t.opened).erase fd })
        else exec (acceptPeers P n (fds.set r.toNat fd) script)
          { t with opened := insert fd t.opened } := by
  rw [acceptPeers, exec_bind_ok (exec_acquire fd), exec_bind, exec_ofExcept]
  cases Socket.recvU32 sock with
  | error e => rfl
  | ok r =>
    dsimp only
    split_ifs
    · rw [exec_bind_ok (exec_close (Finset.mem_insert_self fd _)), exec_throw]
    · rfl

theorem exec_acceptPeers_fst (P n : ℕ) (fds : List ℤ) (script : List Accepted) (t : Table) :
    (exec (acceptPeers P n fds script) t).1 = acceptLoop P n fds script := by
  induction n generalizing fds script t with
  | zero => rfl
  | succ n ih =>
    rcases script with _ | ⟨_ | ⟨fd, sock⟩, script⟩
    · rfl
    · rfl
    · rw [exec_acceptPeers_conn, acceptLoop]
      cases Socket.recvU32 sock with
      | error e => rfl
      | ok r =>
        change _ = if _ then _ else _
        dsimp only
        split_ifs
        · rfl
        · exact ih _ _ _

theorem acceptPeers_keeps {x : ℕ} (hnot : x ∉ acceptedFds script) (P n : ℕ) (fds : List ℤ) :
    Keeps x (acceptPeers P n fds script) := by
  induction n generalizing fds script with
  | zero => exact .pure _
  | succ n ih =>
    rcases script with _ | ⟨_ | ⟨fd, sock⟩, script⟩
    · exact .throw _
    · exact .throw _
    · rw [acceptedFds_conn, List.mem_cons, not_or] at hnot
      rw [acceptPeers]
      refine .bind (.acquire _) fun _ => .bind (.ofExcept _) fun r => ?_
      dsimp only
      split_ifs
      · exact .bind (.close hnot.1) fun _ => .throw _
      · exact ih hnot.2 _

theorem acceptLoop_eq_ok (hP : P < 2 ^ 31) {out : List ℤ}
    (h : acceptLoop P n fds script = .ok out) :
    ∃ conns ranks rest, script = arrivals conns ++ rest ∧ conns.length = n ∧
      List.Forall₂ Announces conns ranks ∧ (∀ r ∈ ranks, ValidRank P r) := by
  induction n generalizing fds script with
  | zero => exact ⟨[], [], script, rfl, rfl, .nil, by simp⟩
  | succ n ih =>
    rcases script with _ | ⟨_ | ⟨fd, sock⟩, script⟩
    · cases h
    · cases h
    · rw [acceptLoop] at h
      cases hrecv : Socket.recvU32 sock with
      | error e =>
        rw [hrecv] at h
        cases h
      | ok r =>
        rw [hrecv] at h
        change (if _ then _ else _) = _ at h
        split_ifs at h with hr
        rw [not_validRank_iff hP, not_not] at hr
        obtain ⟨conns, ranks, rest, rfl, rfl, hann, hvalid⟩ := ih h
        refine ⟨(fd, sock) :: conns, r.1 :: ranks, rest, rfl, rfl, .cons ⟨r.2, hrecv⟩ hann, ?_⟩
        exact List.forall_mem_cons.mpr ⟨hr, hvalid⟩

theorem exec_acceptPeers_ok (hP : P < 2 ^ 31) {conns : List (ℕ × Reader)} {ranks : List UInt32}
    (hann : List.Forall₂ Announces conns ranks) (hvalid : ∀ r ∈ ranks, ValidRank P r)
    (fds : List ℤ) (rest : List Accepted) (t : Table) :
    exec (acceptPeers P conns.length fds (arrivals conns ++ rest)) t =
      (.ok (fileAll fds conns ranks),
        { t with opened := (conns.map Prod.fst).toFinset ∪ t.opened }) := by
  induction hann generalizing fds t with
  | nil => simp [acceptPeers, fileAll, arrivals]
  | @cons c r conns ranks h _ ih =>
    obtain ⟨sock, hsock⟩ := h
    obtain ⟨hr, hvalid⟩ := List.forall_mem_cons.mp hvalid
    have hnot : ¬ (r = 0 ∨ r ≥ UInt32.ofNat P) := by
      rw [not_validRank_iff hP, not_not]
      exact hr
    have hcons : arrivals (c :: conns) ++ rest = .conn c.1 c.2 :: (arrivals conns ++ rest) := rfl
    rw [hcons, List.length_cons, exec_acceptPeers_conn, hsock]
    dsimp only
    rw [if_neg hnot, ih hvalid, fileAll]
    simp [Finset.union_insert]

end Loop

def heldFds (peerFds : List ℤ) : List ℕ :=
  peerFds.filterMap fun fd => if fd ≥ 0 then some fd.toNat else none

theorem mem_heldFds {fds : List ℤ} {x : ℕ} : x ∈ heldFds fds ↔ (x : ℤ) ∈ fds := by
  rw [heldFds, List.mem_filterMap]
  constructor
  · rintro ⟨fd, hmem, h⟩
    split_ifs at h with hfd
    obtain rfl := Option.some.inj h
    rwa [Int.toNat_of_nonneg hfd]
  · intro h
    exact ⟨x, h, by simp⟩

theorem heldFds_append (fds fds' : List ℤ) :
    heldFds (fds ++ fds') = heldFds fds ++ heldFds fds' := List.filterMap_append

theorem heldFds_free (fds : List ℤ) : heldFds (-1 :: fds) = heldFds fds := rfl

theorem heldFds_taken (fd : ℕ) (fds : List ℤ) : heldFds ((fd : ℤ) :: fds) = fd :: heldFds fds := rfl

theorem heldFds_replicate (P : ℕ) : heldFds (List.replicate P (-1)) = [] := by
  simp [heldFds]

theorem exec_forM_closeValid (fds : List ℤ) (t : Table) :
    exec (forM fds closeValid) t = exec (forM (heldFds fds) close) t := by
  induction fds generalizing t with
  | nil => rfl
  | cons fd fds ih =>
    rw [List.forM_cons, heldFds, List.filterMap_cons, closeValid]
    split_ifs with hfd
    · rw [List.forM_cons, exec_bind, exec_bind]
      simp only [ih]
      rfl
    · rw [exec_bind_ok (exec_pure ())]
      exact ih t

theorem heldFds_set {fds : List ℤ} {i : ℕ} (h : fds[i]? = some (-1)) (fd : ℕ) :
    (heldFds (fds.set i fd)).Perm (fd :: heldFds fds) := by
  obtain ⟨hi, hget⟩ := List.getElem?_eq_some_iff.mp h
  have hsplit : fds = fds.take i ++ -1 :: fds.drop (i + 1) := by
    rw [← hget, List.getElem_cons_drop, List.take_append_drop]
  have hset : fds.set i fd = fds.take i ++ (fd : ℤ) :: fds.drop (i + 1) :=
    List.set_eq_take_append_cons_drop .. ▸ if_pos hi
  rw [hset, heldFds_append, heldFds_taken]
  conv_rhs => rw [hsplit, heldFds_append, heldFds_free]
  exact List.perm_middle

theorem heldFds_fileAll {conns : List (ℕ × Reader)} {ranks : List UInt32} {fds : List ℤ}
    (hann : List.Forall₂ Announces conns ranks) (hnodup : (ranks.map UInt32.toNat).Nodup)
    (hfree : ∀ r ∈ ranks, fds[r.toNat]? = some (-1)) :
    (heldFds (fileAll fds conns ranks)).Perm (conns.map Prod.fst ++ heldFds fds) := by
  induction hann generalizing fds with
  | nil => exact .refl _
  | @cons c r conns ranks _ _ ih =>
    rw [List.map_cons, List.nodup_cons] at hnodup
    obtain ⟨hr, hfree⟩ := List.forall_mem_cons.mp hfree
    rw [fileAll]
    refine (ih hnodup.2 ?_).trans ?_
    · intro r' hr'
      have hne : r.toNat ≠ r'.toNat := by
        intro h
        exact hnodup.1 (h ▸ List.mem_map_of_mem hr')
      rw [List.getElem?_set_ne hne]
      exact hfree r' hr'
    · exact ((heldFds_set hr c.1).append_left _).trans List.perm_middle

theorem nodup_of_held {P : ℕ} {conns : List (ℕ × Reader)} {ranks : List UInt32}
    (hann : List.Forall₂ Announces conns ranks) (hfd : (conns.map Prod.fst).Nodup)
    (hheld : ∀ c ∈ conns, c.1 ∈ heldFds (fileAll (List.replicate P (-1)) conns ranks)) :
    ranks.Nodup := by
  have hslot : (conns.map Prod.fst).toFinset ⊆ (ranks.map UInt32.toNat).toFinset.image
      fun i => ((fileAll (List.replicate P (-1)) conns ranks).getD i 0).toNat := by
    intro x hx
    obtain ⟨c, hc, rfl⟩ := List.mem_map.mp (List.mem_toFinset.mp hx)
    obtain ⟨i, hi⟩ := List.mem_iff_getElem?.mp (mem_heldFds.mp (hheld c hc))
    refine Finset.mem_image.mpr ⟨i, ?_, by simp [List.getD, hi]⟩
    by_contra hnot
    rw [fileAll_of_notMem _ _ (mt List.mem_toFinset.mpr hnot)] at hi
    have hneg := List.eq_of_mem_replicate (List.mem_of_getElem? hi)
    omega
  have hcard := (Finset.card_le_card hslot).trans Finset.card_image_le
  rw [List.toFinset_card_of_nodup hfd, List.length_map, hann.length_eq] at hcard
  have heq : (ranks.map UInt32.toNat).toFinset.card = (ranks.map UInt32.toNat).length :=
    le_antisymm (List.toFinset_card_le _) (by rwa [List.length_map])
  exact .of_map _ (Multiset.toFinset_card_eq_card_iff_nodup.mp heq)

/-- Every turn of the loop gets a connection that announces a rank in range, and no rank comes
twice. -/
def AllArrive (P : ℕ) (script : List Accepted) : Prop :=
  ∃ conns ranks rest, script = arrivals conns ++ rest ∧ conns.length = P - 1 ∧
    List.Forall₂ Announces conns ranks ∧ (∀ r ∈ ranks, ValidRank P r) ∧ ranks.Nodup

theorem exec_destroy_root {t : Table} {listenFd : ℕ} (h : listenFd ∈ t.opened)
    (worldSize : Int32) (peerFds : List ℤ) :
    exec (destroy ⟨0, worldSize, -1, listenFd, peerFds⟩) t =
      exec (forM (heldFds peerFds) close) { t with opened := t.opened.erase listenFd } := by
  rw [destroy, closeValid, if_neg (show ¬ (-1 : ℤ) ≥ 0 by decide), exec_bind_ok (exec_pure ()),
    closeValid, if_pos (Int.natCast_nonneg listenFd), Int.toNat_natCast,
    exec_bind_ok (exec_close h), exec_forM_closeValid]

theorem destroy_root_settled_iff {P listenFd : ℕ} {conns : List (ℕ × Reader)}
    {ranks : List UInt32} (hann : List.Forall₂ Announces conns ranks)
    (hvalid : ∀ r ∈ ranks, ValidRank P r) (hfd : (listenFd :: conns.map Prod.fst).Nodup)
    (worldSize : Int32) :
    (exec (destroy ⟨0, worldSize, -1, listenFd, fileAll (List.replicate P (-1)) conns ranks⟩)
      ⟨(conns.map Prod.fst).toFinset ∪ {listenFd}, []⟩).2.Settled ↔ ranks.Nodup := by
  obtain ⟨hlisten, hfd⟩ := List.nodup_cons.mp hfd
  have herase : ((conns.map Prod.fst).toFinset ∪ {listenFd}).erase listenFd =
      (conns.map Prod.fst).toFinset := by
    ext x
    by_cases hx : x = listenFd
    · simpa [hx] using hlisten
    · simp [hx]
  rw [exec_destroy_root (by simp), herase]
  constructor
  · intro hsettled
    refine nodup_of_held (P := P) hann hfd fun c hc => ?_
    by_contra hnot
    have hopen : c.1 ∈ (conns.map Prod.fst).toFinset :=
      List.mem_toFinset.mpr (List.mem_map_of_mem hc)
    exact not_settled_of_mem (Keeps.forM_close hnot _ hopen) hsettled
  · intro hnodup
    have hperm : (heldFds (fileAll (List.replicate P (-1)) conns ranks)).Perm
        (conns.map Prod.fst) := by
      have hfree : ∀ r ∈ ranks, (List.replicate P (-1 : ℤ))[r.toNat]? = some (-1) :=
        fun r hr => List.getElem?_replicate_of_lt (hvalid r hr).2
      simpa only [heldFds_replicate, List.append_nil] using
        heldFds_fileAll hann (map_toNat_nodup hnodup) hfree
    rw [exec_forM_close (hperm.nodup_iff.mpr hfd) fun x hx =>
      List.mem_toFinset.mpr (hperm.mem_iff.mp hx)]
    refine ⟨?_, rfl⟩
    rw [List.toFinset_eq_of_perm _ _ hperm, Finset.sdiff_self]

theorem exec_check_ok {A : Type} (call : String) (a : A) (t : Table) :
    exec (check call (.ok a)) t = (.ok a, t) := rfl

theorem check_eq_ok {A : Type} {call : String} {x : Except String A} {a : A} {t t' : Table}
    (h : exec (check call x) t = (.ok a, t')) : x = .ok a := by
  cases x with
  | ok a =>
    cases h
    rfl
  | error why => cases h

theorem check_keeps {A : Type} (fd : ℕ) (call : String) (x : Except String A) :
    Keeps fd (check call x) := by
  cases x with
  | ok a => exact .pure a
  | error why => exact .throw _

section Root

variable {worldSize : Int32} {calls : RootCalls} {listenFd : ℕ}

variable (worldSize) in
theorem listenFd_mem_constructRoot (hsocket : calls.socket = .ok listenFd) :
    listenFd ∈ (exec (constructRoot worldSize calls) {}).2.opened := by
  have hnot : listenFd ∉ acceptedFds calls.arrivals :=
    (List.nodup_cons.mp (calls.distinct listenFd hsocket)).1
  rw [constructRoot, hsocket, exec_bind_ok (exec_check_ok ..), exec_bind_ok (exec_acquire _)]
  refine Keeps.bind (check_keeps _ _ _) (fun _ => .bind (check_keeps _ _ _) fun _ => .bind ?_
    fun _ => .bind (acceptPeers_keeps hnot _ _ _) fun _ => .pure _) _ (Finset.mem_insert_self _ _)
  rw [assignPeers]
  split_ifs
  · exact .throw _
  · exact .pure _

theorem exec_constructRoot (hsocket : calls.socket = .ok listenFd) (hbind : calls.bind = .ok ())
    (hlisten : calls.listen = .ok ()) (hsize : ¬ worldSize < 0) :
    exec (constructRoot worldSize calls) {} =
      exec (do
        let peerFds ← acceptPeers worldSize.toNatClampNeg (worldSize.toNatClampNeg - 1)
          (List.replicate worldSize.toNatClampNeg (-1)) calls.arrivals
        return { rank := 0, worldSize, listenFd, peerFds }) ⟨{listenFd}, []⟩ := by
  rw [constructRoot, hsocket, exec_bind_ok (exec_check_ok ..), exec_bind_ok (exec_acquire _),
    hbind, exec_bind_ok (exec_check_ok ..), hlisten, exec_bind_ok (exec_check_ok ..), assignPeers,
    if_neg hsize, exec_bind_ok (exec_pure _)]
  rfl

theorem constructRoot_eq_ok {b : TcpBootstrap} {t : Table}
    (h : exec (constructRoot worldSize calls) {} = (.ok b, t)) :
    calls.bind = .ok () ∧ calls.listen = .ok () ∧ ¬ worldSize < 0 ∧
      ∃ peerFds, acceptLoop worldSize.toNatClampNeg (worldSize.toNatClampNeg - 1)
        (List.replicate worldSize.toNatClampNeg (-1)) calls.arrivals = .ok peerFds := by
  obtain ⟨listenFd, t₁, -, h⟩ := exec_bind_eq_ok h
  obtain ⟨_, t₂, -, h⟩ := exec_bind_eq_ok h
  obtain ⟨_, t₃, hbind, h⟩ := exec_bind_eq_ok h
  obtain ⟨_, t₄, hlisten, h⟩ := exec_bind_eq_ok h
  obtain ⟨fds, t₅, hassign, h⟩ := exec_bind_eq_ok h
  obtain ⟨peerFds, t₆, hloop, -⟩ := exec_bind_eq_ok h
  rw [assignPeers] at hassign
  split_ifs at hassign with hsize
  · cases hassign
  · cases hassign
    refine ⟨check_eq_ok hbind, check_eq_ok hlisten, hsize, peerFds, ?_⟩
    rw [← exec_acceptPeers_fst _ _ _ _ t₄, hloop]

theorem settled_iff_nodup {conns : List (ℕ × Reader)} {ranks : List UInt32} {rest : List Accepted}
    (hsocket : calls.socket = .ok listenFd) (hbind : calls.bind = .ok ())
    (hlisten : calls.listen = .ok ()) (hsize : ¬ worldSize < 0)
    (hscript : calls.arrivals = arrivals conns ++ rest)
    (hlen : conns.length = worldSize.toNatClampNeg - 1) (hann : List.Forall₂ Announces conns ranks)
    (hvalid : ∀ r ∈ ranks, ValidRank worldSize.toNatClampNeg r) :
    (exec (constructRoot worldSize calls >>= destroy) {}).2.Settled ↔ ranks.Nodup := by
  have hfd : (listenFd :: conns.map Prod.fst).Nodup := by
    have hdistinct := calls.distinct listenFd hsocket
    rw [hscript, acceptedFds_arrivals, ← List.cons_append] at hdistinct
    exact hdistinct.of_append_left
  rw [exec_bind, exec_constructRoot hsocket hbind hlisten hsize, hscript, ← hlen,
    exec_bind_ok (exec_acceptPeers_ok worldSize.toNatClampNeg_lt hann hvalid _ _ _), exec_pure]
  exact destroy_root_settled_iff hann hvalid hfd worldSize

theorem root_settled_iff (worldSize : Int32) (calls : RootCalls) :
    (exec (constructRoot worldSize calls >>= destroy) {}).2.Settled ↔
      (∃ why, calls.socket = .error why) ∨ calls.bind = .ok () ∧ calls.listen = .ok () ∧
        0 ≤ worldSize ∧ AllArrive worldSize.toNatClampNeg calls.arrivals := by
  cases hsocket : calls.socket with
  | error why =>
    have hexec : exec (constructRoot worldSize calls >>= destroy) {} =
        (.error (.thrown (.runtimeError ("socket()" ++ " failed: " ++ why))), {}) := by
      rw [exec_bind, constructRoot, hsocket]
      rfl
    rw [hexec]
    exact iff_of_true ⟨rfl, rfl⟩ (.inl ⟨why, rfl⟩)
  | ok listenFd =>
    have hsome : ¬ ∃ why, Except.ok listenFd = (.error why : Except String ℕ) := by simp
    rw [or_iff_right hsome]
    constructor
    · intro hsettled
      cases hres : exec (constructRoot worldSize calls) {} with
      | mk res t =>
        cases res with
        | error e =>
          rw [exec_bind_error hres] at hsettled
          have hopen := listenFd_mem_constructRoot worldSize hsocket
          rw [hres] at hopen
          exact absurd hsettled (not_settled_of_mem hopen)
        | ok b =>
          obtain ⟨hbind, hlisten, hsize, peerFds, hloop⟩ := constructRoot_eq_ok hres
          obtain ⟨conns, ranks, rest, hscript, hlen, hann, hvalid⟩ :=
            acceptLoop_eq_ok worldSize.toNatClampNeg_lt hloop
          refine ⟨hbind, hlisten, Int32.not_lt.mp hsize, conns, ranks, rest, hscript, hlen, hann,
            hvalid, ?_⟩
          exact (settled_iff_nodup hsocket hbind hlisten hsize hscript hlen hann hvalid).mp hsettled
    · rintro ⟨hbind, hlisten, hsize, conns, ranks, rest, hscript, hlen, hann, hvalid, hnodup⟩
      exact (settled_iff_nodup hsocket hbind hlisten (Int32.not_lt.mpr hsize) hscript hlen hann
        hvalid).mpr hnodup

end Root

def firstConnection : List Attempt → Option (ℕ × Writer)
  | .refused _ _ :: attempts => firstConnection attempts
  | .connected fd sock :: _ => some (fd, sock)
  | _ => none

theorem exec_connectLoop (host : String) (port : UInt16) (attempts : List Attempt)
    (lastError : String) :
    ∃ e, exec (connectLoop host port attempts lastError) {} =
      match firstConnection attempts with
      | some c => (.ok c, ⟨{c.1}, []⟩)
      | none => (.error (.thrown e), {}) := by
  induction attempts generalizing lastError with
  | nil => exact ⟨_, rfl⟩
  | cons attempt attempts ih =>
    cases attempt with
    | socketFailed why => exact ⟨_, rfl⟩
    | connected fd sock => exact ⟨.runtimeError "", rfl⟩
    | refused fd why =>
      have hclose : exec (close fd : FdM (Stop Exn) Unit) ⟨insert fd ∅, []⟩ = (.ok (), {}) := by
        rw [exec_close (Finset.mem_insert_self fd _)]
        simp
      obtain ⟨e, he⟩ := ih why
      refine ⟨e, ?_⟩
      rw [connectLoop, exec_bind_ok (exec_acquire fd), exec_bind_ok hclose, he, firstConnection]

theorem exec_destroy_peer (rank worldSize : Int32) (fd : ℕ) :
    exec (destroy { rank, worldSize, connFd := fd }) ⟨{fd}, []⟩ = (.ok (), {}) := by
  rw [destroy, closeValid, if_pos (Int.natCast_nonneg fd), Int.toNat_natCast,
    exec_bind_ok (exec_close (Finset.mem_singleton_self fd))]
  simp only [Finset.erase_singleton]
  rfl

theorem peer_settled_iff (rank worldSize : Int32) (host : String) (port : UInt16)
    (calls : PeerCalls) :
    (exec (constructPeer rank worldSize host port calls >>= destroy) {}).2.Settled ↔
      (∃ why, calls.getaddrinfo = .error why) ∨ ∀ c, firstConnection calls.attempts = some c →
        ∃ s, Socket.sendU32 rank.toUInt32 c.2 = .ok s := by
  cases hinfo : calls.getaddrinfo with
  | error why =>
    have hexec : (exec (constructPeer rank worldSize host port calls >>= destroy) {}).2 = {} := by
      rw [constructPeer, connectWithRetry, hinfo]
      rfl
    rw [hexec]
    exact iff_of_true ⟨rfl, rfl⟩ (.inl ⟨why, rfl⟩)
  | ok =>
    have hsome : ¬ ∃ why, Except.ok () = (.error why : Except String Unit) := by simp
    have hconnect : exec (connectWithRetry host port calls) {} =
        exec (connectLoop host port calls.attempts "") {} := by
      rw [connectWithRetry, hinfo]
      rfl
    obtain ⟨e, hloop⟩ := exec_connectLoop host port calls.attempts ""
    rw [or_iff_right hsome, exec_bind, constructPeer, exec_bind, hconnect, hloop]
    cases firstConnection calls.attempts with
    | none => exact iff_of_true ⟨rfl, rfl⟩ (by simp)
    | some c =>
      dsimp only
      rw [exec_bind, exec_ofExcept]
      cases hsend : Socket.sendU32 rank.toUInt32 c.2 with
      | error e =>
        refine iff_of_false (not_settled_of_mem (Finset.mem_singleton_self c.1)) fun h => ?_
        obtain ⟨s, hs⟩ := h c rfl
        rw [hsend] at hs
        cases hs
      | ok s =>
        dsimp only
        rw [exec_pure]
        dsimp only
        rw [exec_destroy_peer]
        refine iff_of_true ⟨rfl, rfl⟩ fun c' hc' => ?_
        obtain rfl := Option.some.inj hc'
        exact ⟨s, hsend⟩

/-- The outcomes on which the constructor gets away with its exceptions: rank 0 has no socket to
lose, or comes to its end with a connection in every slot; another rank has no connection to
lose, or announces itself on it. -/
def Accounted (rank worldSize : Int32) (root : RootCalls) (peer : PeerCalls) : Prop :=
  if rank = 0 then
    (∃ why, root.socket = .error why) ∨ root.bind = .ok () ∧ root.listen = .ok () ∧
      0 ≤ worldSize ∧ AllArrive worldSize.toNatClampNeg root.arrivals
  else
    (∃ why, peer.getaddrinfo = .error why) ∨ ∀ c, firstConnection peer.attempts = some c →
      ∃ s, Socket.sendU32 rank.toUInt32 c.2 = .ok s

/-- For every rank, every world size and every sequence of outcomes: each descriptor that the
constructor obtains is closed, and closed once, exactly on the outcomes that are `Accounted` for. -/
theorem lifetime_settled_iff (rank worldSize : Int32) (host : String) (port : UInt16)
    (root : RootCalls) (peer : PeerCalls) :
    (exec (lifetime rank worldSize host port root peer) {}).2.Settled ↔
      Accounted rank worldSize root peer := by
  rw [lifetime, construct, Accounted]
  split_ifs
  · exact root_settled_iff worldSize root
  · exact peer_settled_iff rank worldSize host port peer

def addressInUse : RootCalls where
  socket := .ok 3
  bind := .error "Address already in use"
  listen := .ok ()
  arrivals := []
  distinct fd _ := List.nodup_singleton fd

def neverConnected : PeerCalls where
  getaddrinfo := .ok ()
  attempts := List.replicate maxAttempts (.refused 3 "Connection refused")
  attempts_length := List.length_replicate

/-- `bind` fails and the exception leaves the constructor with the socket open. -/
theorem lifetime_address_in_use :
    exec (lifetime 0 2 "localhost" 18515 addressInUse neverConnected) {} =
        (.error (.thrown (.runtimeError "bind() failed: Address already in use")), ⟨{3}, []⟩) ∧
      ¬ (exec (lifetime 0 2 "localhost" 18515 addressInUse neverConnected) {}).2.Settled := by
  have hexec : exec (lifetime 0 2 "localhost" 18515 addressInUse neverConnected) {} =
      (.error (.thrown (.runtimeError "bind() failed: Address already in use")), ⟨{3}, []⟩) := rfl
  rw [hexec]
  exact ⟨rfl, not_settled_of_mem (Finset.mem_singleton_self 3)⟩

end TcpBootstrap

end MicroCcl

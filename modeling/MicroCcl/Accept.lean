import MicroCcl.Framing
import Mathlib.Data.List.Perm.Subperm
import Mathlib.Data.List.Forall2

namespace MicroCcl
open Sockets

inductive Accepted where
  | failed (why : String)
  | conn (fd : ℕ) (sock : Reader)

def invalidRank (theirRank : UInt32) : Exn :=
  .runtimeError ("bootstrap: peer announced invalid rank " ++ toString theirRank)

/-- The loop of the constructor with some turns to go. -/
def acceptLoop (worldSize : ℕ) : ℕ → List ℤ → List Accepted → Except (Stop Exn) (List ℤ)
  | 0, peerFds, _ => .ok peerFds
  | _ + 1, _, [] => .error .waiting
  | _ + 1, _, .failed why :: _ => .error (.thrown (.runtimeError ("accept() failed: " ++ why)))
  | n + 1, peerFds, .conn fd sock :: arrivals => do
    let (theirRank, _) ← Socket.recvU32 sock
    if theirRank = 0 ∨ theirRank ≥ UInt32.ofNat worldSize then
      .error (.thrown (invalidRank theirRank))
    else acceptLoop worldSize n (peerFds.set theirRank.toNat fd) arrivals

/-- The constructor of `TcpBootstrap` on rank 0, once it listens: what `peer_fds_` is then. -/
def tcpBootstrapRoot (worldSize : ℕ) (arrivals : List Accepted) : Except (Stop Exn) (List ℤ) :=
  acceptLoop worldSize (worldSize - 1) (List.replicate worldSize (-1)) arrivals

/-- The first thing on the connection is the rank `r`. -/
def Announces (c : ℕ × Reader) (r : UInt32) : Prop := ∃ sock, Socket.recvU32 c.2 = .ok (r, sock)

def arrivals (conns : List (ℕ × Reader)) : List Accepted := conns.map fun c => .conn c.1 c.2

def ValidRank (P : ℕ) (r : UInt32) : Prop := r ≠ 0 ∧ r.toNat < P

instance (P : ℕ) (r : UInt32) : Decidable (ValidRank P r) :=
  inferInstanceAs (Decidable (_ ∧ _))

/-- Every connection filed under its rank, one after the other. -/
def fileAll (fds : List ℤ) : List (ℕ × Reader) → List UInt32 → List ℤ
  | c :: conns, r :: ranks => fileAll (fds.set r.toNat c.1) conns ranks
  | _, _ => fds

section Loop

variable {P : ℕ} {c : ℕ × Reader} {r : UInt32} {conns : List (ℕ × Reader)} {ranks : List UInt32}

theorem not_validRank_iff (hP : P < 2 ^ 31) :
    (r = 0 ∨ r ≥ UInt32.ofNat P) ↔ ¬ ValidRank P r := by
  have hofNat : (UInt32.ofNat P).toNat = P := UInt32.toNat_ofNat_of_lt' (hP.trans (by decide))
  rw [ValidRank, ge_iff_le, UInt32.le_iff_toNat_le, hofNat, not_and_or, not_not, not_lt]

theorem acceptLoop_cons (hP : P < 2 ^ 31) (h : Announces c r) (n : ℕ) (fds : List ℤ) :
    acceptLoop P (n + 1) fds (arrivals (c :: conns)) =
      if ValidRank P r then acceptLoop P n (fds.set r.toNat c.1) (arrivals conns)
      else .error (.thrown (invalidRank r)) := by
  obtain ⟨sock, hsock⟩ := h
  simp only [arrivals, List.map_cons, acceptLoop, hsock, not_validRank_iff hP, Bind.bind,
    Except.bind]
  split_ifs <;> rfl

theorem acceptLoop_ok (hP : P < 2 ^ 31) (hann : List.Forall₂ Announces conns ranks)
    (hvalid : ∀ r ∈ ranks, ValidRank P r) (fds : List ℤ) :
    acceptLoop P conns.length fds (arrivals conns) = .ok (fileAll fds conns ranks) := by
  induction hann generalizing fds with
  | nil => rfl
  | cons h _ ih =>
    rw [List.length_cons, acceptLoop_cons hP h, if_pos (hvalid _ (by simp))]
    exact ih (fun r hr => hvalid r (by simp [hr])) _

theorem acceptLoop_throws (hP : P < 2 ^ 31) (hann : List.Forall₂ Announces conns ranks)
    (hbad : ∃ r ∈ ranks, ¬ ValidRank P r) (fds : List ℤ) :
    ∃ e, acceptLoop P conns.length fds (arrivals conns) = .error (.thrown e) := by
  induction hann generalizing fds with
  | nil => simp at hbad
  | @cons c r conns ranks h _ ih =>
    rw [List.length_cons, acceptLoop_cons hP h]
    split_ifs with hr
    · apply ih
      obtain ⟨r', hr', hno⟩ := hbad
      rcases List.mem_cons.mp hr' with rfl | hmem
      · exact absurd hr hno
      · exact ⟨r', hmem, hno⟩
    · exact ⟨_, rfl⟩

theorem fileAll_of_notMem (fds : List ℤ) (conns : List (ℕ × Reader)) {ranks : List UInt32} {i : ℕ}
    (hi : i ∉ ranks.map UInt32.toNat) : (fileAll fds conns ranks)[i]? = fds[i]? := by
  fun_induction fileAll fds conns ranks with
  | case1 fds c conns r ranks ih =>
    rw [List.map_cons, List.mem_cons, not_or] at hi
    rw [ih hi.2, List.getElem?_set_ne (Ne.symm hi.1)]
  | case2 => rfl

theorem fileAll_getElem? {fds : List ℤ} (hann : List.Forall₂ Announces conns ranks)
    (hranks : (ranks.map UInt32.toNat).Nodup) (hlen : ∀ r ∈ ranks, r.toNat < fds.length) {k : ℕ}
    {c : ℕ × Reader} {r : UInt32} (hc : conns[k]? = some c) (hr : ranks[k]? = some r) :
    (fileAll fds conns ranks)[r.toNat]? = some (c.1 : ℤ) := by
  induction hann generalizing fds k with
  | nil => simp at hc
  | @cons c' r' conns ranks h _ ih =>
    rw [List.map_cons, List.nodup_cons] at hranks
    cases k with
    | zero =>
      obtain rfl : c' = c := by simpa using hc
      obtain rfl : r' = r := by simpa using hr
      rw [fileAll, fileAll_of_notMem _ _ hranks.1, List.getElem?_set_self (hlen r' (by simp))]
    | succ k =>
      apply ih hranks.2 _ (by simpa using hc) (by simpa using hr)
      intro r hr
      rw [List.length_set]
      exact hlen r (by simp [hr])

end Loop

/-- The constructor returns exactly if the ranks 1 to `P - 1` have announced themselves, each once,
and then every slot holds the connection of its rank; otherwise it throws. -/
structure FilesEveryRank (P : ℕ) (conns : List (ℕ × Reader)) (ranks : List UInt32) : Prop where
  returns_iff : (∃ fds, tcpBootstrapRoot P (arrivals conns) = .ok fds) ↔
    (ranks.map UInt32.toNat).Perm (List.range' 1 (P - 1))
  filed : ∀ fds, tcpBootstrapRoot P (arrivals conns) = .ok fds → ∀ r, 1 ≤ r → r < P →
    ∃ (k fd : ℕ) (sock : Reader), conns[k]? = some (fd, sock) ∧
      (ranks.map UInt32.toNat)[k]? = some r ∧ fds[r]? = some (fd : ℤ)
  distinct : ∀ fds, tcpBootstrapRoot P (arrivals conns) = .ok fds → ∀ r r', 1 ≤ r → r < P →
    1 ≤ r' → r' < P → fds[r]? = fds[r']? → r = r'
  throws : ¬ (ranks.map UInt32.toNat).Perm (List.range' 1 (P - 1)) →
    ∃ e, tcpBootstrapRoot P (arrivals conns) = .error (.thrown e)

section Root

variable {P : ℕ} {conns : List (ℕ × Reader)} {ranks : List UInt32}

theorem map_toNat_nodup (h : ranks.Nodup) : (ranks.map UInt32.toNat).Nodup :=
  h.map fun _ _ he => UInt32.toNat_inj.mp he

theorem ValidRank.of_perm (hperm : (ranks.map UInt32.toNat).Perm (List.range' 1 (P - 1)))
    {r : UInt32} (hr : r ∈ ranks) : ValidRank P r := by
  have hmem := hperm.subset (List.mem_map_of_mem hr)
  rw [List.mem_range'_1] at hmem
  refine ⟨?_, by omega⟩
  rintro rfl
  exact absurd hmem.1 (by decide)

theorem perm_of_valid (hlen : ranks.length = P - 1) (hvalid : ∀ r ∈ ranks, ValidRank P r)
    (hnodup : ranks.Nodup) : (ranks.map UInt32.toNat).Perm (List.range' 1 (P - 1)) := by
  refine (List.subperm_of_subset (map_toNat_nodup hnodup) ?_).perm_of_length_le (by simp [hlen])
  intro i hi
  obtain ⟨r, hr, rfl⟩ := List.mem_map.mp hi
  obtain ⟨h0, hlt⟩ := hvalid r hr
  have hpos : r.toNat ≠ 0 := fun h => h0 (UInt32.toNat_inj.mp h)
  rw [List.mem_range'_1]
  omega

theorem fileAll_slot (hann : List.Forall₂ Announces conns ranks)
    (hvalid : ∀ r ∈ ranks, ValidRank P r) (hnodup : ranks.Nodup)
    (hperm : (ranks.map UInt32.toNat).Perm (List.range' 1 (P - 1))) {r : ℕ} (h1 : 1 ≤ r)
    (hr : r < P) : ∃ (k fd : ℕ) (sock : Reader), conns[k]? = some (fd, sock) ∧
      (ranks.map UInt32.toNat)[k]? = some r ∧
      (fileAll (List.replicate P (-1)) conns ranks)[r]? = some (fd : ℤ) := by
  have hmem : r ∈ ranks.map UInt32.toNat := by
    rw [hperm.mem_iff, List.mem_range'_1]
    omega
  obtain ⟨k, hk⟩ := List.mem_iff_getElem?.mp hmem
  obtain ⟨r', hr', rfl⟩ : ∃ r', ranks[k]? = some r' ∧ r'.toNat = r := by
    simpa [List.getElem?_map] using hk
  have hk' : k < conns.length := by
    rw [hann.length_eq]
    exact (List.getElem?_eq_some_iff.mp hr').1
  refine ⟨k, conns[k].1, conns[k].2, List.getElem?_eq_getElem hk', hk, ?_⟩
  apply fileAll_getElem? hann (map_toNat_nodup hnodup) _ (List.getElem?_eq_getElem hk') hr'
  intro r hr
  rw [List.length_replicate]
  exact (hvalid r hr).2

variable (hP : P < 2 ^ 31) (hlen : conns.length = P - 1)
  (hann : List.Forall₂ Announces conns ranks)
include hP hlen hann

theorem tcpBootstrapRoot_ok (hvalid : ∀ r ∈ ranks, ValidRank P r) :
    tcpBootstrapRoot P (arrivals conns) =
      .ok (fileAll (List.replicate P (-1)) conns ranks) := by
  rw [tcpBootstrapRoot, ← hlen]
  exact acceptLoop_ok hP hann hvalid _

theorem tcpBootstrapRoot_throws (hbad : ∃ r ∈ ranks, ¬ ValidRank P r) :
    ∃ e, tcpBootstrapRoot P (arrivals conns) = .error (.thrown e) := by
  rw [tcpBootstrapRoot, ← hlen]
  exact acceptLoop_throws hP hann hbad _

theorem FilesEveryRank.of_bad (hbad : ∃ r ∈ ranks, ¬ ValidRank P r) :
    FilesEveryRank P conns ranks := by
  obtain ⟨e, he⟩ := tcpBootstrapRoot_throws hP hlen hann hbad
  have hno : ∀ fds, tcpBootstrapRoot P (arrivals conns) ≠ .ok fds := by
    intro fds h
    rw [he] at h
    cases h
  have hperm : ¬ (ranks.map UInt32.toNat).Perm (List.range' 1 (P - 1)) := by
    intro hperm
    obtain ⟨r, hr, hbad⟩ := hbad
    exact hbad (.of_perm hperm hr)
  refine ⟨⟨fun ⟨fds, h⟩ => absurd h (hno fds), fun h => absurd h hperm⟩,
    fun fds h => absurd h (hno fds), fun fds h => absurd h (hno fds), fun _ => ⟨e, he⟩⟩

theorem FilesEveryRank.of_nodup (hfd : (conns.map Prod.fst).Nodup)
    (hvalid : ∀ r ∈ ranks, ValidRank P r) (hnodup : ranks.Nodup) :
    FilesEveryRank P conns ranks := by
  have hok := tcpBootstrapRoot_ok hP hlen hann hvalid
  have hperm := perm_of_valid (hann.length_eq ▸ hlen) hvalid hnodup
  have hfiled := fun r h1 hr => fileAll_slot hann hvalid hnodup hperm (r := r) h1 hr
  refine ⟨⟨fun _ => hperm, fun _ => ⟨_, hok⟩⟩, ?_, ?_, fun h => absurd hperm h⟩
  · intro fds h
    obtain rfl := Except.ok.inj (hok.symm.trans h)
    exact hfiled
  · intro fds h r r' h1 hr h1' hr' heq
    obtain rfl := Except.ok.inj (hok.symm.trans h)
    obtain ⟨k, fd, sock, hc, hk, hget⟩ := hfiled r h1 hr
    obtain ⟨k', fd', sock', hc', hk', hget'⟩ := hfiled r' h1' hr'
    obtain rfl : fd = fd' := by
      rw [hget, hget', Option.some.injEq] at heq
      exact_mod_cast heq
    -- one descriptor is one connection
    have hfdk : (conns.map Prod.fst)[k]? = some fd := by simp [hc]
    have hfdk' : (conns.map Prod.fst)[k']? = some fd := by simp [hc']
    have hlt : k < (conns.map Prod.fst).length := (List.getElem?_eq_some_iff.mp hfdk).1
    obtain rfl : k = k' := (List.getElem?_inj hlt hfd).mp (hfdk.trans hfdk'.symm)
    exact Option.some.inj (hk.symm.trans hk')

end Root

/-- For every world size and every `P - 1` connections in any order: rank 0 files every rank exactly
if one of the announced ranks is out of range, or they all differ. -/
theorem tcpBootstrapRoot_files_every_rank_iff {P : ℕ} (hP : P < 2 ^ 31)
    {conns : List (ℕ × Reader)} {ranks : List UInt32} (hlen : conns.length = P - 1)
    (hann : List.Forall₂ Announces conns ranks) (hfd : (conns.map Prod.fst).Nodup) :
    FilesEveryRank P conns ranks ↔ (∃ r ∈ ranks, r = 0 ∨ P ≤ r.toNat) ∨ ranks.Nodup := by
  have hbad : (∃ r ∈ ranks, r = 0 ∨ P ≤ r.toNat) ↔ ∃ r ∈ ranks, ¬ ValidRank P r := by
    simp only [ValidRank, not_and_or, not_not, not_lt]
  rw [hbad]
  refine ⟨fun h => ?_, fun h => ?_⟩
  · by_contra hno
    rw [not_or, not_exists] at hno
    have hvalid : ∀ r ∈ ranks, ValidRank P r := fun r hr => not_not.mp fun hv => hno.1 r ⟨hr, hv⟩
    -- the constructor returns, so the ranks would be a permutation
    have hperm := h.returns_iff.mp ⟨_, tcpBootstrapRoot_ok hP hlen hann hvalid⟩
    exact hno.2 (List.Nodup.of_map _ (hperm.nodup_iff.mpr (List.nodup_range' _)))
  · by_cases hvalid : ∃ r ∈ ranks, ¬ ValidRank P r
    · exact .of_bad hP hlen hann hvalid
    · refine .of_nodup hP hlen hann hfd ?_ (h.resolve_left hvalid)
      exact fun r hr => not_not.mp fun hv => hvalid ⟨r, hr, hv⟩

def announced (fd : ℕ) (r : UInt32) : ℕ × Reader :=
  (fd, ⟨List.replicate 4 (.moved 0), putU32 r, false⟩)

theorem announces_announced (fd : ℕ) (r : UInt32) : Announces (announced fd r) r := by
  have hs : Smooth (List.replicate 4 (.moved 0)) := by
    intro why h
    simp at h
  rcases (Socket.recvU32_takes r).whole _ [] false hs with ⟨script, -, -, hok⟩ | ⟨hm, -⟩
  · rw [List.append_nil] at hok
    exact ⟨_, hok⟩
  · exact absurd hm (lt_irrefl 4)

theorem tcpBootstrapRoot_files_every_rank_swapped :
    FilesEveryRank 3 [announced 5 2, announced 6 1] [2, 1] := by
  rw [tcpBootstrapRoot_files_every_rank_iff (by decide) rfl
    (.cons (announces_announced 5 2) (.cons (announces_announced 6 1) .nil)) (by decide)]
  exact Or.inr (by decide)

/-- Two processes start as rank 1 of three. The constructor returns and rank 2 has no connection. -/
theorem tcpBootstrapRoot_duplicate_rank :
    tcpBootstrapRoot 3 (arrivals [announced 5 1, announced 6 1]) = .ok [-1, 6, -1] ∧
      ¬ FilesEveryRank 3 [announced 5 1, announced 6 1] [1, 1] := by
  have hok : tcpBootstrapRoot 3 (arrivals [announced 5 1, announced 6 1]) = .ok [-1, 6, -1] := rfl
  refine ⟨hok, fun h => ?_⟩
  have hperm := h.returns_iff.mp ⟨_, hok⟩
  revert hperm
  decide

end MicroCcl

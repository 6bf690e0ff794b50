import MicroCcl.Communicator
import MicroCcl.Outcomes

namespace MicroCcl
open Network

namespace Pingpong

variable {α β A : Type}

local instance twoRanks : NeZero 2 := ⟨Nat.succ_ne_zero 1⟩

section Code

variable (E : Setup 2) (R : Fin 2)

def link : Proc 2 α (Comm 2) Unit := do
  updQp (1 - R) fun _ => some (E.newQp R (1 - R))
  updQp (1 - R) (Option.map (QueuePair.modifyToInit (E.device R)))
  let incoming ← exchange R 0 [(rankKey (1 - R), E.info R (1 - R))]
  connectQp E R incoming (1 - R)

/-- `send_buf` is buffer 0, `recv_buf` is buffer 1. -/
def fillPattern (size : ℕ) (rank iter : ℕ) (m : Mem UInt8) : Mem UInt8 := fun b i =>
  if b = 0 ∧ i < size then UInt8.ofNat (rank * 131 + iter * 17 + i) else m b i

/-- The request that `post_send` and `post_recv` make for the first `len` bytes of a buffer. An
element is one byte here and the fabric counts four bytes to an element, so every request is four
times as long as in the source; lengths are compared with lengths only. -/
def byteRequest (buf : Buf) (size len wrId : ℕ) (tag : Tag) : Wr :=
  ⟨⟨buf, size⟩, buf, 0, len % 2 ^ 32 * 4, wrId, tag⟩

def byteLen (wc : Wc) : ℕ := wc.byteLen / 4

def echoMismatch (sent got : ℕ) : Exn :=
  .runtimeError ("pingpong: echo size mismatch, sent " ++ toString sent ++ " got " ++ toString got)

def unexpectedSize (got expected : ℕ) : Exn :=
  .runtimeError ("pingpong: rank 1 received unexpected size " ++ toString got ++ ", expected " ++
    toString expected)

/-- `memcmp`; buffer 2 notes that some comparison has failed, where rank 0 throws. -/
def compare (size : ℕ) (m : Mem UInt8) : Mem UInt8 :=
  if ∀ i < size, m 0 i = m 1 i then m else Function.update m 2 fun _ => 1

def judge (size : ℕ) (wc : Wc) : Proc 2 UInt8 β Unit :=
  if byteLen wc ≠ size then .throw (echoMismatch size (byteLen wc))
  else .upd (fun l => { l with mem := compare size l.mem }) (.pure ())

def ping (size iter : ℕ) : Proc 2 UInt8 β Unit := do
  .upd (fun l => { l with mem := fillPattern size 0 iter l.mem }) (.pure ())
  .postRecv 1 (byteRequest 1 size size 1 ⟨iter, 1⟩) (.pure ())
  .postSend 1 (byteRequest 0 size size 0 ⟨iter, 0⟩) (.pure ())
  let _ ← waitCompletion .send
  let wc ← waitCompletion .recv
  judge size wc

def echo (size iter got : ℕ) : Proc 2 UInt8 β Unit :=
  if got ≠ size then .throw (unexpectedSize got size)
  else do
    .postSend 0 (byteRequest 1 size got 0 ⟨iter, 1⟩) (.pure ())
    let _ ← waitCompletion .send

def pong (size iter : ℕ) : Proc 2 UInt8 β Unit := do
  .postRecv 0 (byteRequest 1 size size 0 ⟨iter, 0⟩) (.pure ())
  let wc ← waitCompletion .recv
  echo size iter (byteLen wc)

def turn (size iter : ℕ) : Proc 2 UInt8 β Unit :=
  if R = 0 then ping size iter else pong size iter

/-- Where the behaviour of `main` is undefined: the number of rounds overflows an `int`, or
`iter * 17` does for an element of a round that is begun, or `compute_stats` gets no sample. -/
def Undefined (size : ℕ) (warmup iters : ℤ) : Prop :=
  2 ^ 31 ≤ warmup + iters ∨ warmup + iters ≤ 0 ∨
    size < 2 ^ 32 ∧ (iters = 0 ∨ 0 < size ∧ 2 ^ 31 ≤ (warmup + iters - 1) * 17)

instance (size : ℕ) (warmup iters : ℤ) : Decidable (Undefined size warmup iters) :=
  inferInstanceAs (Decidable (_ ∨ _ ∨ _ ∧ (_ ∨ _ ∧ _)))

/-- `main`, once the arguments are parsed. The times it takes are left out, and `ub` is whatever
happens where its behaviour is undefined. -/
def main (ub : Fin 2 → Proc 2 UInt8 (Comm 2) Unit) (size : ℕ) (warmup iters : ℤ) :
    Proc 2 UInt8 (Comm 2) Unit :=
  -- `send_buf` and `recv_buf` are made before the queue pair is used
  if 2 ^ 63 ≤ size then
    .throw (.lengthError "cannot create std::vector larger than max_size()")
  else do
    link E R
    -- `reserve` of a negative number
    if iters < 0 then .throw (.lengthError "vector::reserve")
    else if Undefined size warmup iters then ub R
    else (List.range (warmup + iters).toNat).forM (turn R size)

end Code

def startMain (E : Setup 2) (ub : Fin 2 → Proc 2 UInt8 (Comm 2) Unit) (size : ℕ)
    (warmup iters : ℤ) (m : Fin 2 → Mem UInt8) : Fin 2 → RankState 2 UInt8 (Comm 2) Unit :=
  start (fun r => main E r ub size warmup iters) fun r => ⟨m r, Comm.empty⟩

theorem otherRanks_two (R : Fin 2) : otherRanks R = [1 - R] := by
  decide +revert

/-- With two ranks the steps are those of the constructor of a communicator. -/
theorem link_eq (E : Setup 2) (R : Fin 2) : link (α := α) E R = communicator E R := by
  have horder : E.order R = [1 - R] := by
    have hperm := E.order_perm R
    rw [← otherRanks, otherRanks_two] at hperm
    exact List.perm_singleton.mp hperm
  have hforM : ∀ f : Fin 2 → Proc 2 α (Comm 2) Unit, [1 - R].forM f = f (1 - R) := fun f =>
    Proc.bind_unit (f (1 - R))
  rw [communicator, Setup.outgoing, otherRanks_two, horder, hforM, createQp, bind_assoc]
  simp only [hforM]
  rfl

section Turn

variable {size iter : ℕ}

theorem byteRequest_apart (size len len' wrId wrId' : ℕ) (tag tag' : Tag) :
    (byteRequest 0 size len wrId tag).Apart (byteRequest 1 size len' wrId' tag') :=
  Or.inl Nat.zero_ne_one

theorem judge_disciplined (wc : Wc) : Disciplined none none (judge (β := β) size wc) := by
  unfold judge
  split_ifs
  · trivial
  · exact ⟨rfl, rfl, rfl, rfl⟩

theorem ping_disciplined : Disciplined none none (ping (β := β) size iter) := by
  refine ⟨rfl, rfl, rfl, by simp, rfl, fun x hx => ?_, ?_⟩
  · obtain rfl := Option.some.inj hx
    exact byteRequest_apart _ _ _ _ _ _ _
  · exact ⟨by simp, fun wc => disciplined_checkWc _ _ wc fun wc => ⟨by simp, fun wc =>
      disciplined_checkWc _ _ wc fun wc => judge_disciplined wc⟩⟩

theorem echo_disciplined (got : ℕ) : Disciplined none none (echo (β := β) size iter got) := by
  unfold echo
  split_ifs
  · trivial
  · exact ⟨rfl, by simp, by simp, fun wc => disciplined_checkWc _ _ wc fun wc => ⟨rfl, rfl⟩⟩

theorem pong_disciplined : Disciplined none none (pong (β := β) size iter) :=
  ⟨rfl, by simp, by simp, fun wc => disciplined_checkWc _ _ wc fun wc =>
    echo_disciplined (byteLen wc)⟩

def filled (size iter : ℕ) (l : Local UInt8 β) : Local UInt8 β :=
  { l with mem := fillPattern size 0 iter l.mem }

def pingWr (size iter : ℕ) : Wr := byteRequest 0 size size 0 ⟨iter, 0⟩

def pongWr (size iter : ℕ) : Wr := byteRequest 1 size size 0 ⟨iter, 0⟩

def echoWr (size iter : ℕ) : Wr := byteRequest 1 size size 1 ⟨iter, 1⟩

theorem ping_bind (k : Unit → Proc 2 UInt8 β A) : ping size iter >>= k =
    .upd (filled size iter) (.postRecv 1 (echoWr size iter) (.postSend 1 (pingWr size iter)
      (.pollSend fun wc => checkWc wc >>= fun _ => .pollRecv fun wc => checkWc wc >>= fun wc =>
        judge size wc >>= k))) := by
  simp only [ping, waitCompletion, bind_assoc, Proc.upd_bind, Proc.postRecv_bind,
    Proc.postSend_bind, Proc.pure_bind', Proc.pollSend_bind, Proc.pollRecv_bind]
  rfl

theorem pong_bind (k : Unit → Proc 2 UInt8 β A) : pong size iter >>= k =
    .postRecv 0 (pongWr size iter) (.pollRecv fun wc => checkWc wc >>= fun wc =>
      echo size iter (byteLen wc) >>= k) := by
  simp only [pong, waitCompletion, bind_assoc, Proc.postRecv_bind, Proc.pure_bind',
    Proc.pollRecv_bind]
  rfl

def received (size : ℕ) (l l' : Local UInt8 β) (buf : Buf) : Local UInt8 β :=
  { l' with mem := fun b i => if b = 1 ∧ i < size % 2 ^ 32 then l.mem buf i else l'.mem b i }

section Message

variable {buf : Buf} {wrId wrId' : ℕ} {tag tag' : Tag}

theorem deliver_byteRequest (l l' : Local UInt8 β) :
    deliver (byteRequest buf size size wrId tag) (byteRequest 1 size size wrId' tag') l l' =
      received size l l' buf := by
  have hlen : (byteRequest buf size size wrId tag).length =
      (byteRequest 1 size size wrId' tag').length := rfl
  rw [deliver, if_pos hlen.le, received]
  congr 1
  funext b i
  rw [writeRange_readRange hlen]
  simp [byteRequest]

theorem sendStatus_byteRequest (buf' : Buf) :
    sendStatus (byteRequest buf size size wrId tag) (byteRequest buf' size size wrId' tag') =
      .success := if_pos (le_refl (size % 2 ^ 32 * 4))

theorem completionOf_byteRequest (q : Fin 2) (buf' : Buf) :
    completionOf (q, byteRequest buf size size wrId tag, byteRequest buf' size size wrId' tag') =
      ⟨.success, size % 2 ^ 32 * 4⟩ := if_pos (le_refl (size % 2 ^ 32 * 4))

theorem byteLen_success (n : ℕ) : byteLen ⟨.success, n * 4⟩ = n := Nat.mul_div_cancel n (by decide)

end Message

section Halves

variable {k : Unit → Proc 2 UInt8 β A} {l l' : Local UInt8 β} {sn sn' : List (Fin 2 × Wr)}
  {lg lg' : List (Fin 2 × Wr × Wr)} {bl bl' : List (Fin 2 × Tag × Tag)} {cap : Fin 2 → Fin 2 → ℕ}
  {s : Fin 2 → RankState 2 UInt8 β A} {k' : Unit → Proc 2 UInt8 β A}

def pinged (size iter : ℕ) (k : Unit → Proc 2 UInt8 β A) (l : Local UInt8 β)
    (sn : List (Fin 2 × Wr)) (lg : List (Fin 2 × Wr × Wr)) (bl : List (Fin 2 × Tag × Tag)) :
    RankState 2 UInt8 β A :=
  { atRest (.pollRecv fun wc => checkWc wc >>= fun wc => judge size wc >>= k) (filled size iter l)
      (sn ++ [(1, pingWr size iter)]) lg bl with
    recvQ := Function.update (fun _ => []) 1 [echoWr size iter] }

theorem first_half : Reaches (fabric 2 UInt8 β A cap)
    (two s 0 1 (atRest (ping size iter >>= k) l sn lg bl)
      (atRest (pong size iter >>= k') l' sn' lg' bl'))
    (two s 0 1 (pinged size iter k l sn lg bl)
      (atRest (echo size iter (size % 2 ^ 32) >>= k') (received size (filled size iter l) l' 0) sn'
        (lg' ++ [(0, pingWr size iter, pongWr size iter)]) bl')) := by
  have hij : (0 : Fin 2) ≠ 1 := by decide
  let x : RankState 2 UInt8 β A :=
    { atRest (.pollSend fun wc => checkWc wc >>= fun _ => .pollRecv fun wc => checkWc wc >>=
        fun wc => judge size wc >>= k) (filled size iter l) sn lg bl with
      recvQ := Function.update (fun _ => []) 1 [echoWr size iter]
      sendQ := Function.update (fun _ => []) 1 [pingWr size iter] }
  let y : RankState 2 UInt8 β A :=
    { atRest (.pollRecv fun wc => checkWc wc >>= fun wc => echo size iter (byteLen wc) >>= k') l'
        sn' lg' bl' with
      recvQ := Function.update (fun _ => []) 0 [pongWr size iter] }
  have hpost : Reaches (fabric 2 UInt8 β A cap)
      (two s 0 1 (atRest (ping size iter >>= k) l sn lg bl)
        (atRest (pong size iter >>= k') l' sn' lg' bl')) (two s 0 1 x y) := by
    refine two_moves hij ?_ ?_
    · rw [ping_bind]
      exact .head ⟨.op, rfl⟩ (.head ⟨.op, rfl⟩ (.head ⟨.op, rfl⟩ .refl))
    · rw [pong_bind]
      exact .head ⟨.op, rfl⟩ .refl
  have hx : x.sendQ = Function.update (fun _ => []) 1 [pingWr size iter] := rfl
  have hy : y.recvQ = Function.update (fun _ => []) 0 [pongWr size iter] := rfl
  have hsend := hpost.trans (two_deliver hij hx rfl hy)
  rw [pingWr, pongWr, sendStatus_byteRequest, deliver_byteRequest,
    completionOf_byteRequest] at hsend
  refine hsend.trans (two_moves hij (moves_waitSend (q := 1) 0 rfl rfl rfl) (Moves.one .op ?_))
  simp [fabric, actStep, opStep, y, x, atRest, checkWc, byteLen_success, pingWr, pongWr]

def replyWr (size iter : ℕ) : Wr := byteRequest 1 size size 0 ⟨iter, 1⟩

def judged (size : ℕ) (l : Local UInt8 β) : Local UInt8 β := { l with mem := compare size l.mem }

theorem second_half (hsize : size < 2 ^ 32) : Reaches (fabric 2 UInt8 β A cap)
    (two s 0 1 (pinged size iter k l sn lg bl)
      (atRest (echo size iter (size % 2 ^ 32) >>= k') l' sn' lg' bl'))
    (two s 0 1
      (atRest (k ()) (judged size (received size l' (filled size iter l) 1))
        (sn ++ [(1, pingWr size iter)]) (lg ++ [(1, replyWr size iter, echoWr size iter)]) bl)
      (atRest (k' ()) l' (sn' ++ [(0, replyWr size iter)]) lg' bl')) := by
  have hij : (0 : Fin 2) ≠ 1 := by decide
  have hmod : size % 2 ^ 32 = size := Nat.mod_eq_of_lt hsize
  let y : RankState 2 UInt8 β A :=
    { atRest (.pollSend fun wc => checkWc wc >>= fun _ => k' ()) l' sn' lg' bl' with
      sendQ := Function.update (fun _ => []) 0 [replyWr size iter] }
  have hecho : echo size iter (size % 2 ^ 32) >>= k' =
      .postSend 0 (replyWr size iter) (.pollSend fun wc => checkWc wc >>= fun _ => k' ()) := by
    rw [echo, if_neg (not_not.mpr hmod), hmod]
    simp only [waitCompletion, bind_assoc, Proc.postSend_bind, Proc.pure_bind', Proc.pollSend_bind]
    rfl
  have hpost : Reaches (fabric 2 UInt8 β A cap)
      (two s 0 1 (pinged size iter k l sn lg bl)
        (atRest (echo size iter (size % 2 ^ 32) >>= k') l' sn' lg' bl'))
      (two s 0 1 (pinged size iter k l sn lg bl) y) := by
    refine two_moves hij .refl ?_
    rw [hecho]
    exact .head ⟨.op, rfl⟩ .refl
  have hx : (pinged size iter k l sn lg bl).recvQ =
      Function.update (fun _ => []) 1 [echoWr size iter] := rfl
  have hy : y.sendQ = Function.update (fun _ => []) 0 [replyWr size iter] := rfl
  have hsend : Reaches (fabric 2 UInt8 β A cap) _ _ := two_deliver (s := s) hij.symm hy rfl hx
  rw [← two_comm hij, ← two_comm hij, replyWr, echoWr, sendStatus_byteRequest, deliver_byteRequest,
    completionOf_byteRequest, hmod] at hsend
  refine (hpost.trans hsend).trans (two_moves hij ?_ (moves_waitSend (q := 0) 1 rfl rfl rfl))
  have hjudge : checkWc ⟨.success, size * 4⟩ >>= (fun wc => judge size wc >>= k) =
      .upd (judged size) (k ()) := by
    change judge size ⟨.success, size * 4⟩ >>= k = _
    rw [judge, byteLen_success, if_neg (not_not.mpr rfl)]
    rfl
  let z : RankState 2 UInt8 β A :=
    atRest (.upd (judged size) (k ())) (received size l' (filled size iter l) 1)
      (sn ++ [(1, pingWr size iter)]) (lg ++ [(1, replyWr size iter, echoWr size iter)]) bl
  refine Relation.ReflTransGen.head (b := z) ⟨.op, ?_⟩ (.head ⟨.op, rfl⟩ .refl)
  simp only [z, ← hjudge]
  rfl

end Halves

section Turns

variable {l : Fin 2 → Local UInt8 β} {k : Fin 2 → Unit → Proc 2 UInt8 β A} {cap : Fin 2 → Fin 2 → ℕ}
  {s : Fin 2 → RankState 2 UInt8 β A}

theorem quiet_first_half (hs : ∀ r, Quiet (turn r size iter >>= k r) (l r) (s r)) :
    Reaches (fabric 2 UInt8 β A cap) s (two s 0 1
      (pinged size iter (k 0) (l 0) (s 0).sent (s 0).log (s 0).byteLog)
      (atRest (echo size iter (size % 2 ^ 32) >>= k 1)
        (received size (filled size iter (l 0)) (l 1) 0) (s 1).sent
        ((s 1).log ++ [(0, pingWr size iter, pongWr size iter)]) (s 1).byteLog)) := by
  have h0 : s 0 = atRest (ping size iter >>= k 0) _ _ _ _ := (hs 0).eq_atRest
  have h1 : s 1 = atRest (pong size iter >>= k 1) _ _ _ _ := (hs 1).eq_atRest
  have hreach : Reaches (fabric 2 UInt8 β A cap) (two s 0 1
      (atRest (ping size iter >>= k 0) (l 0) (s 0).sent (s 0).log (s 0).byteLog)
      (atRest (pong size iter >>= k 1) (l 1) (s 1).sent (s 1).log (s 1).byteLog)) _ := first_half
  rwa [← h0, ← h1, two_self] at hreach

def afterTurn (size iter : ℕ) (l : Fin 2 → Local UInt8 β) : Fin 2 → Local UInt8 β :=
  let ping := filled size iter (l 0)
  let pong := received size ping (l 1) 0
  two l 0 1 (judged size (received size pong ping 1)) pong

theorem turn_leads (hsize : size < 2 ^ 32) (k : Fin 2 → Unit → Proc 2 UInt8 β A)
    (l : Fin 2 → Local UInt8 β) :
    Leads cap (fun r => turn r size iter >>= k r) l (fun r => k r ()) (afterTurn size iter l) := by
  intro s hs
  refine ⟨_, (quiet_first_half hs).trans (second_half hsize), Fin.forall_fin_two.mpr ⟨?_, ?_⟩⟩
  · rw [two_fst (by decide), afterTurn, two_fst (by decide)]
    refine atRest_quiet (fun e he => ?_) (hs 0).byteTags
    rcases List.mem_append.mp he with he | he
    · exact (hs 0).tags e he
    · rw [List.mem_singleton.mp he]
      rfl
  · rw [two_snd, afterTurn, two_snd]
    refine atRest_quiet (fun e he => ?_) (hs 1).byteTags
    rcases List.mem_append.mp he with he | he
    · exact (hs 1).tags e he
    · rw [List.mem_singleton.mp he]
      rfl

theorem afterTurn_mem (hsize : size < 2 ^ 32) (l : Fin 2 → Local UInt8 β) (r : Fin 2) (b : Buf)
    (i : ℕ) : (afterTurn size iter l r).mem b i =
      if i < size ∧ (b = 1 ∨ b = 0 ∧ r = 0) then UInt8.ofNat (iter * 17 + i)
      else (l r).mem b i := by
  have hmod : size % 2 ^ 32 = size := Nat.mod_eq_of_lt hsize
  have hzero : 0 * 131 + iter * 17 + i = iter * 17 + i := by omega
  revert r
  refine Fin.forall_fin_two.mpr ⟨?_, ?_⟩
  · rw [afterTurn, two_fst (by decide), judged, compare, if_pos]
    · simp only [received, filled, fillPattern, hmod, hzero]
      by_cases hi : i < size <;> by_cases h1 : b = 1 <;> by_cases h0 : b = 0 <;> simp [*]
    · intro j hj
      simp only [received, filled, hmod, hj, and_self, if_true, ite_self]
  · rw [afterTurn, two_snd]
    simp only [received, filled, fillPattern, hmod, hzero]
    by_cases hi : i < size <;> by_cases h1 : b = 1 <;> simp [*]

def afterTurns (size : ℕ) (iters : List ℕ) (l : Fin 2 → Local UInt8 β) : Fin 2 → Local UInt8 β :=
  iters.foldl (fun l iter => afterTurn size iter l) l

theorem turns_leads (hsize : size < 2 ^ 32) (iters : List ℕ) (l : Fin 2 → Local UInt8 β) :
    Leads cap (fun r => iters.forM (turn r size)) l (fun _ => .pure ())
      (afterTurns size iters l) := by
  induction iters generalizing l with
  | nil => exact Leads.refl _ _
  | cons iter iters ih =>
    exact (turn_leads hsize (fun r _ => iters.forM (turn r size)) l).trans (ih _)

theorem afterTurns_note (hsize : size < 2 ^ 32) (iters : List ℕ) (l : Fin 2 → Local UInt8 β)
    (r : Fin 2) (i : ℕ) : (afterTurns size iters l r).mem 2 i = (l r).mem 2 i := by
  induction iters generalizing l with
  | nil => rfl
  | cons iter iters ih =>
    rw [afterTurns, List.foldl_cons, ← afterTurns, ih, afterTurn_mem hsize]
    simp

theorem afterTurns_last (hsize : size < 2 ^ 32) (n : ℕ) (l : Fin 2 → Local UInt8 β) (r : Fin 2)
    {i : ℕ} (hi : i < size) :
    (afterTurns size (List.range (n + 1)) l r).mem 1 i = UInt8.ofNat (n * 17 + i) := by
  rw [afterTurns, List.range_succ, List.foldl_append, List.foldl_cons, List.foldl_nil,
    afterTurn_mem hsize, if_pos ⟨hi, Or.inl rfl⟩]

end Turns

end Turn

/-- How `main` ends on a rank; `none` is to wait forever. -/
def outcome (size : ℕ) (iters : ℤ) (r : Fin 2) : Option (Except Exn Unit) :=
  if 2 ^ 63 ≤ size then
    some (.error (.lengthError "cannot create std::vector larger than max_size()"))
  else if iters < 0 then some (.error (.lengthError "vector::reserve"))
  else if size < 2 ^ 32 then some (.ok ())
  else if r = 0 then none
  else some (.error (unexpectedSize (size % 2 ^ 32) size))

section Runs

variable {size : ℕ} {warmup iters : ℤ} {cap : Fin 2 → Fin 2 → ℕ}
  {ub : Fin 2 → Proc 2 UInt8 (Comm 2) Unit}

/-- Nothing undefined happens: the arguments are refused, or there are rounds enough and not too
many. -/
def Defined (size : ℕ) (warmup iters : ℤ) : Prop :=
  2 ^ 63 ≤ size ∨ iters < 0 ∨ ¬ Undefined size warmup iters

theorem main_disciplined (E : Setup 2) (hdef : Defined size warmup iters) (R : Fin 2) :
    Disciplined none none (main E R ub size warmup iters) := by
  rw [main, link_eq]
  split_ifs with hsize hiters hund
  · trivial
  · exact (communicator_disciplined E R).bind fun _ => trivial
  · exact absurd hund ((hdef.resolve_left hsize).resolve_left hiters)
  · refine (communicator_disciplined E R).bind fun _ => Disciplined.forM (fun iter => ?_) _
    unfold turn
    split_ifs
    · exact ping_disciplined
    · exact pong_disciplined

def rest (size : ℕ) (warmup iters : ℤ) (r : Fin 2) : Proc 2 UInt8 (Comm 2) Unit :=
  if iters < 0 then .throw (.lengthError "vector::reserve")
  else (List.range (warmup + iters).toNat).forM (turn r size)

theorem main_leads (hcap : ∀ i j, 0 < cap i j) (hsize : ¬ 2 ^ 63 ≤ size)
    (hdef : iters < 0 ∨ ¬ Undefined size warmup iters) (E : Setup 2)
    (l : Fin 2 → Local UInt8 (Comm 2)) : Leads cap (fun r => main E r ub size warmup iters) l
      (rest size warmup iters) (fun r => wire E r (l r)) := by
  have hmain : (fun r => main E r ub size warmup iters) =
      fun r => communicator E r >>= fun _ => rest size warmup iters r := by
    funext r
    rw [main, if_neg hsize, link_eq]
    congr 1
    funext _
    rw [rest]
    split_ifs with hiters hund
    · rfl
    · exact absurd hund (hdef.resolve_left hiters)
    · rfl
  rw [hmain]
  exact communicator_leads E hcap (by decide) (fun r _ => rest size warmup iters r) l

structure AtEnd (size : ℕ) (warmup iters : ℤ) (m : Fin 2 → Mem UInt8) (r : Fin 2)
    (st : RankState 2 UInt8 (Comm 2) Unit) : Prop where
  ends : EndsAs (outcome size iters r) st
  halted : Halted st
  note : st.loc.mem 2 = m r 2
  last : size < 2 ^ 32 → 0 ≤ iters → ∀ n : ℕ, warmup + iters = n + 1 →
    ∀ i < size, st.loc.mem 1 i = UInt8.ofNat (n * 17 + i)

theorem ends_of_refused (hsize : 2 ^ 63 ≤ size) (E : Setup 2) (m : Fin 2 → Mem UInt8) (r : Fin 2) :
    AtEnd size warmup iters m r (startMain E ub size warmup iters m r) := by
  have hends : EndsAs (outcome size iters r) (startMain E ub size warmup iters m r) := by
    rw [outcome, if_pos hsize]
    exact if_pos hsize
  exact {
    ends := hends
    halted := hends.halted rfl rfl
    note := rfl
    last := fun h => absurd h (by omega) }

variable {l : Fin 2 → Local UInt8 (Comm 2)} {s : Fin 2 → RankState 2 UInt8 (Comm 2) Unit}
  (hvec : ¬ 2 ^ 63 ≤ size) (hs : ∀ r, Quiet (rest size warmup iters r) (l r) (s r))
include hvec hs

theorem ends_of_negative (hiters : iters < 0) (r : Fin 2) :
    AtEnd size warmup iters (fun r => (l r).mem) r (s r) := by
  have hends : EndsAs (outcome size iters r) (s r) := by
    rw [outcome, if_neg hvec, if_pos hiters]
    exact (hs r).proc.trans (if_pos hiters)
  exact {
    ends := hends
    halted := hends.halted (hs r).sendQ (hs r).acks
    note := by rw [(hs r).loc]
    last := fun _ h0 => absurd hiters (not_lt.mpr h0) }

theorem ends_of_fits (hiters : 0 ≤ iters) (hsize : size < 2 ^ 32) :
    ∃ e, Reaches (fabric 2 UInt8 (Comm 2) Unit cap) s e ∧
      ∀ r, AtEnd size warmup iters (fun r => (l r).mem) r (e r) := by
  have hrest : rest size warmup iters =
      fun r => (List.range (warmup + iters).toNat).forM (turn r size) :=
    funext fun r => if_neg (not_lt.mpr hiters)
  rw [hrest] at hs
  have hleads : Leads cap (fun r => (List.range (warmup + iters).toNat).forM (turn r size)) l
      (fun _ => .pure ()) (afterTurns size (List.range (warmup + iters).toNat) l) :=
    turns_leads hsize _ l
  obtain ⟨e, he, hq⟩ := hleads s hs
  refine ⟨e, he, fun r => ?_⟩
  have hends : EndsAs (outcome size iters r) (e r) := by
    rw [outcome, if_neg hvec, if_neg (not_lt.mpr hiters), if_pos hsize]
    exact (hq r).proc
  exact {
    ends := hends
    halted := hends.halted (hq r).sendQ (hq r).acks
    note := by
      rw [(hq r).loc]
      exact funext fun i => afterTurns_note hsize _ l r i
    last := fun hsize _ n hn i hi => by
      rw [(hq r).loc, hn]
      exact afterTurns_last hsize n l r hi }

theorem ends_of_large (hiters : 0 ≤ iters) (hsize : 2 ^ 32 ≤ size) (hturns : 0 < warmup + iters) :
    ∃ e, Reaches (fabric 2 UInt8 (Comm 2) Unit cap) s e ∧
      ∀ r, AtEnd size warmup iters (fun r => (l r).mem) r (e r) := by
  obtain ⟨n, hn⟩ : ∃ n, (warmup + iters).toNat = n + 1 := ⟨(warmup + iters).toNat - 1, by omega⟩
  let k : Fin 2 → Unit → Proc 2 UInt8 (Comm 2) Unit := fun r _ =>
    ((List.range n).map Nat.succ).forM (turn r size)
  have hrest : ∀ r, rest size warmup iters r = turn r size 0 >>= k r := by
    intro r
    rw [rest, if_neg (not_lt.mpr hiters), hn, List.range_succ_eq_map, Proc.forM_cons]
  simp only [hrest] at hs
  have hne : size % 2 ^ 32 ≠ size := by omega
  have hthrow : echo size 0 (size % 2 ^ 32) >>= k 1 =
      .throw (unexpectedSize (size % 2 ^ 32) size) := by
    rw [echo, if_pos hne]
    rfl
  have houtcome : ∀ r, outcome size iters r = if r = 0 then none
      else some (.error (unexpectedSize (size % 2 ^ 32) size)) := by
    intro r
    rw [outcome, if_neg hvec, if_neg (not_lt.mpr hiters), if_neg (by omega)]
  refine ⟨_, quiet_first_half hs, Fin.forall_fin_two.mpr ⟨?_, ?_⟩⟩
  · rw [two_fst (by decide)]
    have hends : EndsAs (outcome size iters 0)
        (pinged size 0 (k 0) (l 0) (s 0).sent (s 0).log (s 0).byteLog) := by
      rw [houtcome, if_pos rfl]
      exact ⟨_, rfl, rfl⟩
    exact {
      ends := hends
      halted := hends.halted rfl rfl
      note := rfl
      last := fun h => absurd h (not_lt.mpr hsize) }
  · rw [two_snd, hthrow]
    have hends : EndsAs (outcome size iters 1)
        (atRest (.throw (unexpectedSize (size % 2 ^ 32) size))
          (received size (filled size 0 (l 0)) (l 1) 0) (s 1).sent
          ((s 1).log ++ [(0, pingWr size 0, pongWr size 0)]) (s 1).byteLog) := by
      rw [houtcome, if_neg (by decide)]
      rfl
    exact {
      ends := hends
      halted := hends.halted rfl rfl
      note := rfl
      last := fun h => absurd h (not_lt.mpr hsize) }

end Runs

theorem main_ends {cap : Fin 2 → Fin 2 → ℕ} (hcap : ∀ i j, 0 < cap i j) (E : Setup 2)
    {ub : Fin 2 → Proc 2 UInt8 (Comm 2) Unit} {size : ℕ} {warmup iters : ℤ}
    (hdef : Defined size warmup iters) (m : Fin 2 → Mem UInt8) :
    ∃ e, Reaches (fabric 2 UInt8 (Comm 2) Unit cap) (startMain E ub size warmup iters m) e ∧
      ∀ r, AtEnd size warmup iters m r (e r) := by
  by_cases hvec : 2 ^ 63 ≤ size
  · exact ⟨_, .refl, ends_of_refused hvec E m⟩
  have hdef := hdef.resolve_left hvec
  have hleads : Leads cap (fun r => main E r ub size warmup iters) _ _ _ :=
    main_leads hcap hvec hdef E fun r => ⟨m r, Comm.empty⟩
  obtain ⟨t, ht, hq⟩ := hleads _ (start_quiet _ _)
  obtain ⟨e, hte, hend⟩ : ∃ e, Reaches (fabric 2 UInt8 (Comm 2) Unit cap) t e ∧
      ∀ r, AtEnd size warmup iters m r (e r) := by
    by_cases hiters : iters < 0
    · exact ⟨t, .refl, ends_of_negative hvec hq hiters⟩
    · have hturns : 0 < warmup + iters := by
        by_contra hnone
        exact hdef.resolve_left hiters (Or.inr (Or.inl (not_lt.mp hnone)))
      by_cases hsize : size < 2 ^ 32
      · exact ends_of_fits hvec hq (not_lt.mp hiters) hsize
      · exact ends_of_large hvec hq (not_lt.mp hiters) (not_lt.mp hsize) hturns
  exact ⟨e, ht.trans hte, hend⟩

/-- Where nothing is undefined, every run of the example goes on to one and the same end, and no
rank returns or throws in any other way. Up to 4 GiB both ranks return, no comparison has failed,
and both receive buffers hold the last pattern. From there on rank 1 throws in its first turn and
rank 0 waits forever for the echo, until both throw at once from 2^63 bytes on. No barrier comes
before the first message: that it waits for the queue pair of rank 1 is assumed. -/
theorem pingpong_outcome (cap : Fin 2 → Fin 2 → ℕ) (hcap : ∀ i j, 0 < cap i j) (E : Setup 2)
    (ub : Fin 2 → Proc 2 UInt8 (Comm 2) Unit) {size : ℕ} {warmup iters : ℤ}
    (hdef : Defined size warmup iters) (m : Fin 2 → Mem UInt8) :
    ∃ e, Reaches (fabric 2 UInt8 (Comm 2) Unit cap) (startMain E ub size warmup iters m) e ∧
      (∀ r, AtEnd size warmup iters m r (e r)) ∧
      ∀ s, Reaches (fabric 2 UInt8 (Comm 2) Unit cap) (startMain E ub size warmup iters m) s →
        Reaches (fabric 2 UInt8 (Comm 2) Unit cap) s e ∧
        ∀ r, ((s r).proc = .pure () → outcome size iters r = some (.ok ())) ∧
          ∀ x, (s r).proc = .throw x → outcome size iters r = some (.error x) := by
  obtain ⟨e, he, hend⟩ := main_ends hcap E hdef m
  have hd : ∀ r, Disciplined none none (main E r ub size warmup iters) := main_disciplined E hdef
  have hhalt := fun r => (hend r).halted
  refine ⟨e, he, hend, fun s hs => ⟨reaches_end hd he hhalt hs, fun r =>
    ⟨fun hr => ?_, fun x hr => ?_⟩⟩⟩
  · exact (hend r).ends.of_pure (returned_at_end hd he hhalt hs hr).1
  · exact (hend r).ends.of_throw (thrown_at_end hd he hhalt hs hr)

theorem pingpong_outcome_defaults :
    ∃ e, Reaches (fabric 2 UInt8 (Comm 2) Unit fun _ _ => 1)
        (startMain twoPorts (fun _ => .pure ()) 4096 100 1000 fun _ _ _ => 0) e ∧
      ∀ r, (e r).proc = .pure () ∧ (e r).loc.mem 1 6 = 1 := by
  have hdef : Defined 4096 100 1000 := Or.inr (Or.inr (by decide))
  obtain ⟨e, he, hend, -⟩ := pingpong_outcome (fun _ _ => 1) (fun _ _ => Nat.one_pos) twoPorts
    (fun _ => .pure ()) hdef fun _ _ _ => 0
  refine ⟨e, he, fun r => ⟨(hend r).ends, ?_⟩⟩
  rw [(hend r).last (by decide) (by decide) 1099 (by decide) 6 (by decide)]
  decide

end Pingpong

end MicroCcl

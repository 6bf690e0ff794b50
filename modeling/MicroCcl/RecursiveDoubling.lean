import MicroCcl.Frame
import MicroCcl.ReduceOps
import Mathlib.Algebra.Group.WithOne.Basic
import Mathlib.Algebra.BigOperators.Fin
import Mathlib.Data.Nat.Bitwise

namespace MicroCcl
open Network

variable {P : ℕ} {α β : Type}

section Code

variable (ops : Ops α) (R : Fin P) (call : ℕ) (a : AllreduceArgs)

def isPowerOfTwo (p : ℕ) : Bool := p > 0 && (p &&& (p - 1)) == 0

def halvings (p : ℕ) : ℕ := if p > 1 then halvings (p >>> 1) + 1 else 0
termination_by p
decreasing_by rw [Nat.shiftRight_one]; omega

def doublingMismatch (step expected got : ℕ) : Exn :=
  .runtimeError ("allreduce_recursive_doubling: recv size mismatch at step " ++ toString step ++
    ", expected " ++ toString expected ++ " got " ++ toString got ++
    " -- ranks disagree on message size")

def doublingStep (bytes step : ℕ) : Proc P α β Unit := do
  let partner := R.val ^^^ (1 <<< step)
  postRecv (← qp R partner) a.scratchMr a.scratch 0 bytes 0 ⟨call, step⟩
  postSend (← qp R partner) a.dataMr a.data 0 bytes 0 ⟨call, step⟩
  let _ ← waitCompletion .send
  let wc ← waitCompletion .recv
  if wc.byteLen ≠ bytes then
    .throw (doublingMismatch step bytes wc.byteLen)
  .upd (a.reduce ops 0 a.count) (.pure ())

def allreduceRecursiveDoubling : Proc P α β Unit := do
  let elemSize := dtypeSize a.dtype
  if szMul a.count elemSize > a.dataMr.length then
    .throw (.runtimeError
      "allreduce_recursive_doubling: count exceeds registered data buffer length")
  else if ¬ isPowerOfTwo P then
    .throw (.runtimeError ("allreduce_recursive_doubling: world_size (" ++ toString P ++
      ") must be a power of two"))
  else if P = 1 then
    .pure ()
  else if a.scratchCapacityElems < a.count then
    .throw (.runtimeError ("allreduce_recursive_doubling: scratch buffer (" ++
      toString a.scratchCapacityElems ++ " elems) smaller than the full buffer (" ++
      toString a.count ++ " elems) -- recursive doubling exchanges the whole message every " ++
      "step, unlike ring's per-chunk scratch requirement"))
  else
    let bytes := szMul a.count elemSize
    (List.range (halvings P)).forM (doublingStep ops R call a bytes)

end Code

theorem isPowerOfTwo_two_pow (m : ℕ) : isPowerOfTwo (2 ^ m) = true := by
  have h : 0 < 2 ^ m := Nat.two_pow_pos m
  simp [isPowerOfTwo, Nat.and_two_pow_sub_one_eq_mod, h]

theorem exists_two_pow_of_isPowerOfTwo {p : ℕ} (h : isPowerOfTwo p = true) : ∃ m, p = 2 ^ m := by
  simp only [isPowerOfTwo, gt_iff_lt, Bool.and_eq_true, decide_eq_true_eq, beq_iff_eq] at h
  exact Nat.ne_zero_and_sub_one_eq_zero_iff_isPowerOfTwo.mp ⟨h.1.ne', h.2⟩

theorem halvings_two_pow (m : ℕ) : halvings (2 ^ m) = m := by
  induction m with
  | zero => simp [halvings]
  | succ m ih =>
    have h : 1 < 2 ^ (m + 1) := Nat.one_lt_two_pow (by omega)
    rw [halvings, if_pos h, Nat.shiftRight_one, pow_succ, Nat.mul_div_cancel _ (by omega), ih]

/-- The rank whose number differs from that of `r` in bit `k`. -/
def partner (k : ℕ) (r : Fin P) : Fin P := ⟨(r ^^^ 2 ^ k) % P, Nat.mod_lt _ r.pos⟩

theorem partner_val {m k : ℕ} (hP : P = 2 ^ m) (hk : k < m) (r : Fin P) :
    (partner k r).val = r ^^^ 2 ^ k := by
  subst hP
  exact Nat.mod_eq_of_lt (Nat.xor_lt_two_pow r.isLt (Nat.pow_lt_pow_right (by omega) hk))

theorem partner_ne {m k : ℕ} (hP : P = 2 ^ m) (hk : k < m) (r : Fin P) : r ≠ partner k r := by
  intro h
  have hv := partner_val hP hk r
  rw [← h] at hv
  have hbit := congrArg (Nat.testBit · k) hv
  simp [Nat.testBit_xor, Nat.testBit_two_pow_self] at hbit

theorem partner_partner {m k : ℕ} (hP : P = 2 ^ m) (hk : k < m) (r : Fin P) :
    partner k (partner k r) = r := by
  ext
  rw [partner_val hP hk, partner_val hP hk, Nat.xor_assoc, Nat.xor_self, Nat.xor_zero]

def doublingRound (ops : Ops α) (call : ℕ) (a : Fin P → AllreduceArgs) (step : ℕ) :
    Round P α β := fun r =>
  let bytes := szMul (a r).count 4
  { recv := some (partner step r,
      { wr := workRequest (a r).scratchMr (a r).scratch 0 bytes ⟨call, step⟩
        expected := bytes
        mismatch := doublingMismatch step bytes
        reduce := some ((a r).reduce ops 0 (a r).count) })
    send := some (partner step r, workRequest (a r).dataMr (a r).data 0 bytes ⟨call, step⟩) }

def doublingRounds (ops : Ops α) (call : ℕ) (a : Fin P → AllreduceArgs) (m : ℕ) :
    List (Round P α β) := (List.range m).map (doublingRound ops call a)

theorem doublingStep_eq {m step : ℕ} (hP : P = 2 ^ m) (hs : step < m) (ops : Ops α) (call : ℕ)
    (a : Fin P → AllreduceArgs) (r : Fin P) :
    doublingStep ops r call (a r) (szMul (a r).count 4) step =
      (doublingRound (β := β) ops call a step r).proc := by
  have hqp : qp (α := α) (β := β) r ((r.val ^^^ (1 <<< step) : ℕ) : ℤ) =
      .pure (partner step r) := by
    rw [Nat.one_shiftLeft, ← partner_val hP hs r]
    exact qp_eq (partner_ne hP hs r)
  unfold doublingStep doublingRound Xfer.proc
  simp [hqp, Xfer.postRecv, Xfer.postSend, Xfer.waitSend, Xfer.waitRecv, postRecv, postSend,
    RecvPart.finish_def, workRequest]

/-- The guards of `allreduce_recursive_doubling`; the product is one of `size_t`. -/
def DoublingGuards (P : ℕ) (a : AllreduceArgs) : Prop :=
  szMul a.count 4 ≤ a.dataMr.length ∧ isPowerOfTwo P = true ∧
    (P = 1 ∨ a.count ≤ a.scratchCapacityElems)

theorem allreduceRecursiveDoubling_of_guards (ops : Ops α) (call : ℕ) (a : Fin P → AllreduceArgs)
    (r : Fin P) (h : DoublingGuards P (a r)) : allreduceRecursiveDoubling ops r call (a r) =
      roundsProc (doublingRounds (β := β) ops call a (halvings P)) r := by
  obtain ⟨hfit, hpow, hscr⟩ := h
  obtain ⟨m, hP⟩ := exists_two_pow_of_isPowerOfTwo hpow
  have hsteps : halvings P = m := hP ▸ halvings_two_pow m
  unfold allreduceRecursiveDoubling
  simp only [dtypeSize_eq, if_neg (not_lt.mpr hfit), hpow, not_true, if_false]
  by_cases h1 : P = 1
  · have h0 : halvings P = 0 := by rw [h1, halvings, if_neg (lt_irrefl 1)]
    rw [if_pos h1, h0]
    rfl
  · rw [if_neg h1, if_neg (not_lt.mpr (hscr.resolve_left h1)), hsteps]
    exact forM_eq_roundsProc fun s hs => doublingStep_eq hP (List.mem_range.mp hs) ops call a r

theorem allreduceRecursiveDoubling_refuses (ops : Ops α) (R : Fin P) (call : ℕ) (a : AllreduceArgs)
    (h : ¬ DoublingGuards P a) : ∃ e, allreduceRecursiveDoubling (β := β) ops R call a =
      .throw e := by
  unfold allreduceRecursiveDoubling
  simp only [dtypeSize_eq]
  split_ifs with h1 h2 h3 h4
  · exact ⟨_, rfl⟩
  · exact absurd ⟨not_lt.mp h1, h2, Or.inl h3⟩ h
  · exact ⟨_, rfl⟩
  · exact absurd ⟨not_lt.mp h1, h2, Or.inr (not_lt.mp h4)⟩ h
  · exact ⟨_, rfl⟩

theorem allreduceRecursiveDoubling_eq {m : ℕ} (hP : P = 2 ^ m) (ops : Ops α) (call : ℕ)
    (a : Fin P → AllreduceArgs) (r : Fin P) (hfit : (a r).count * 4 ≤ (a r).dataMr.length)
    (hscr : P = 1 ∨ (a r).count ≤ (a r).scratchCapacityElems) :
    allreduceRecursiveDoubling ops r call (a r) =
      roundsProc (doublingRounds (β := β) ops call a m) r := by
  have hpow : isPowerOfTwo P = true := hP ▸ isPowerOfTwo_two_pow m
  have hsteps : halvings P = m := hP ▸ halvings_two_pow m
  rw [← hsteps]
  exact allreduceRecursiveDoubling_of_guards ops call a r
    ⟨(Nat.mod_le _ _).trans hfit, hpow, hscr⟩

/-- What a rank holds after `k` steps. -/
def xorTree (f : α → α → α) (x : Fin P → α) : ℕ → Fin P → α
  | 0, r => x r
  | k + 1, r => f (xorTree f x k r) (xorTree f x k (partner k r))

/-- In each of `m` exchanges the two values that meet give the same in both orders. -/
def MeetAlike (f : α → α → α) (x : Fin P → α) (m : ℕ) : Prop :=
  ∀ k < m, ∀ r, f (xorTree f x k r) (xorTree f x k (partner k r)) =
    f (xorTree f x k (partner k r)) (xorTree f x k r)

/-- The ranks that agree with `r` on all bits from `k` up. -/
def SameBlock (k : ℕ) (r q : Fin P) : Prop := ∀ j, k ≤ j → r.val.testBit j = q.val.testBit j

instance (k : ℕ) (r q : Fin P) : Decidable (SameBlock k r q) :=
  decidable_of_iff (r.val >>> k = q.val >>> k) <| by
    constructor
    · intro h j hj
      have hbit := congrArg (Nat.testBit · (j - k)) h
      simpa [Nat.testBit_shiftRight, Nat.add_sub_cancel' hj] using hbit
    · intro h
      refine Nat.eq_of_testBit_eq fun j => ?_
      simpa [Nat.testBit_shiftRight] using h (k + j) (by omega)

theorem agree_succ_iff (k a b : ℕ) :
    (∀ j, k + 1 ≤ j → a.testBit j = b.testBit j) ↔
      (∀ j, k ≤ j → a.testBit j = b.testBit j) ∨
        ∀ j, k ≤ j → (a ^^^ 2 ^ k).testBit j = b.testBit j := by
  have hflip : ∀ j, (a ^^^ 2 ^ k).testBit j = (a.testBit j ^^ decide (k = j)) := by
    intro j
    rw [Nat.testBit_xor, Nat.testBit_two_pow]
  constructor
  · intro h
    by_cases hbit : a.testBit k = b.testBit k
    · refine Or.inl fun j hj => ?_
      rcases Nat.eq_or_lt_of_le hj with rfl | hj
      · exact hbit
      · exact h j hj
    · refine Or.inr fun j hj => ?_
      rw [hflip]
      rcases Nat.eq_or_lt_of_le hj with rfl | hj
      · revert hbit
        cases a.testBit k <;> cases b.testBit k <;> simp
      · simpa [show k ≠ j by omega] using h j hj
  · rintro (h | h) j hj
    · exact h j (by omega)
    · have := h j (by omega)
      rw [hflip] at this
      simpa [show k ≠ j by omega] using this

section Tree

variable {m k : ℕ} (hP : P = 2 ^ m)
include hP

theorem testBit_partner (hk : k < m) (r : Fin P) (j : ℕ) :
    (partner k r).val.testBit j = (r.val.testBit j ^^ decide (k = j)) := by
  rw [partner_val hP hk, Nat.testBit_xor, Nat.testBit_two_pow]

theorem sameBlock_succ_iff (hk : k < m) (r q : Fin P) :
    SameBlock (k + 1) r q ↔ SameBlock k r q ∨ SameBlock k (partner k r) q := by
  simp only [SameBlock, partner_val hP hk]
  exact agree_succ_iff k r q

theorem not_sameBlock_partner (hk : k < m) {r q : Fin P} (h : SameBlock k r q) :
    ¬ SameBlock k (partner k r) q := by
  intro h'
  have h1 := h k le_rfl
  have h2 := h' k le_rfl
  rw [testBit_partner hP hk, ← h1] at h2
  simp at h2

theorem filter_sameBlock_succ (hk : k < m) (r : Fin P) :
    Finset.univ.filter (SameBlock (k + 1) r) =
      Finset.univ.filter (SameBlock k r) ∪ Finset.univ.filter (SameBlock k (partner k r)) := by
  ext q
  simp [sameBlock_succ_iff hP hk]

theorem disjoint_sameBlock (hk : k < m) (r : Fin P) :
    Disjoint (Finset.univ.filter (SameBlock k r))
      (Finset.univ.filter (SameBlock k (partner k r))) := by
  rw [Finset.disjoint_filter]
  exact fun q _ h => not_sameBlock_partner hP hk h

theorem sameBlock_top (r q : Fin P) : SameBlock m r q := by
  intro j hj
  have hlt : ∀ u : Fin P, u.val.testBit j = false := fun u =>
    Nat.testBit_lt_two_pow (u.isLt.trans_le (hP ▸ Nat.pow_le_pow_right (by omega) hj))
  rw [hlt, hlt]

omit hP in
theorem sameBlock_zero_iff {r q : Fin P} : SameBlock 0 r q ↔ r = q := by
  refine ⟨fun h => Fin.ext (Nat.eq_of_testBit_eq fun j => h j (by omega)), ?_⟩
  rintro rfl j -
  rfl

theorem SameBlock.partner {r q : Fin P} (hk : k < m) (h : SameBlock k r q) :
    SameBlock k (partner k r) (MicroCcl.partner k q) := by
  intro j hj
  rw [testBit_partner hP hk, testBit_partner hP hk, h j hj]

theorem xorTree_eq_of_sameBlock {f : α → α → α} {x : Fin P → α} (hf : MeetAlike f x m)
    (hk : k ≤ m) {r q : Fin P} (h : SameBlock k r q) : xorTree f x k r = xorTree f x k q := by
  induction k generalizing r q with
  | zero => rw [sameBlock_zero_iff.mp h]
  | succ k ih =>
    have hkm : k < m := by omega
    -- in one half both trees have the same parts, across the halves they have them swapped
    rcases (sameBlock_succ_iff hP hkm r q).mp h with hsame | hopp
    · rw [xorTree, xorTree, ih hkm.le hsame, ih hkm.le (hsame.partner hP hkm)]
    · have hback := hopp.partner hP hkm
      rw [partner_partner hP hkm] at hback
      rw [xorTree, xorTree, ← ih hkm.le hopp, ← ih hkm.le hback, hf k hkm]

theorem coe_xorTree {α : Type} [CommSemigroup α] (x : Fin P → α) (hk : k ≤ m) (r : Fin P) :
    ((xorTree (fun u v : α => u * v) x k r : α) : WithOne α) =
      ∏ q ∈ Finset.univ.filter (SameBlock k r), (x q : WithOne α) := by
  induction k generalizing r with
  | zero =>
    simp only [xorTree, sameBlock_zero_iff]
    rw [Finset.filter_eq, if_pos (Finset.mem_univ r), Finset.prod_singleton]
  | succ k ih =>
    have hkm : k < m := by omega
    rw [xorTree, WithOne.coe_mul, ih hkm.le, ih hkm.le, filter_sameBlock_succ hP hkm,
      Finset.prod_union (disjoint_sameBlock hP hkm r)]

omit hP in
theorem coe_foldl_mul {α : Type} [CommSemigroup α] (x : Fin P → α) (qs : List (Fin P)) (y : α) :
    ((qs.foldl (fun u q => u * x q) y : α) : WithOne α) =
      y * (qs.map fun q => (x q : WithOne α)).prod := by
  induction qs generalizing y with
  | nil => simp
  | cons q qs ih =>
    rw [List.foldl_cons, ih, WithOne.coe_mul, List.map_cons, List.prod_cons, mul_assoc]

theorem xorTree_eq_foldl {f : α → α → α} (hcomm : ∀ u v, f u v = f v u)
    (hassoc : ∀ u v w, f (f u v) w = f u (f v w)) (x : Fin P → α) (r : Fin P) {q : Fin P}
    {qs : List (Fin P)} (hqs : (q :: qs).Perm (List.finRange P)) :
    xorTree f x m r = qs.foldl (fun u q => f u (x q)) (x q) := by
  -- products over blocks need a unit, which `WithOne` adds
  let _ : CommSemigroup α := { mul := f, mul_assoc := hassoc, mul_comm := hcomm }
  apply WithOne.coe_injective
  calc ((xorTree f x m r : α) : WithOne α)
      = ∏ q, (x q : WithOne α) := by
        apply (coe_xorTree hP x le_rfl r).trans
        rw [Finset.filter_true_of_mem fun q _ => sameBlock_top hP r q]
    _ = ((q :: qs).map fun q => (x q : WithOne α)).prod := by
        rw [(hqs.map _).prod_eq, ← List.ofFn_eq_map, List.prod_ofFn]
    _ = ((qs.foldl (fun u q => f u (x q)) (x q) : α) : WithOne α) := by
        rw [List.map_cons, List.prod_cons]
        exact (coe_foldl_mul x qs (x q)).symm

end Tree

section Agree

variable {a : Fin P → AllreduceArgs} {count : ℕ} {dtype : Dtype} {op : ReduceOp} {m : ℕ}
  (hP : P = 2 ^ m)
include hP

section Alike

variable (h : Alike a count dtype op)
include h

theorem doublingRound_paired (ops : Ops α) (call : ℕ) {step : ℕ} (hs : step < m) :
    (doublingRound (β := β) ops call a step).Paired where
  apart := by
    intro r y hy z hz
    obtain rfl := Option.some.inj hy
    obtain rfl := Option.some.inj hz
    exact Or.inl (h.apart r)
  send_recv := by
    intro i j wr hsend
    obtain ⟨rfl, rfl⟩ := Prod.mk.inj (Option.some.inj hsend)
    refine ⟨partner_ne hP hs i, _, by rw [doublingRound, partner_partner hP hs], ?_, rfl⟩
    simp only [workRequest, h.count_eq]
  recv_send := by
    intro i j v hrecv
    obtain ⟨rfl, rfl⟩ := Prod.mk.inj (Option.some.inj hrecv)
    exact ⟨_, by rw [doublingRound, partner_partner hP hs]⟩

theorem doublingRounds_paired (ops : Ops α) (call : ℕ) :
    ∀ G ∈ doublingRounds (β := β) ops call a m, G.Paired := by
  intro G hG
  obtain ⟨s, hs, rfl⟩ := List.mem_map.mp hG
  exact doublingRound_paired hP h ops call (List.mem_range.mp hs)

variable (hshort : 0 < m → count * 4 < 2 ^ 32)
include hshort

omit hP in
theorem doublingRound_expected (ops : Ops α) (call : ℕ) {step : ℕ} (hs : step < m) (r : Fin P) :
    ∀ z ∈ (doublingRound (β := β) ops call a step r).recv, z.2.expected = z.2.wr.length := by
  intro z hz
  obtain rfl := Option.some.inj hz
  simp only [workRequest, h.count_eq]
  exact (szMul_eq_mod_iff h.bytes_lt).mpr (hshort (by omega))

omit hP in
theorem doublingRound_store (ops : Ops α) (call : ℕ) {step : ℕ} (hs : step < m)
    (l : Fin P → Local α β) {r q : Fin P} {v : RecvPart α β}
    (hv : (doublingRound ops call a step r).recv = some (q, v)) (b : Buf) (i : ℕ) :
    (v.store (l r) ((doublingRound ops call a step).payload l q)).mem b i =
      if b = (a r).scratch ∧ i < count then
        (l (partner step r)).mem (a (partner step r)).data i
      else (l r).mem b i := by
  obtain ⟨rfl, rfl⟩ := Prod.mk.inj (Option.some.inj hv)
  rw [Round.payload_of_send _ rfl]
  simp only [RecvPart.store, h.count_eq, workRequest_move (szMul_mod_of_short (hshort (by omega))),
    Nat.zero_div, Nat.zero_add, Nat.sub_zero, Nat.zero_le, true_and]

omit hP in
theorem doublingRound_sync (ops : Ops α) (call : ℕ) {step : ℕ} (hs : step < m)
    (l : Fin P → Local α β) (r : Fin P) {b : Buf} (hb : b ≠ (a r).scratch) (i : ℕ) :
    ((doublingRound ops call a step).sync l r).mem b i =
      if b = (a r).data ∧ i < count then
        ops dtype op ((l r).mem b i) ((l (partner step r)).mem (a (partner step r)).data i)
      else (l r).mem b i := by
  have hstore := doublingRound_store h hshort ops call hs l (r := r) rfl
  rw [Round.sync_of_recv _ rfl, RecvPart.apply]
  simp only [AllreduceArgs.reduce, reduceInplace_apply ops (h.apart r), hstore, h.dtype_eq,
    h.op_eq, if_neg (fun h' : _ ∧ _ => h.apart r h'.1), if_neg (fun h' : _ ∧ _ => hb h'.1)]
  simp only [h.count_eq, Nat.zero_div, Nat.zero_add, Nat.sub_zero, Nat.zero_le, true_and]
  refine ite_congr rfl (fun h1 => ?_) fun _ => rfl
  obtain ⟨rfl, hi⟩ := h1
  rw [if_pos hi]

omit hP in
theorem xorTree_syncAll (ops : Ops α) (call : ℕ) (x : Fin P → Local α β) {t : ℕ} (ht : t ≤ m)
    (r : Fin P) {i : ℕ} (hi : i < count) :
    (syncAll (doublingRounds ops call a t) x r).mem (a r).data i =
      xorTree (ops dtype op) (fun q => (x q).mem (a q).data i) t r := by
  induction t generalizing r with
  | zero => rfl
  | succ t ih =>
    rw [doublingRounds, syncAll_range_succ,
      doublingRound_sync h hshort ops call (by omega) _ r (h.apart r), if_pos ⟨rfl, hi⟩]
    exact congrArg₂ _ (ih (by omega) r) (ih (by omega) (partner t r))

end Alike

variable (h : Ready a count dtype op count)
include h

theorem Ready.doubling_short (hm : 0 < m) : count * 4 < 2 ^ 32 := by
  have h1 : P ≠ 1 := by
    have := Nat.one_lt_two_pow hm.ne'
    omega
  exact h.short.resolve_left h1

theorem doublingRounds_data (ops : Ops α) (call : ℕ) (x : Fin P → Local α β) {t : ℕ} (ht : t ≤ m)
    (r : Fin P) {i : ℕ} (hi : i < count) :
    (syncAll (doublingRounds ops call a t) x r).mem (a r).data i =
      xorTree (ops dtype op) (fun q => (x q).mem (a q).data i) t r :=
  xorTree_syncAll (h.alike r) (h.doubling_short hP) ops call x ht r hi

theorem doublingRounds_frame (ops : Ops α) (call : ℕ) (x : Fin P → Local α β) (r : Fin P) {b : Buf}
    {i : ℕ} (hb : b ≠ (a r).scratch) (hi : b = (a r).data → count ≤ i) :
    (syncAll (doublingRounds ops call a m) x r).mem b i = (x r).mem b i := by
  refine syncAll_frame (fun l => l.mem b i) (fun G hG l => ?_) x
  obtain ⟨s, hs, rfl⟩ := List.mem_map.mp hG
  refine (doublingRound_sync (h.alike r) (h.doubling_short hP) ops call (List.mem_range.mp hs) l r
    hb i).trans (if_neg ?_)
  rintro ⟨hd, hlt⟩
  exact absurd (hi hd) (by omega)

theorem doublingRounds_matched (ops : Ops α) (call : ℕ) :
    ∀ G ∈ doublingRounds (β := β) ops call a m, G.Matched := by
  intro G hG
  have halike := h.alike ⟨0, hP ▸ Nat.two_pow_pos m⟩
  refine (doublingRounds_paired hP halike ops call G hG).matched ?_
  obtain ⟨s, hs, rfl⟩ := List.mem_map.mp hG
  exact doublingRound_expected halike (h.doubling_short hP) ops call (List.mem_range.mp hs)

theorem Ready.allreduceRecursiveDoubling_eq (ops : Ops α) (call : ℕ) (r : Fin P) :
    allreduceRecursiveDoubling ops r call (a r) =
      roundsProc (doublingRounds (β := β) ops call a m) r := by
  refine MicroCcl.allreduceRecursiveDoubling_eq hP ops call a r ?_ ?_
  · rw [h.count_eq]
    exact h.fits r
  · rw [h.count_eq]
    exact h.scratch r

theorem allreduceRecursiveDoubling_leads {cap : Fin P → Fin P → ℕ} (ops : Ops α) (call : ℕ)
    {A : Type} (k : Fin P → Proc P α β A) (x : Fin P → Local α β) :
    Leads cap (fun r => allreduceRecursiveDoubling ops r call (a r) >>= fun _ => k r) x k
      (syncAll (doublingRounds ops call a m) x) := by
  simp only [h.allreduceRecursiveDoubling_eq hP]
  exact rounds_leads (doublingRounds_matched hP h ops call) k x

theorem allreduceRecursiveDoubling_disciplined (ops : Ops α) (call : ℕ) (r : Fin P) :
    Disciplined none none (allreduceRecursiveDoubling (β := β) ops r call (a r)) := by
  rw [h.allreduceRecursiveDoubling_eq hP]
  exact rounds_disciplined (fun G hG => (doublingRounds_matched hP h ops call G hG).apart) r

end Agree

theorem doublingRounds_vars (ops : Ops α) (call : ℕ) (a : Fin P → AllreduceArgs) (m : ℕ)
    (x : Fin P → Local α β) (r : Fin P) :
    (syncAll (doublingRounds ops call a m) x r).vars = (x r).vars := by
  refine syncAll_frame Local.vars (fun G hG l => Round.sync_vars G ?_ l) x
  intro z hz f hf l
  obtain ⟨s, -, rfl⟩ := List.mem_map.mp hG
  obtain rfl := Option.some.inj hz
  obtain rfl := Option.some.inj hf
  rfl

variable {a : Fin P → AllreduceArgs} {count : ℕ} {dtype : Dtype} {op : ReduceOp} {m : ℕ}

section Runs

variable (cap : Fin P → Fin P → ℕ) (hP : P = 2 ^ m) (ops : Ops α) (call : ℕ)
  (h : Ready a count dtype op count) (x : Fin P → Local α β) {s : Fin P → RankState P α β Unit}
  (hs : Reaches (fabric P α β Unit cap)
    (start (fun r => allreduceRecursiveDoubling ops r call (a r)) x) s)
include hP h

theorem allreduceRecursiveDoubling_returns : Leads cap
    (fun r => allreduceRecursiveDoubling ops r call (a r)) x (fun _ => .pure ())
      (syncAll (doublingRounds ops call a m) x) := by
  simpa only [Proc.bind_unit] using
    allreduceRecursiveDoubling_leads hP h ops call (fun _ => .pure ()) x

include hs

theorem allreduceRecursiveDoubling_settles :
    ∃ e, Reaches (fabric P α β Unit cap) s e ∧ ∀ r, (e r).proc = .pure () := by
  obtain ⟨e, he, hq⟩ := (allreduceRecursiveDoubling_returns cap hP ops call h x).settles
    (fun r => allreduceRecursiveDoubling_disciplined hP h ops call r) hs
  exact ⟨e, he, fun r => (hq r).proc⟩

theorem allreduceRecursiveDoubling_value {r : Fin P} (hr : (s r).proc = .pure ()) {i : ℕ}
    (hi : i < count) : (s r).loc.mem (a r).data i =
      xorTree (ops dtype op) (fun q => (x q).mem (a q).data i) m r := by
  have hres := (allreduceRecursiveDoubling_returns cap hP ops call h x).result
    (fun r => allreduceRecursiveDoubling_disciplined hP h ops call r) hs hr
  rw [hres.2, doublingRounds_data hP h ops call x le_rfl r hi]

end Runs

/-- In every run of `allreduce_recursive_doubling` no rank throws, and a rank that has
returned holds its tree. A commutative operation makes the trees of all ranks equal, and
an associative one makes them the fold over all ranks in any order. From every reachable
state all ranks can still return. -/
theorem allreduceRecursiveDoubling_correct (cap : Fin P → Fin P → ℕ) (hP : P = 2 ^ m)
    (ops : Ops α) (call : ℕ) (h : Ready a count dtype op count) (x : Fin P → Local α β)
    {s : Fin P → RankState P α β Unit}
    (hs : Reaches (fabric P α β Unit cap)
      (start (fun r => allreduceRecursiveDoubling ops r call (a r)) x) s) :
    (∀ r, (s r).proc = .pure () → ∀ i < count, (s r).loc.mem (a r).data i =
      xorTree (ops dtype op) (fun q => (x q).mem (a q).data i) m r) ∧
    ((∀ u v, ops dtype op u v = ops dtype op v u) → ∀ r q i,
      xorTree (ops dtype op) (fun q => (x q).mem (a q).data i) m r =
        xorTree (ops dtype op) (fun q => (x q).mem (a q).data i) m q) ∧
    ((∀ u v, ops dtype op u v = ops dtype op v u) →
      (∀ u v w, ops dtype op (ops dtype op u v) w = ops dtype op u (ops dtype op v w)) →
      ∀ q qs, (q :: qs).Perm (List.finRange P) → ∀ r i,
        xorTree (ops dtype op) (fun q => (x q).mem (a q).data i) m r =
          qs.foldl (fun u p => ops dtype op u ((x p).mem (a p).data i)) ((x q).mem (a q).data i)) ∧
    (∀ r e, (s r).proc ≠ .throw e) ∧
    ∃ e, Reaches (fabric P α β Unit cap) s e ∧ ∀ r, (e r).proc = .pure () := by
  refine ⟨fun r hr i hi => allreduceRecursiveDoubling_value cap hP ops call h x hs hr hi,
    fun hcomm r q i => ?_, fun hcomm hassoc q qs hqs r i => ?_,
    (allreduceRecursiveDoubling_returns cap hP ops call h x).never_throws
      (fun r => allreduceRecursiveDoubling_disciplined hP h ops call r) hs,
    allreduceRecursiveDoubling_settles cap hP ops call h x hs⟩
  · exact xorTree_eq_of_sameBlock hP (fun _ _ _ => hcomm _ _) le_rfl (sameBlock_top hP r q)
  · exact xorTree_eq_foldl hP hcomm hassoc _ r hqs

/-- Four ranks add one element each. -/
theorem allreduceRecursiveDoubling_correct_four_ranks :
    ∃ s, Reaches (fabric 4 ℕ Unit Unit fun _ _ => 1)
      (start (fun r => allreduceRecursiveDoubling (fun _ _ u v => u + v) r 0
        ⟨⟨0, 4⟩, 0, 1, .int32, .sum, ⟨1, 4⟩, 1, 1⟩) fun r => ⟨fun _ _ => 10 ^ r.val, ()⟩) s ∧
      ∀ r, (s r).proc = .pure () ∧ (s r).loc.mem 0 0 = 1111 := by
  have hready : Ready (P := 4) (fun _ => ⟨⟨0, 4⟩, 0, 1, .int32, .sum, ⟨1, 4⟩, 1, 1⟩) 1 .int32 .sum
      1 := by
    constructor <;> decide
  have hall := fun s => allreduceRecursiveDoubling_correct (m := 2) (s := s) (fun _ _ => 1) rfl
    (fun _ _ u v => u + v) 0 hready fun r => ⟨fun _ _ => 10 ^ r.val, ()⟩
  obtain ⟨s, hs, hret⟩ := (hall _ .refl).2.2.2.2
  refine ⟨s, hs, fun r => ⟨hret r, ?_⟩⟩
  rw [(hall s hs).1 r (hret r) 0 (by decide)]
  exact (hall s hs).2.2.1 Nat.add_comm Nat.add_assoc 0 [1, 2, 3] (by decide) r 0

end MicroCcl

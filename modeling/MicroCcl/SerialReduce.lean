import MicroCcl.MinMax
import MicroCcl.Truncation
import Mathlib.Algebra.BigOperators.Fin
import Mathlib.Order.Bounds.Basic

namespace MicroCcl
open Network

variable {P : ℕ} {α β : Type}

section Folds

variable {f : α → α → α} (hcomm : ∀ u v, f u v = f v u)
include hcomm

theorem ringFold_eq_foldl (x : Fin P → α) (c : Fin P) (j : ℕ) :
    ringFold f x c j = ((List.range j).map fun k =>
      (⟨(c + (k + 1)) % P, Nat.mod_lt _ c.pos⟩ : Fin P)).foldl (fun u q => f u (x q)) (x c) := by
  induction j with
  | zero => rfl
  | succ j ih =>
    rw [ringFold, ih, List.range_succ, List.map_append, List.foldl_append, hcomm]
    rfl

variable (hassoc : ∀ u v w, f (f u v) w = f u (f v w))
include hassoc

theorem foldl_eq_of_perm (x : Fin P → α) {q p : Fin P} {qs ps : List (Fin P)}
    (h : (q :: qs).Perm (p :: ps)) :
    qs.foldl (fun u r => f u (x r)) (x q) = ps.foldl (fun u r => f u (x r)) (x p) := by
  let _ : CommSemigroup α := { mul := f, mul_assoc := hassoc, mul_comm := hcomm }
  apply WithOne.coe_injective
  apply (coe_foldl_mul x qs (x q)).trans
  apply Eq.trans _ (coe_foldl_mul x ps (x p)).symm
  rw [← List.prod_cons, ← List.prod_cons]
  exact (h.map fun r => (x r : WithOne α)).prod_eq

omit hcomm hassoc in
/-- Going around the ring from `c` meets every rank once. -/
theorem ring_perm (c : Fin P) : (c :: (List.range (P - 1)).map fun k =>
    (⟨(c + (k + 1)) % P, Nat.mod_lt _ c.pos⟩ : Fin P)).Perm (List.finRange P) := by
  have hP := c.pos
  have hrange : (c :: (List.range (P - 1)).map fun k =>
      (⟨(c + (k + 1)) % P, Nat.mod_lt _ c.pos⟩ : Fin P)) =
      (List.range P).map fun k => ⟨(c + k) % P, Nat.mod_lt _ c.pos⟩ := by
    obtain ⟨n, rfl⟩ : ∃ n, P = n + 1 := ⟨P - 1, by omega⟩
    rw [List.range_succ_eq_map, List.map_cons, List.map_map]
    congr 1
    exact Fin.ext (Nat.mod_eq_of_lt c.isLt).symm
  rw [hrange, List.perm_ext_iff_of_nodup _ (List.nodup_finRange P)]
  · intro q
    simp only [List.mem_finRange, iff_true, List.mem_map, List.mem_range]
    exact ⟨back P q c, back_lt q c, Fin.ext (add_back_mod q c)⟩
  · apply List.Nodup.map_on _ List.nodup_range
    intro i hi j hj he
    have hi := List.mem_range.mp hi
    have hj := List.mem_range.mp hj
    have he : (c + i) % P = (c + j) % P := congrArg Fin.val he
    have hij : i % P = j % P := Nat.ModEq.add_left_cancel' c.val he
    rwa [Nat.mod_eq_of_lt hi, Nat.mod_eq_of_lt hj] at hij

theorem ringFold_eq_foldl_of_perm (x : Fin P → α) (c : Fin P) {q : Fin P} {qs : List (Fin P)}
    (hqs : (q :: qs).Perm (List.finRange P)) :
    ringFold f x c (P - 1) = qs.foldl (fun u q => f u (x q)) (x q) := by
  rw [ringFold_eq_foldl hcomm]
  exact foldl_eq_of_perm hcomm hassoc x ((ring_perm c).trans hqs.symm)

end Folds

/-- Elements as bits: `int32_t` wraps modulo 2^32, how floats add is left open. -/
def machine (fadd : BitVec 32 → BitVec 32 → BitVec 32) : Scalar (BitVec 32) :=
  bits fun dtype u v => match dtype with
    | .float32 => fadd u v
    | .int32 => u + v

/-- `y` is the result of reducing `v` over all ranks: the exact sum reduced to 32 bits, the
least or the greatest value. -/
def SerialValue (op : ReduceOp) (v : Fin P → BitVec 32) (y : BitVec 32) : Prop :=
  match op with
  | .sum => y = BitVec.ofInt 32 (∑ q, (v q).toInt)
  | .min => IsLeast (Set.range fun q => (v q).toInt) y.toInt
  | .max => IsGreatest (Set.range fun q => (v q).toInt) y.toInt

theorem SerialValue.unique {op : ReduceOp} {v : Fin P → BitVec 32} {y z : BitVec 32}
    (hy : SerialValue op v y) (hz : SerialValue op v z) : y = z := by
  cases op with
  | sum => exact hy.trans hz.symm
  | min => exact BitVec.eq_of_toInt_eq (IsLeast.unique hy hz)
  | max => exact BitVec.eq_of_toInt_eq (IsGreatest.unique hy hz)

section Combine

variable (fadd : BitVec 32 → BitVec 32 → BitVec 32) (u v w : BitVec 32)

theorem toInt_min : ((machine fadd).combine .int32 .min u v).toInt = min u.toInt v.toInt := by
  simp only [Scalar.combine, stdMin, machine, bits, orderKey, keyLt, decide_eq_true_eq]
  split_ifs with h
  · exact (min_eq_right h.le).symm
  · exact (min_eq_left (not_lt.mp h)).symm

theorem toInt_max : ((machine fadd).combine .int32 .max u v).toInt = max u.toInt v.toInt := by
  simp only [Scalar.combine, stdMax, machine, bits, orderKey, keyLt, decide_eq_true_eq]
  split_ifs with h
  · exact (max_eq_right h.le).symm
  · exact (max_eq_left (not_lt.mp h)).symm

theorem int32_comm (op : ReduceOp) :
    (machine fadd).combine .int32 op u v = (machine fadd).combine .int32 op v u := by
  cases op with
  | sum => exact BitVec.add_comm u v
  | min =>
    apply BitVec.eq_of_toInt_eq
    rw [toInt_min, toInt_min, min_comm]
  | max =>
    apply BitVec.eq_of_toInt_eq
    rw [toInt_max, toInt_max, max_comm]

theorem int32_assoc (op : ReduceOp) :
    (machine fadd).combine .int32 op ((machine fadd).combine .int32 op u v) w =
      (machine fadd).combine .int32 op u ((machine fadd).combine .int32 op v w) := by
  cases op with
  | sum => exact BitVec.add_assoc u v w
  | min =>
    apply BitVec.eq_of_toInt_eq
    rw [toInt_min, toInt_min, toInt_min, toInt_min, min_assoc]
  | max =>
    apply BitVec.eq_of_toInt_eq
    rw [toInt_max, toInt_max, toInt_max, toInt_max, max_assoc]

end Combine

section Serial

variable (fadd : BitVec 32 → BitVec 32 → BitVec 32) (v : Fin P → BitVec 32)

theorem foldl_sum (qs : List (Fin P)) (y : BitVec 32) :
    qs.foldl (fun u q => (machine fadd).combine .int32 .sum u (v q)) y =
      BitVec.ofInt 32 (y.toInt + (qs.map fun q => (v q).toInt).sum) := by
  induction qs generalizing y with
  | nil => simp
  | cons q qs ih =>
    rw [List.foldl_cons, ih, List.map_cons, List.sum_cons, ← add_assoc, BitVec.ofInt_add,
      BitVec.ofInt_add, BitVec.ofInt_add, BitVec.ofInt_toInt, BitVec.ofInt_toInt,
      BitVec.ofInt_toInt]
    rfl

/-- A fold that keeps the better of two values keeps the best of all. -/
theorem foldl_best {f : BitVec 32 → BitVec 32 → BitVec 32} (le : ℤ → ℤ → Prop)
    (hle : ∀ u w, le (f u w).toInt u.toInt ∧ le (f u w).toInt w.toInt)
    (hmem : ∀ u w, (f u w).toInt = u.toInt ∨ (f u w).toInt = w.toInt) (hrefl : ∀ n, le n n)
    (htrans : ∀ i j k, le i j → le j k → le i k) (qs : List (Fin P)) (q : Fin P) :
    (qs.foldl (fun u p => f u (v p)) (v q)).toInt ∈ (q :: qs).map (fun p => (v p).toInt) ∧
      ∀ p ∈ q :: qs, le (qs.foldl (fun u p => f u (v p)) (v q)).toInt (v p).toInt := by
  induction qs using List.reverseRecOn with
  | nil => simp [hrefl]
  | append_singleton qs p ih =>
    rw [List.foldl_append, List.foldl_cons, List.foldl_nil]
    set y := qs.foldl (fun u p => f u (v p)) (v q)
    constructor
    · rcases hmem y (v p) with h | h
      · rw [h]
        have := ih.1
        simp only [List.map_cons, List.map_append, List.mem_cons, List.mem_append] at this ⊢
        tauto
      · rw [h]
        simp
    · intro p' hp'
      rw [← List.cons_append, List.mem_append, List.mem_singleton] at hp'
      rcases hp' with hp' | rfl
      · exact htrans _ _ _ (hle y (v p)).1 (ih.2 p' hp')
      · exact (hle y (v p')).2

theorem serialValue_foldl (op : ReduceOp) {q : Fin P} {qs : List (Fin P)}
    (hqs : (q :: qs).Perm (List.finRange P)) :
    SerialValue op v (qs.foldl (fun u p => (machine fadd).combine .int32 op u (v p)) (v q)) := by
  have hall : ∀ p, p ∈ q :: qs := fun p => hqs.mem_iff.mpr (List.mem_finRange p)
  cases op with
  | sum =>
    rw [SerialValue, foldl_sum]
    congr 1
    rw [← List.sum_cons, ← List.map_cons (f := fun q => (v q).toInt), (hqs.map _).sum_eq,
      ← List.ofFn_eq_map, List.sum_ofFn]
  | min =>
    have hbest := foldl_best v (f := (machine fadd).combine .int32 .min) (· ≤ ·)
      (fun u w => by rw [toInt_min]; exact ⟨min_le_left _ _, min_le_right _ _⟩)
      (fun u w => by rw [toInt_min]; exact min_choice _ _) le_refl
      (fun _ _ _ => le_trans) qs q
    obtain ⟨p, -, hp⟩ := List.mem_map.mp hbest.1
    refine ⟨⟨p, hp⟩, ?_⟩
    rintro n ⟨p, rfl⟩
    exact hbest.2 p (hall p)
  | max =>
    have hbest := foldl_best v (f := (machine fadd).combine .int32 .max) (· ≥ ·)
      (fun u w => by rw [toInt_max]; exact ⟨le_max_left _ _, le_max_right _ _⟩)
      (fun u w => by rw [toInt_max]; exact max_choice _ _) le_refl
      (fun _ _ _ hij hjk => hjk.trans hij) qs q
    obtain ⟨p, -, hp⟩ := List.mem_map.mp hbest.1
    refine ⟨⟨p, hp⟩, ?_⟩
    rintro n ⟨p, rfl⟩
    exact hbest.2 p (hall p)

theorem exists_perm_finRange (hP : 0 < P) :
    ∃ (q : Fin P) (qs : List (Fin P)), (q :: qs).Perm (List.finRange P) :=
  ⟨⟨0, hP⟩, _, ring_perm ⟨0, hP⟩⟩

theorem serialValue_ringFold (op : ReduceOp) (c : Fin P) :
    SerialValue op v (ringFold ((machine fadd).combine .int32 op) v c (P - 1)) := by
  obtain ⟨q, qs, hqs⟩ := exists_perm_finRange c.pos
  rw [ringFold_eq_foldl_of_perm (fun u w => int32_comm fadd u w op)
    (fun u w z => int32_assoc fadd u w z op) v c hqs]
  exact serialValue_foldl fadd v op hqs

theorem serialValue_xorTree {m : ℕ} (hP : P = 2 ^ m) (op : ReduceOp) (r : Fin P) :
    SerialValue op v (xorTree ((machine fadd).combine .int32 op) v m r) := by
  obtain ⟨q, qs, hqs⟩ := exists_perm_finRange r.pos
  rw [xorTree_eq_foldl hP (fun u w => int32_comm fadd u w op)
    (fun u w z => int32_assoc fadd u w z op) v r hqs]
  exact serialValue_foldl fadd v op hqs

end Serial

section Runs

variable {cap : Fin P → Fin P → ℕ} {fadd : BitVec 32 → BitVec 32 → BitVec 32} {call count : ℕ}
  {op : ReduceOp} {a : Fin P → AllreduceArgs} {x : Fin P → Local (BitVec 32) β}
  {s : Fin P → RankState P (BitVec 32) β Unit}

theorem allreduceRing_serial (hP : 2 ≤ P) (h : Agreed a count .int32 op ((count + P - 1) / P))
    (hs : Reaches (fabric P (BitVec 32) β Unit cap)
      (start (fun r => allreduceRing (machine fadd).combine r call (a r)) x) s)
    {r : Fin P} (hr : (s r).proc = .pure ()) {i : ℕ} (hi : i < count) :
    SerialValue op (fun q => (x q).mem (a q).data i) ((s r).loc.mem (a r).data i) := by
  have hready := h.ready (allreduceRing_short hP h hs hr)
  obtain ⟨c, hc, hin⟩ := exists_inChunk hi (show 0 < P by omega)
  rw [allreduceRing_value cap _ call hready x hs hr ⟨c, hc⟩ hin]
  exact serialValue_ringFold fadd _ op ⟨c, hc⟩

theorem allreduceRecursiveDoubling_serial (hP : 2 ≤ P) (h : Agreed a count .int32 op count)
    (hs : Reaches (fabric P (BitVec 32) β Unit cap)
      (start (fun r => allreduceRecursiveDoubling (machine fadd).combine r call (a r)) x) s)
    {r : Fin P} (hr : (s r).proc = .pure ()) {i : ℕ} (hi : i < count) :
    SerialValue op (fun q => (x q).mem (a q).data i) ((s r).loc.mem (a r).data i) := by
  obtain ⟨⟨m, hm⟩, hshort⟩ := allreduceRecursiveDoubling_short hP h hs hr
  rw [allreduceRecursiveDoubling_value cap hm _ call (h.ready hshort) x hs hr hi]
  exact serialValue_xorTree fadd _ hm op r

end Runs

/-- On `int32` buffers a rank that returns from `allreduce_ring` holds the serial result, for any
number of ranks. With a power of two, a rank that returns from `allreduce_recursive_doubling` on the
same inputs holds it too, so the two agree. All ranks can return in both whenever the messages have
less than 2^32 bytes. -/
theorem int32_allreduces_agree (cap : Fin P → Fin P → ℕ) (hP : 2 ≤ P)
    (fadd : BitVec 32 → BitVec 32 → BitVec 32) (call : ℕ) {count : ℕ} {op : ReduceOp}
    {a : Fin P → AllreduceArgs} (h : Agreed a count .int32 op ((count + P - 1) / P))
    (x : Fin P → Local (BitVec 32) β) {s : Fin P → RankState P (BitVec 32) β Unit}
    (hs : Reaches (fabric P (BitVec 32) β Unit cap)
      (start (fun r => allreduceRing (machine fadd).combine r call (a r)) x) s) :
    (∀ r, (s r).proc = .pure () → ∀ i < count,
      SerialValue op (fun q => (x q).mem (a q).data i) ((s r).loc.mem (a r).data i)) ∧
    ((count + P - 1) / P * 4 < 2 ^ 32 →
      ∃ e, Reaches (fabric P (BitVec 32) β Unit cap) s e ∧ ∀ r, (e r).proc = .pure ()) ∧
    ∀ m, P = 2 ^ m → ∀ (a' : Fin P → AllreduceArgs) (x' : Fin P → Local (BitVec 32) β),
      Agreed a' count .int32 op count →
      (∀ q, ∀ i < count, (x' q).mem (a' q).data i = (x q).mem (a q).data i) →
      ∀ s', Reaches (fabric P (BitVec 32) β Unit cap)
          (start (fun r => allreduceRecursiveDoubling (machine fadd).combine r call (a' r)) x') s' →
        (∀ r', (s' r').proc = .pure () → ∀ i < count,
          SerialValue op (fun q => (x q).mem (a q).data i) ((s' r').loc.mem (a' r').data i)) ∧
        (∀ r r', (s r).proc = .pure () → (s' r').proc = .pure () → ∀ i < count,
          (s r).loc.mem (a r).data i = (s' r').loc.mem (a' r').data i) ∧
        (count * 4 < 2 ^ 32 →
          ∃ e, Reaches (fabric P (BitVec 32) β Unit cap) s' e ∧ ∀ r, (e r).proc = .pure ()) := by
  refine ⟨fun r hr i hi => allreduceRing_serial hP h hs hr hi, fun hshort =>
    allreduceRing_settles cap _ call (h.ready hshort) x hs, ?_⟩
  intro m hm a' x' h' hin s' hs'
  have hserial : ∀ r', (s' r').proc = .pure () → ∀ i < count,
      SerialValue op (fun q => (x q).mem (a q).data i) ((s' r').loc.mem (a' r').data i) := by
    intro r' hr' i hi
    rw [← funext fun q => hin q i hi]
    exact allreduceRecursiveDoubling_serial hP h' hs' hr' hi
  refine ⟨hserial, fun r r' hr hr' i hi => ?_, fun hshort =>
    allreduceRecursiveDoubling_settles cap hm _ call (h'.ready hshort) x' hs'⟩
  exact (allreduceRing_serial hP h hs hr hi).unique (hserial r' hr' i hi)

/-- The arguments for one sum of two elements. -/
def sumTwo : AllreduceArgs := ⟨⟨0, 8⟩, 0, 2, .int32, .sum, ⟨1, 8⟩, 1, 2⟩

/-- Two ranks add 2^31 - 1 and 1, and both algorithms give -2^31. -/
theorem int32_allreduces_agree_wrapping :
    ∃ s s' : Fin 2 → RankState 2 (BitVec 32) Unit Unit,
      Reaches (fabric 2 (BitVec 32) Unit Unit fun _ _ => 1)
        (start (fun r => allreduceRing (machine fun u _ => u).combine r 0 sumTwo)
          ![⟨fun _ _ => 0x7fffffff, ()⟩, ⟨fun _ _ => 1, ()⟩]) s ∧
      Reaches (fabric 2 (BitVec 32) Unit Unit fun _ _ => 1)
        (start (fun r => allreduceRecursiveDoubling (machine fun u _ => u).combine r 0 sumTwo)
          ![⟨fun _ _ => 0x7fffffff, ()⟩, ⟨fun _ _ => 1, ()⟩]) s' ∧
      (s 0).loc.mem 0 1 = 0x80000000 ∧ (s' 1).loc.mem 0 1 = 0x80000000 := by
  have hring : Agreed (P := 2) (fun _ => sumTwo) 2 .int32 .sum ((2 + 2 - 1) / 2) := by
    constructor <;> decide
  have hdouble : Agreed (P := 2) (fun _ => sumTwo) 2 .int32 .sum 2 := by
    constructor <;> decide
  have hall := fun s => int32_allreduces_agree (s := s) (fun _ _ => 1) le_rfl (fun u _ => u) 0 hring
    ![⟨fun _ _ => 0x7fffffff, ()⟩, ⟨fun _ _ => 1, ()⟩]
  obtain ⟨s, hs, hret⟩ := (hall _ .refl).2.1 (by decide)
  have hall' := fun s' => (hall s hs).2.2 1 rfl (fun _ => sumTwo) _ hdouble (fun _ _ _ => rfl) s'
  obtain ⟨s', hs', hret'⟩ := (hall' _ .refl).2.2 (by decide)
  refine ⟨s, s', hs, hs', ?_, ?_⟩
  · exact (hall s hs).1 0 (hret 0) 1 (by decide)
  · exact (hall' s' hs').1 1 (hret' 1) 1 (by decide)

end MicroCcl

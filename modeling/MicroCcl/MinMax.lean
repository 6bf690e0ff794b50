import MicroCcl.RecursiveDoubling
import Mathlib.Data.Finset.Max

namespace MicroCcl
open Network

/-- The place of a bit pattern in the order of its type. Only a NaN has none; the
two zeros have the same. -/
def orderKey : Dtype → BitVec 32 → Option ℤ
  | .int32, b => some b.toInt
  | .float32, b =>
    let magnitude : ℤ := (b &&& 0x7fffffff#32).toNat
    if 0x7f800000 < magnitude then none else some (if b.msb then -magnitude else magnitude)

def keyLt : Option ℤ → Option ℤ → Bool
  | some u, some v => u < v
  | _, _ => false

def bits (add : Dtype → BitVec 32 → BitVec 32 → BitVec 32) : Scalar (BitVec 32) where
  add := add
  lt dtype u v := keyLt (orderKey dtype u) (orderKey dtype v)

/-- Whether `op` puts `u` in the place of `v`. -/
def Scalar.beats {α : Type} (S : Scalar α) (dtype : Dtype) : ReduceOp → α → α → Bool
  | .max, u, v => S.lt dtype v u
  | _, u, v => S.lt dtype u v

/-- The key by which `op` prefers the least. -/
def opKey (dtype : Dtype) (op : ReduceOp) (b : BitVec 32) : Option ℤ :=
  match op with
  | .max => (orderKey dtype b).map fun k => -k
  | _ => orderKey dtype b

theorem bits_beats (add : Dtype → BitVec 32 → BitVec 32 → BitVec 32) (dtype : Dtype)
    (op : ReduceOp) (u v : BitVec 32) :
    (bits add).beats dtype op u v = keyLt (opKey dtype op u) (opKey dtype op v) := by
  cases op with
  | max =>
    simp only [Scalar.beats, bits, opKey]
    cases orderKey dtype u <;> cases orderKey dtype v <;> simp [keyLt]
  | _ => rfl

theorem bits_combine (add : Dtype → BitVec 32 → BitVec 32 → BitVec 32) (dtype : Dtype)
    {op : ReduceOp} (hop : op ≠ .sum) (u v : BitVec 32) :
    (bits add).combine dtype op u v =
      if keyLt (opKey dtype op v) (opKey dtype op u) then v else u := by
  rw [← bits_beats add]
  cases op with
  | sum => exact absurd rfl hop
  | _ => rfl

section Choose

variable {P m k : ℕ} {α : Type} {key : α → Option ℤ} {f : α → α → α} {x : Fin P → α}

/-- No rank has a value that would replace that of rank `r`. -/
def Unbeaten (key : α → Option ℤ) (x : Fin P → α) (r : Fin P) : Prop :=
  ∀ q, keyLt (key (x q)) (key (x r)) = false

theorem unbeaten_of_none {u : Fin P} (hu : key (x u) = none) : Unbeaten key x u := by
  intro v
  rw [hu]
  cases key (x v) <;> rfl

theorem exists_unbeaten {u : Fin P} (hu : key (x u) ≠ none) :
    ∃ v, key (x v) ≠ none ∧ Unbeaten key x v := by
  let S := Finset.univ.filter fun u => (key (x u)).isSome
  have hS : S.Nonempty := ⟨u, by simpa [S] using Option.isSome_iff_ne_none.mpr hu⟩
  obtain ⟨v, hv, hmin⟩ := S.exists_min_image (fun u => (key (x u)).getD 0) hS
  obtain ⟨kv, hkv⟩ := Option.isSome_iff_exists.mp (Finset.mem_filter.mp hv).2
  refine ⟨v, by simp [hkv], fun w => ?_⟩
  cases hkw : key (x w) with
  | none => rfl
  | some kw =>
    have := hmin w (by simp [S, hkw])
    rw [hkv, hkw] at this
    simpa [hkv, keyLt] using this

variable (hf : ∀ u v, f u v = if keyLt (key v) (key u) then v else u)
include hf

theorem xorTree_mem (hP : P = 2 ^ m) (hk : k ≤ m) (r : Fin P) :
    ∃ q, SameBlock k r q ∧ xorTree f x k r = x q := by
  induction k generalizing r with
  | zero => exact ⟨r, sameBlock_zero_iff.mpr rfl, rfl⟩
  | succ k ih =>
    obtain ⟨q, hq, hxq⟩ := ih (by omega) r
    obtain ⟨p, hp, hxp⟩ := ih (by omega) (partner k r)
    rw [xorTree, hf]
    split_ifs
    · exact ⟨p, (sameBlock_succ_iff hP (by omega) r p).mpr (Or.inr hp), hxp⟩
    · exact ⟨q, (sameBlock_succ_iff hP (by omega) r q).mpr (Or.inl hq), hxq⟩

theorem xorTree_of_unbeaten (hP : P = 2 ^ m) (hk : k ≤ m) {r : Fin P} (hr : Unbeaten key x r) :
    xorTree f x k r = x r := by
  induction k with
  | zero => rfl
  | succ k ih =>
    obtain ⟨p, -, hxp⟩ := xorTree_mem (x := x) hf hP (show k ≤ m by omega) (partner k r)
    rw [xorTree, ih (by omega), hxp, hf, hr p]
    rfl

theorem xorTree_least (hP : P = 2 ^ m) (hkey : ∀ q, (key (x q)).isSome) (hk : k ≤ m) {r q : Fin P}
    (hq : SameBlock k r q) : keyLt (key (x q)) (key (xorTree f x k r)) = false := by
  induction k generalizing r q with
  | zero =>
    rw [sameBlock_zero_iff.mp hq, xorTree]
    cases key (x q) <;> simp [keyLt]
  | succ k ih =>
    -- both subtrees are values of some rank and least in their halves
    obtain ⟨u, -, hu⟩ := xorTree_mem (x := x) hf hP (show k ≤ m by omega) r
    obtain ⟨v, -, hv⟩ := xorTree_mem (x := x) hf hP (show k ≤ m by omega) (partner k r)
    obtain ⟨ku, hku⟩ := Option.isSome_iff_exists.mp (hkey u)
    obtain ⟨kv, hkv⟩ := Option.isSome_iff_exists.mp (hkey v)
    obtain ⟨kq, hkq⟩ := Option.isSome_iff_exists.mp (hkey q)
    have hside := (sameBlock_succ_iff hP (by omega) r q).mp hq
    have hle : ku ≤ kq ∨ kv ≤ kq := by
      refine hside.imp (fun h => ?_) fun h => ?_
      · have := ih (by omega) h
        rw [hu, hku, hkq] at this
        simpa [keyLt] using this
      · have := ih (by omega) h
        rw [hv, hkv, hkq] at this
        simpa [keyLt] using this
    rw [xorTree, hf, hu, hv, hku, hkv, hkq]
    simp only [keyLt, decide_eq_true_eq]
    split_ifs with hlt <;> simp only [hku, hkv, decide_eq_false_iff_not] <;> omega

theorem xorTree_agree_iff (hP : P = 2 ^ m) : (∀ r q, xorTree f x m r = xorTree f x m q) ↔
    ∀ r q, Unbeaten key x r → Unbeaten key x q → x r = x q := by
  constructor
  · intro h r q hr hq
    rw [← xorTree_of_unbeaten hf hP le_rfl hr, ← xorTree_of_unbeaten hf hP le_rfl hq]
    exact h r q
  · intro h r q
    obtain ⟨r', -, hr⟩ := xorTree_mem (x := x) hf hP le_rfl r
    obtain ⟨q', -, hq⟩ := xorTree_mem (x := x) hf hP le_rfl q
    rw [hr, hq]
    by_cases hkey : ∀ p, (key (x p)).isSome
    · -- without missing keys the two values are least, hence unbeaten
      refine h r' q' (fun p => ?_) fun p => ?_
      · exact hr ▸ xorTree_least hf hP hkey le_rfl (sameBlock_top hP r p)
      · exact hq ▸ xorTree_least hf hP hkey le_rfl (sameBlock_top hP q p)
    · -- a missing key is unbeaten, and so is the least key there is: no value has one
      obtain ⟨p, hp⟩ : ∃ p, key (x p) = none := by simpa using hkey
      have hall : ∀ u, key (x u) = none := by
        intro u
        by_contra hu
        obtain ⟨v, hv, hub⟩ := exists_unbeaten hu
        rw [h v p hub (unbeaten_of_none hp)] at hv
        exact hv hp
      exact h r' q' (unbeaten_of_none (hall r')) (unbeaten_of_none (hall q'))

end Choose

section Meet

variable {P m : ℕ} {α : Type} {f : α → α → α} {x : Fin P → α}

/-- A sum that depends on the order of its operands is that of two different NaNs. It is one of
them, made quiet, and adding another sum gives it again: its first operand wins, or, where the
compiler swaps them, its second. -/
def KeepsNan (f : α → α → α) : Prop :=
  (∀ u v w z, f u v ≠ f v u → f (f u v) (f w z) = f u v) ∨
    ∀ u v w z, f u v ≠ f v u → f (f w z) (f u v) = f u v

theorem xorTree_succ (k : ℕ) (r : Fin P) :
    xorTree f x (k + 1) r = f (xorTree f x k r) (xorTree f x k (partner k r)) := rfl

theorem exists_xorTree_of_ne (hP : P = 2 ^ m) (hf : KeepsNan f) {u v : α} (hne : f u v ≠ f v u)
    {k n : ℕ} (hkn : k + 1 ≤ n) (hn : n ≤ m) {r : Fin P} (hr : xorTree f x (k + 1) r = f u v) :
    ∃ q, xorTree f x n q = f u v := by
  induction n, hkn using Nat.le_induction with
  | base => exact ⟨r, hr⟩
  | succ n hkn ih =>
    obtain ⟨q, hq⟩ := ih (by omega)
    obtain ⟨j, rfl⟩ : ∃ j, n = j + 1 := ⟨n - 1, by omega⟩
    rcases hf with hfirst | hsecond
    -- the rank that holds it keeps it, or its partner takes it over
    · refine ⟨q, ?_⟩
      rw [xorTree_succ, hq, xorTree_succ, hfirst u v _ _ hne]
    · refine ⟨partner (j + 1) q, ?_⟩
      rw [xorTree_succ, partner_partner hP (by omega), hq, xorTree_succ, hsecond u v _ _ hne]

theorem xorTree_agree_iff_meetAlike (hP : P = 2 ^ m) (hf : KeepsNan f) :
    (∀ r q, xorTree f x m r = xorTree f x m q) ↔ MeetAlike f x m := by
  constructor
  · intro hagree k hk r
    by_contra hne
    have hback : xorTree f x (k + 1) (partner k r) =
        f (xorTree f x k (partner k r)) (xorTree f x k r) := by
      rw [xorTree_succ, partner_partner hP hk]
    obtain ⟨q, hq⟩ := exists_xorTree_of_ne hP hf hne hk le_rfl (xorTree_succ k r)
    obtain ⟨q', hq'⟩ := exists_xorTree_of_ne hP hf (Ne.symm hne) hk le_rfl hback
    exact hne (hq.symm.trans ((hagree q q').trans hq'))
  · intro hmeet r q
    exact xorTree_eq_of_sameBlock hP hmeet le_rfl (sameBlock_top hP r q)

end Meet

section Runs

variable {P m count : ℕ} {α β : Type} {a : Fin P → AllreduceArgs} {dtype : Dtype} {op : ReduceOp}

theorem agree_iff_trees (cap : Fin P → Fin P → ℕ) (hP : P = 2 ^ m) (ops : Ops α) (call : ℕ)
    (h : Ready a count dtype op count) (x : Fin P → Local α β) :
    (∀ s, Reaches (fabric P α β Unit cap)
        (start (fun r => allreduceRecursiveDoubling ops r call (a r)) x) s →
      (∀ r, (s r).proc = .pure ()) → ∀ r q, ∀ i < count,
        (s r).loc.mem (a r).data i = (s q).loc.mem (a q).data i) ↔
    ∀ i < count, ∀ r q, xorTree (ops dtype op) (fun q => (x q).mem (a q).data i) m r =
      xorTree (ops dtype op) (fun q => (x q).mem (a q).data i) m q := by
  constructor
  · intro hagree i hi r q
    obtain ⟨s, hs, hret⟩ := allreduceRecursiveDoubling_settles cap hP ops call h x
      (s := start _ x) .refl
    rw [← allreduceRecursiveDoubling_value cap hP _ call h x hs (hret r) hi,
      ← allreduceRecursiveDoubling_value cap hP _ call h x hs (hret q) hi]
    exact hagree s hs hret r q i hi
  · intro htree s hs hret r q i hi
    rw [allreduceRecursiveDoubling_value cap hP _ call h x hs (hret r) hi,
      allreduceRecursiveDoubling_value cap hP _ call h x hs (hret q) hi]
    exact htree i hi r q

/-- All ranks end with the same buffer exactly when, at every index, the sums that meet add alike in
both orders, or, for `Min` and `Max`, all values that no rank's value beats are the same. -/
theorem recursiveDoubling_agree_iff (cap : Fin P → Fin P → ℕ) (hP : P = 2 ^ m)
    (add : Dtype → BitVec 32 → BitVec 32 → BitVec 32)
    (hadd : op = .sum → KeepsNan (add dtype)) (call : ℕ)
    (h : Ready a count dtype op count) (x : Fin P → Local (BitVec 32) β) :
    (∀ s, Reaches (fabric P (BitVec 32) β Unit cap)
        (start (fun r => allreduceRecursiveDoubling (bits add).combine r call (a r)) x) s →
      (∀ r, (s r).proc = .pure ()) → ∀ r q, ∀ i < count,
        (s r).loc.mem (a r).data i = (s q).loc.mem (a q).data i) ↔
    ∀ i < count,
      (op = .sum → MeetAlike (add dtype) (fun q => (x q).mem (a q).data i) m) ∧
      (op ≠ .sum → ∀ r q,
        (∀ p, (bits add).beats dtype op ((x p).mem (a p).data i)
          ((x r).mem (a r).data i) = false) →
        (∀ p, (bits add).beats dtype op ((x p).mem (a p).data i)
          ((x q).mem (a q).data i) = false) →
        (x r).mem (a r).data i = (x q).mem (a q).data i) := by
  rw [agree_iff_trees cap hP (bits add).combine call h x]
  refine forall₂_congr fun i _ => ?_
  by_cases hop : op = .sum
  · subst hop
    simp only [ne_eq, not_true_eq_false, false_implies, and_true, forall_const]
    exact xorTree_agree_iff_meetAlike hP (hadd rfl)
  · simp only [hop, false_implies, true_and, ne_eq, not_false_eq_true, forall_const, bits_beats]
    exact xorTree_agree_iff (bits_combine add dtype hop) hP

def minOneFloat : AllreduceArgs := ⟨⟨0, 4⟩, 0, 1, .float32, .min, ⟨1, 4⟩, 1, 1⟩

theorem minOneFloat_ready : Ready (P := 2) (fun _ => minOneFloat) 1 .float32 .min 1 := by
  constructor <;> decide

/-- The ranks hold 1.0 and 2.0, and 1.0 is the only unbeaten value. -/
theorem recursiveDoubling_min_agree_one_two :
    ∃ s, Reaches (fabric 2 (BitVec 32) Unit Unit fun _ _ => 1)
        (start (fun r => allreduceRecursiveDoubling (bits fun _ u v => u + v).combine r 0
          minOneFloat) ![⟨fun _ _ => 0x3f800000, ()⟩, ⟨fun _ _ => 0x40000000, ()⟩]) s ∧
      (∀ r, (s r).proc = .pure ()) ∧ (s 0).loc.mem 0 0 = (s 1).loc.mem 0 0 := by
  obtain ⟨s, hs, hret⟩ := allreduceRecursiveDoubling_settles (fun _ _ => 1) (m := 1) rfl
    (bits fun _ u v => u + v).combine 0 minOneFloat_ready
    ![⟨fun _ _ => 0x3f800000, ()⟩, ⟨fun _ _ => 0x40000000, ()⟩] .refl
  have hagree := (recursiveDoubling_agree_iff (fun _ _ => 1) (m := 1) rfl
    (fun _ u v => u + v) (fun hop => by cases hop) 0 minOneFloat_ready
    ![⟨fun _ _ => 0x3f800000, ()⟩, ⟨fun _ _ => 0x40000000, ()⟩]).mpr
    fun i hi => ⟨fun hop => (by cases hop), fun _ => by revert i; decide⟩
  exact ⟨s, hs, hret, hagree s hs hret 0 1 0 Nat.zero_lt_one⟩

/-- The ranks hold a NaN and 1.0, and each of them keeps its own. -/
theorem recursiveDoubling_min_nan_disagree :
    ¬ ∀ s, Reaches (fabric 2 (BitVec 32) Unit Unit fun _ _ => 1)
        (start (fun r => allreduceRecursiveDoubling (bits fun _ u v => u + v).combine r 0
          minOneFloat) ![⟨fun _ _ => 0x7fc00000, ()⟩, ⟨fun _ _ => 0x3f800000, ()⟩]) s →
      (∀ r, (s r).proc = .pure ()) → ∀ r q, ∀ i < 1,
        (s r).loc.mem 0 i = (s q).loc.mem 0 i := by
  intro hagree
  obtain ⟨s, hs, hret⟩ := allreduceRecursiveDoubling_settles (fun _ _ => 1) (m := 1) rfl
    (bits fun _ u v => u + v).combine 0 minOneFloat_ready
    ![⟨fun _ _ => 0x7fc00000, ()⟩, ⟨fun _ _ => 0x3f800000, ()⟩] .refl
  have hval := fun r => allreduceRecursiveDoubling_value (fun _ _ => 1) (m := 1) rfl _ 0
    minOneFloat_ready _ hs (hret r) Nat.zero_lt_one
  have h := hagree s hs hret 0 1 0 Nat.zero_lt_one
  rw [show (s 0).loc.mem 0 0 = _ from hval 0, show (s 1).loc.mem 0 0 = _ from hval 1] at h
  exact absurd h (by decide)

end Runs

end MicroCcl

import MicroCcl.Process

namespace MicroCcl

inductive Dtype where
  | float32
  | int32
  deriving DecidableEq, Repr

inductive ReduceOp where
  | sum
  | min
  | max
  deriving DecidableEq, Repr

def dtypeSize : Dtype → ℕ
  | .float32 => 4
  | .int32 => 4

@[simp] theorem dtypeSize_eq (d : Dtype) : dtypeSize d = 4 := by cases d <;> rfl

/-- `std::min`: the first argument unless the second is less. -/
def stdMin {α : Type} (lt : α → α → Bool) (a b : α) : α := if lt b a then b else a

def stdMax {α : Type} (lt : α → α → Bool) (a b : α) : α := if lt a b then b else a

/-- How the elements of each type add and compare. -/
structure Scalar (α : Type) where
  add : Dtype → α → α → α
  lt : Dtype → α → α → Bool

def Scalar.combine {α : Type} (S : Scalar α) (dtype : Dtype) : ReduceOp → α → α → α
  | .sum => S.add dtype
  | .min => stdMin (S.lt dtype)
  | .max => stdMax (S.lt dtype)

abbrev Ops (α : Type) := Dtype → ReduceOp → α → α → α

/-- One turn of the loop of `reduce_inplace`, on the buffers `dst` from element
`d` and `src` from element `0`. -/
def reduceStep {α : Type} (f : α → α → α) (dst : Buf) (d : ℕ) (src : Buf) (m : Mem α) (i : ℕ) :
    Mem α := fun b j =>
  if b = dst ∧ j = d + i then f (m dst (d + i)) (m src i) else m b j

def reduceInplace {α : Type} (ops : Ops α) (dst : Buf) (dstOff : ℕ) (src : Buf) (count : ℕ)
    (dtype : Dtype) (op : ReduceOp) (m : Mem α) : Mem α :=
  (List.range count).foldl (reduceStep (ops dtype op) dst (dstOff / 4) src) m

theorem reduceInplace_apply {α : Type} (ops : Ops α) {dst src : Buf} (hne : dst ≠ src)
    (dstOff count : ℕ) (dtype : Dtype) (op : ReduceOp) (m : Mem α) (b : Buf) (j : ℕ) :
    reduceInplace ops dst dstOff src count dtype op m b j =
      if b = dst ∧ dstOff / 4 ≤ j ∧ j < dstOff / 4 + count then
        ops dtype op (m dst j) (m src (j - dstOff / 4))
      else m b j := by
  unfold reduceInplace
  induction count generalizing b j with
  | zero =>
    have h : ¬ (dstOff / 4 ≤ j ∧ j < dstOff / 4 + 0) := by omega
    rw [if_neg fun hb => h hb.2]
    rfl
  | succ n ih =>
    rw [List.range_succ, List.foldl_append, List.foldl_cons, List.foldl_nil, reduceStep]
    by_cases hj : b = dst ∧ j = dstOff / 4 + n
    · obtain ⟨rfl, rfl⟩ := hj
      rw [if_pos ⟨rfl, rfl⟩, ih, ih, if_neg (fun h => absurd h.2.2 (by omega)),
        if_neg (fun h => hne h.1.symm), if_pos ⟨rfl, by omega, by omega⟩]
      simp
    · rw [if_neg hj, ih]
      by_cases hlt : b = dst ∧ dstOff / 4 ≤ j ∧ j < dstOff / 4 + n
      · rw [if_pos hlt, if_pos ⟨hlt.1, hlt.2.1, by omega⟩]
      · rw [if_neg hlt, if_neg]
        rintro ⟨hb, h1, h2⟩
        exact hlt ⟨hb, h1, by
          have : j ≠ dstOff / 4 + n := fun h => hj ⟨hb, h⟩
          omega⟩

theorem szMul_mod_le (n : ℕ) : szMul n 4 % 2 ^ 32 ≤ n * 4 :=
  (Nat.mod_le _ _).trans (Nat.mod_le _ _)

theorem szMul_mod_of_short {n : ℕ} (hn : n * 4 < 2 ^ 32) : szMul n 4 % 2 ^ 32 = n * 4 := by
  rw [szMul, Nat.mod_eq_of_lt (show _ < 2 ^ 64 by omega), Nat.mod_eq_of_lt hn]

theorem szMul_eq_mod_iff {n : ℕ} (hn : n * 4 < 2 ^ 64) :
    szMul n 4 = szMul n 4 % 2 ^ 32 ↔ n * 4 < 2 ^ 32 := by
  rw [szMul, Nat.mod_eq_of_lt hn]
  omega

/-- The arguments that one rank passes to an allreduce. -/
structure AllreduceArgs where
  dataMr : MemoryRegion
  data : Buf
  count : ℕ
  dtype : Dtype
  op : ReduceOp
  scratchMr : MemoryRegion
  scratch : Buf
  scratchCapacityElems : ℕ
  deriving DecidableEq, Repr

/-- `reduce_inplace` from the start of `scratch` into `data`, from byte `off` of it. -/
def AllreduceArgs.reduce {α β : Type} (ops : Ops α) (a : AllreduceArgs) (off count : ℕ)
    (l : Local α β) : Local α β :=
  { l with mem := reduceInplace ops a.data off a.scratch count a.dtype a.op l.mem }

/-- The ranks agree on the call and their guards pass; `largest` is the number of
elements of the largest message. -/
structure Ready {P : ℕ} (a : Fin P → AllreduceArgs) (count : ℕ) (dtype : Dtype) (op : ReduceOp)
    (largest : ℕ) : Prop where
  count_eq : ∀ r, (a r).count = count
  dtype_eq : ∀ r, (a r).dtype = dtype
  op_eq : ∀ r, (a r).op = op
  fits : ∀ r, count * 4 ≤ (a r).dataMr.length
  size : ∀ r, (a r).dataMr.length < 2 ^ 64
  apart : ∀ r, (a r).data ≠ (a r).scratch
  scratch : ∀ r, P = 1 ∨ largest ≤ (a r).scratchCapacityElems
  short : P = 1 ∨ largest * 4 < 2 ^ 32

/-- The ranks agree on the call. What the code checks on each of them is left open. -/
structure Alike {P : ℕ} (a : Fin P → AllreduceArgs) (count : ℕ) (dtype : Dtype) (op : ReduceOp) :
    Prop where
  count_eq : ∀ r, (a r).count = count
  dtype_eq : ∀ r, (a r).dtype = dtype
  op_eq : ∀ r, (a r).op = op
  apart : ∀ r, (a r).data ≠ (a r).scratch
  bytes_lt : count * 4 < 2 ^ 64

theorem Ready.alike {P : ℕ} {a : Fin P → AllreduceArgs} {count : ℕ} {dtype : Dtype} {op : ReduceOp}
    {largest : ℕ} (h : Ready a count dtype op largest) (r : Fin P) : Alike a count dtype op :=
  { h with bytes_lt := (h.fits r).trans_lt (h.size r) }

end MicroCcl

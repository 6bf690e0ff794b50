import Mathlib.Data.List.Basic
import Mathlib.Tactic.Common

namespace Cursors

variable {A B X : Type}

structure Cursor where
  bytes : List UInt8
  pos : ℕ
  deriving DecidableEq, Repr

abbrev CursorM (A : Type) := StateT Cursor Option A

/-- `p[i] = v`. -/
def store (i : ℕ) (v : UInt8) : CursorM Unit := fun p =>
  if p.pos + i < p.bytes.length then some ((), { p with bytes := p.bytes.set (p.pos + i) v })
  else none

/-- `p[i]`. -/
def load (i : ℕ) : CursorM UInt8 := fun p => p.bytes[p.pos + i]?.map fun v => (v, p)

/-- `p += n`. -/
def advance (n : ℕ) : CursorM Unit := fun p => some ((), { p with pos := p.pos + n })

/-- Stores at `p[0]`, `p[1]`, .. and then `p += vs.length`. -/
def storeAll (vs : List UInt8) : CursorM Unit := do
  vs.zipIdx.forM fun x => store x.2 x.1
  advance vs.length

/-- `acc = f(acc, p[i])` for `i < n`, and then `p += n`. -/
def loadAll (n : ℕ) (f : B → UInt8 → B) (acc : B) : CursorM B := do
  let acc ← (List.range n).foldlM (fun acc i => do
    let v ← load i
    return f acc v) acc
  advance n
  return acc

theorem bind_of_some {m : CursorM A} {f : A → CursorM B} {p p' : Cursor} {a : A}
    (h : m p = some (a, p')) : (m >>= f) p = f a p' := by
  simp only [Bind.bind, StateT.bind, h, Option.bind]

/-- Whatever was there before, the program replaces the bytes under the cursor by `bs`, moves the
cursor behind them and leaves the rest of the array alone. -/
def Writes (m : CursorM Unit) (bs : List UInt8) : Prop :=
  ∀ pre old post, old.length = bs.length →
    m ⟨pre ++ old ++ post, pre.length⟩ = some ((), ⟨pre ++ bs ++ post, pre.length + bs.length⟩)

theorem Writes.pure : Writes (pure ()) [] := by
  intro pre old post hold
  rw [List.length_eq_zero_iff.mp hold]
  rfl

theorem Writes.bind {m m' : CursorM Unit} {bs bs' : List UInt8} (hm : Writes m bs)
    (hm' : Writes m' bs') : Writes (m >>= fun _ => m') (bs ++ bs') := by
  intro pre old post hold
  rw [List.length_append] at hold
  have hfst : (old.take bs.length).length = bs.length := by
    rw [List.length_take]
    omega
  have hsnd : (old.drop bs.length).length = bs'.length := by
    rw [List.length_drop]
    omega
  have h1 := hm pre (old.take bs.length) (old.drop bs.length ++ post) hfst
  have h2 := hm' (pre ++ bs) (old.drop bs.length) post hsnd
  rw [← List.append_assoc, List.append_assoc pre, List.take_append_drop] at h1
  rw [bind_of_some h1]
  simpa only [List.length_append, List.append_assoc, Nat.add_assoc] using h2

theorem Writes.forM {f : X → CursorM Unit} {enc : X → List UInt8} (hf : ∀ x, Writes (f x) (enc x))
    (xs : List X) : Writes (xs.forM f) (xs.flatMap enc) := by
  induction xs with
  | nil => exact Writes.pure
  | cons x xs ih => exact (hf x).bind ih

theorem store_append {pre old post : List UInt8} {v w : UInt8} {i n : ℕ}
    (hi : pre.length = n + i) :
    store i v ⟨pre ++ w :: old ++ post, n⟩ = some ((), ⟨pre ++ v :: old ++ post, n⟩) := by
  rw [store, if_pos (by simp; omega)]
  simp [← hi, List.set_append_right]

theorem stores_append (pre post : List UInt8) {bs old done : List UInt8} {k : ℕ}
    (hold : old.length = bs.length) (hdone : done.length = k) :
    (bs.zipIdx k).forM (fun x => store x.2 x.1) ⟨pre ++ done ++ old ++ post, pre.length⟩ =
      some ((), ⟨pre ++ done ++ bs ++ post, pre.length⟩) := by
  induction bs generalizing old done k with
  | nil =>
    rw [List.length_eq_zero_iff.mp hold]
    rfl
  | cons v bs ih =>
    obtain ⟨w, old, rfl⟩ := List.exists_cons_of_length_eq_add_one hold
    have hstore : store k v ⟨pre ++ done ++ w :: old ++ post, pre.length⟩ =
        some ((), ⟨pre ++ done ++ v :: old ++ post, pre.length⟩) :=
      store_append (by rw [List.length_append, hdone])
    rw [List.zipIdx_cons]
    apply (bind_of_some hstore).trans
    have hold' : old.length = bs.length := by simpa using hold
    have hdone' : (done ++ [v]).length = k + 1 := by simp [hdone]
    simpa using ih hold' hdone'

theorem storeAll_writes (bs : List UInt8) : Writes (storeAll bs) bs := by
  intro pre old post hold
  have hstores := stores_append pre post hold (show ([] : List UInt8).length = 0 from rfl)
  simp only [List.append_nil] at hstores
  exact bind_of_some hstores

/-- With `bs` under the cursor the program gives `a` and moves the cursor behind them. -/
def Reads (m : CursorM A) (bs : List UInt8) (a : A) : Prop :=
  ∀ pre post, m ⟨pre ++ bs ++ post, pre.length⟩ =
    some (a, ⟨pre ++ bs ++ post, pre.length + bs.length⟩)

theorem Reads.bind {m : CursorM A} {f : A → CursorM B} {bs bs' : List UInt8} {a : A} {b : B}
    (hm : Reads m bs a) (hf : Reads (f a) bs' b) : Reads (m >>= f) (bs ++ bs') b := by
  intro pre post
  have h1 := hm pre (bs' ++ post)
  have h2 := hf (pre ++ bs) post
  rw [← List.append_assoc, List.append_assoc pre] at h1
  rw [bind_of_some h1]
  simpa only [List.length_append, List.append_assoc, Nat.add_assoc] using h2

theorem Reads.map {m : CursorM A} {bs : List UInt8} {a : A} (hm : Reads m bs a) (f : A → B) :
    Reads (m >>= fun a => pure (f a)) bs (f a) := fun pre post => bind_of_some (hm pre post)

theorem load_append {pre bs post : List UInt8} {i : ℕ} {v : UInt8} (hv : bs[i]? = some v) :
    load i ⟨pre ++ bs ++ post, pre.length⟩ = some (v, ⟨pre ++ bs ++ post, pre.length⟩) := by
  have hi : i < bs.length := (List.getElem?_eq_some_iff.mp hv).1
  rw [load, List.append_assoc, List.getElem?_append_right (Nat.le_add_right _ _),
    Nat.add_sub_cancel_left, List.getElem?_append_left hi, hv]
  rfl

theorem loads_append (f : B → UInt8 → B) (pre post bs : List UInt8) {done : List UInt8} {k : ℕ}
    (hdone : done.length = k) (acc : B) :
    ((List.range' k bs.length).foldlM (fun acc i => do
      let v ← load i
      return f acc v) acc : CursorM B) ⟨pre ++ (done ++ bs) ++ post, pre.length⟩ =
      some (bs.foldl f acc, ⟨pre ++ (done ++ bs) ++ post, pre.length⟩) := by
  induction bs generalizing done k acc with
  | nil => rfl
  | cons v bs ih =>
    have hload : (done ++ v :: bs)[k]? = some v := by
      rw [← hdone, List.getElem?_append_right (Nat.le_refl _), Nat.sub_self]
      rfl
    have hdone' : (done ++ [v]).length = k + 1 := by simp [hdone]
    have hrest := ih hdone' (f acc v)
    rw [List.append_assoc done, List.singleton_append] at hrest
    rw [List.length_cons, List.range'_succ, List.foldlM_cons, bind_assoc,
      bind_of_some (load_append hload), pure_bind]
    exact hrest

theorem loadAll_reads (f : B → UInt8 → B) (bs : List UInt8) (acc : B) :
    Reads (loadAll bs.length f acc) bs (bs.foldl f acc) := by
  intro pre post
  have hloads := loads_append f pre post bs (show ([] : List UInt8).length = 0 from rfl) acc
  rw [List.nil_append, ← List.range_eq_range'] at hloads
  exact bind_of_some hloads

end Cursors

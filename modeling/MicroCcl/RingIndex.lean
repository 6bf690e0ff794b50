import Mathlib.Data.Int.ModEq
import Mathlib.Tactic.Common

namespace MicroCcl

/-- The `mod_p` lambda of the ring collectives; `%` of C++ truncates. -/
def modP (P : ℕ) (x : ℤ) : ℤ := (x.tmod P + P).tmod P

theorem modP_eq_emod {P : ℕ} (hP : 0 < P) (x : ℤ) : modP P x = x % P := by
  have hlt : -(P : ℤ) < x.tmod P := by
    have := Int.natAbs_tmod x P
    have := Nat.mod_lt x.natAbs hP
    simp only [Int.natAbs_natCast] at *
    omega
  rw [modP, Int.tmod_eq_emod_of_nonneg (by omega), Int.add_emod_right]
  exact (Int.emod_emod_of_dvd _ dvd_rfl).symm.trans (by rw [Int.tmod_def]; simp [Int.sub_emod])

/-- `s` places before `r`, for `s ≤ P`. -/
def back (P r s : ℕ) : ℕ := if s ≤ r then r - s else r + P - s

variable {P : ℕ}

theorem modP_sub (r : Fin P) {s : ℕ} (hs : s ≤ P) :
    modP P ((r : ℕ) - s) = (back P r s : ℕ) := by
  have hr := r.isLt
  rw [modP_eq_emod (by omega), back]
  split_ifs with h
  · rw [Int.emod_eq_of_lt (by omega) (by omega)]
    omega
  · rw [← Int.add_emod_right, Int.emod_eq_of_lt (by omega) (by omega)]
    omega

theorem modP_sub_sub_one (r : Fin P) {s : ℕ} (hs : s + 1 ≤ P) :
    modP P ((r : ℕ) - s - 1) = (back P r (s + 1) : ℕ) := by
  rw [← modP_sub r hs, Nat.cast_add, Nat.cast_one, sub_sub]

def next (r : Fin P) : Fin P :=
  ⟨if r.val + 1 = P then 0 else r + 1, by have := r.isLt; split_ifs <;> omega⟩

def prev (r : Fin P) : Fin P :=
  ⟨if r.val = 0 then P - 1 else r - 1, by have := r.isLt; split_ifs <;> omega⟩

theorem modP_succ (r : Fin P) : modP P ((r : ℕ) + 1) = (next r).val := by
  have hr := r.isLt
  rw [modP_eq_emod (by omega), next]
  dsimp only
  split_ifs with h
  · rw [show ((r : ℕ) : ℤ) + 1 = P by omega, Int.emod_self]
    rfl
  · rw [Int.emod_eq_of_lt (by omega) (by omega)]
    omega

theorem modP_pred (r : Fin P) : modP P ((r : ℕ) - 1) = (prev r).val := by
  have hr := r.isLt
  have h := modP_sub r (s := 1) (by omega)
  rw [Nat.cast_one] at h
  rw [h, prev, back]
  dsimp only
  split_ifs <;> omega

theorem next_ne (hP : 2 ≤ P) (r : Fin P) : r ≠ next r := by
  intro h
  have := congrArg Fin.val h
  simp only [next] at this
  split_ifs at this <;> omega

theorem prev_ne (hP : 2 ≤ P) (r : Fin P) : r ≠ prev r := by
  intro h
  have := congrArg Fin.val h
  simp only [prev] at this
  split_ifs at this <;> omega

@[simp] theorem next_prev (r : Fin P) : next (prev r) = r := by
  have hr := r.isLt
  ext
  simp only [next, prev]
  grind

@[simp] theorem prev_next (r : Fin P) : prev (next r) = r := by
  have hr := r.isLt
  ext
  simp only [next, prev]
  grind

theorem back_lt (r : Fin P) (s : ℕ) : back P r s < P := by
  have hr := r.isLt
  unfold back
  split_ifs <;> omega

theorem back_prev (r : Fin P) {s : ℕ} (hs : s + 1 ≤ P) :
    back P (prev r) s = back P r (s + 1) := by
  have hr := r.isLt
  simp only [back, prev]
  split_ifs <;> omega

theorem back_next (r : Fin P) {s : ℕ} (hs : s + 1 ≤ P) :
    back P (next r) (s + 1) = back P r s := by
  have hr := r.isLt
  simp only [back, next]
  split_ifs <;> omega

/-- Chunk `c` is `s` places before rank `r` exactly when `s` is how far `r` is past `c`. -/
theorem back_next_ne (hP : 2 ≤ P) (r : Fin P) {s : ℕ} (hs : s < P) :
    back P (next r) s ≠ back P r s := by
  have hr := r.isLt
  simp only [back, next]
  split_ifs <;> omega

theorem back_eq_iff (r c : Fin P) {s : ℕ} (hs : s < P) : back P r s = c ↔ s = back P r c := by
  have hr := r.isLt
  have hc := c.isLt
  simp only [back]
  split_ifs <;> omega

theorem back_eq_zero {r c : Fin P} : back P r c = 0 ↔ r = c := by
  have hr := r.isLt
  have hc := c.isLt
  rw [Fin.ext_iff, back]
  split_ifs <;> omega

/-- The predecessor is one place closer to chunk `c`, all the way around from `c` itself. -/
theorem back_prev_left (r c : Fin P) :
    back P (prev r) c = if back P r c = 0 then P - 1 else back P r c - 1 := by
  have hr := r.isLt
  have hc := c.isLt
  simp only [back, prev]
  grind

theorem add_back_mod (r c : Fin P) : (c + back P r c) % P = r := by
  have hr := r.isLt
  have hc := c.isLt
  unfold back
  split_ifs with h
  · rw [Nat.mod_eq_of_lt (by omega)]
    omega
  · rw [show (c : ℕ) + (r + P - c) = r + P by omega, Nat.add_mod_right, Nat.mod_eq_of_lt hr]

theorem back_add_mod (c : Fin P) {j : ℕ} (hj : j < P) : back P ((c + j) % P) c = j := by
  have hc := c.isLt
  rcases Nat.lt_or_ge (c + j) P with hlt | hge
  · rw [Nat.mod_eq_of_lt hlt, back, if_pos (by omega)]
    omega
  · rw [Nat.mod_eq_sub_mod hge, Nat.mod_eq_of_lt (by omega), back, if_neg (by omega)]
    omega

theorem prev_iterate (r : Fin P) {k : ℕ} (hk : k < P) : (prev^[k] r).val = back P r k := by
  induction k with
  | zero => simp [back]
  | succ k ih =>
    have hr := r.isLt
    have hih := ih (by omega)
    rw [Function.iterate_succ_apply']
    simp only [prev, hih, back]
    split_ifs <;> omega

/-- All ranks are met on the way back around the ring. -/
theorem exists_prev_iterate (r q : Fin P) : ∃ k < P, prev^[k] r = q :=
  ⟨back P r q, back_lt r q, Fin.ext <| by
    rw [prev_iterate r (back_lt r q)]
    exact (back_eq_iff r q (back_lt r q)).mpr rfl⟩

end MicroCcl

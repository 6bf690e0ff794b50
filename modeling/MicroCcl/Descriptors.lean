import Mathlib.Data.Finset.Basic

namespace Descriptors

variable {ε A B : Type}

structure Table where
  opened : Finset ℕ := ∅
  strays : List ℕ := []
  deriving DecidableEq

abbrev FdM (ε A : Type) := ExceptT ε (StateM Table) A

def acquire (fd : ℕ) : FdM ε Unit := modify fun t => { t with opened := insert fd t.opened }

def close (fd : ℕ) : FdM ε Unit := modify fun t =>
  if fd ∈ t.opened then { t with opened := t.opened.erase fd }
  else { t with strays := fd :: t.strays }

/-- The result of a program that starts with the table `t`, and the table it leaves. -/
def exec (m : FdM ε A) (t : Table) : Except ε A × Table := m.run.run t

/-- Everything that was obtained has been closed, and nothing else has. -/
def Table.Settled (t : Table) : Prop := t.opened = ∅ ∧ t.strays = []

instance (t : Table) : Decidable t.Settled := inferInstanceAs (Decidable (_ ∧ _))

theorem not_settled_of_mem {t : Table} {fd : ℕ} (h : fd ∈ t.opened) : ¬ t.Settled :=
  fun hs => by simp [hs.1] at h

section Exec

variable {m : FdM ε A} {f : A → FdM ε B} {t t' : Table}

@[simp]
theorem exec_pure (a : A) : exec (pure a : FdM ε A) t = (.ok a, t) := rfl

@[simp]
theorem exec_throw (e : ε) : exec (throw e : FdM ε A) t = (.error e, t) := rfl

@[simp]
theorem exec_acquire (fd : ℕ) :
    exec (acquire fd : FdM ε Unit) t = (.ok (), { t with opened := insert fd t.opened }) := rfl

theorem exec_close {fd : ℕ} (h : fd ∈ t.opened) :
    exec (close fd : FdM ε Unit) t = (.ok (), { t with opened := t.opened.erase fd }) := by
  change (Except.ok (), if fd ∈ t.opened then _ else _) = _
  rw [if_pos h]

theorem exec_bind (m : FdM ε A) (f : A → FdM ε B) (t : Table) :
    exec (m >>= f) t =
      match exec m t with
      | (.ok a, t') => exec (f a) t'
      | (.error e, t') => (.error e, t') := by
  simp only [exec, ExceptT.run_bind, StateT.run_bind]
  rcases m.run.run t with ⟨_ | _, _⟩ <;> rfl

theorem exec_bind_ok {a : A} (h : exec m t = (.ok a, t')) :
    exec (m >>= f) t = exec (f a) t' := by
  rw [exec_bind, h]

theorem exec_bind_error {e : ε} (h : exec m t = (.error e, t')) :
    exec (m >>= f) t = (.error e, t') := by
  rw [exec_bind, h]

theorem exec_bind_eq_ok {b : B} (h : exec (m >>= f) t = (.ok b, t')) :
    ∃ a t₁, exec m t = (.ok a, t₁) ∧ exec (f a) t₁ = (.ok b, t') := by
  rw [exec_bind] at h
  cases hres : exec m t with
  | mk res t₁ =>
    rw [hres] at h
    cases res with
    | error e => cases h
    | ok a => exact ⟨a, t₁, rfl, h⟩

@[simp]
theorem exec_ofExcept (x : Except ε A) :
    exec (MonadExcept.ofExcept x : FdM ε A) t = (x, t) := by
  cases x <;> rfl

/-- Closing descriptors that are open, each of them once. -/
theorem exec_forM_close {fds : List ℕ} (hnodup : fds.Nodup) (hsub : ∀ fd ∈ fds, fd ∈ t.opened) :
    exec (forM fds close : FdM ε PUnit) t =
      (.ok (), { t with opened := t.opened \ fds.toFinset }) := by
  induction fds generalizing t with
  | nil => simp [List.forM_nil]
  | cons fd fds ih =>
    obtain ⟨hnotMem, hnodup⟩ := List.nodup_cons.mp hnodup
    rw [List.forM_cons, exec_bind_ok (exec_close (hsub fd List.mem_cons_self)), ih hnodup ?_]
    · rw [List.toFinset_cons, Finset.sdiff_insert, Finset.erase_sdiff_comm]
    · intro fd' h'
      refine Finset.mem_erase.mpr ⟨?_, hsub fd' (List.mem_cons_of_mem _ h')⟩
      rintro rfl
      exact hnotMem h'

end Exec

/-- The program leaves `fd` open, also where it throws. -/
def Keeps (fd : ℕ) (m : FdM ε A) : Prop := ∀ t, fd ∈ t.opened → fd ∈ (exec m t).2.opened

namespace Keeps

variable {fd : ℕ} {m : FdM ε A} {f : A → FdM ε B}

theorem pure (a : A) : Keeps fd (Pure.pure a : FdM ε A) := fun _ h => h

theorem throw (e : ε) : Keeps fd (throw e : FdM ε A) := fun _ h => h

theorem acquire (fd' : ℕ) : Keeps fd (acquire fd' : FdM ε Unit) :=
  fun _ h => Finset.mem_insert_of_mem h

theorem close {fd' : ℕ} (hne : fd ≠ fd') : Keeps fd (close fd' : FdM ε Unit) := by
  intro t h
  change fd ∈ (if fd' ∈ t.opened then _ else _ : Table).opened
  split_ifs
  · exact Finset.mem_erase.mpr ⟨hne, h⟩
  · exact h

theorem ofExcept (x : Except ε A) : Keeps fd (MonadExcept.ofExcept x : FdM ε A) := by
  intro t h
  rwa [exec_ofExcept]

theorem bind (hm : Keeps fd m) (hf : ∀ a, Keeps fd (f a)) : Keeps fd (m >>= f) := by
  intro t h
  have hmem := hm t h
  rw [exec_bind]
  cases hres : exec m t with
  | mk res t' =>
    rw [hres] at hmem
    cases res with
    | error e => exact hmem
    | ok a => exact hf a t' hmem

theorem forM_close {fds : List ℕ} (hnot : fd ∉ fds) :
    Keeps fd (forM fds Descriptors.close : FdM ε PUnit) := by
  induction fds with
  | nil => exact Keeps.pure _
  | cons fd' fds ih =>
    rw [List.mem_cons, not_or] at hnot
    rw [List.forM_cons]
    exact (Keeps.close hnot.1).bind fun _ => ih hnot.2

end Keeps

end Descriptors

import MicroCcl.Network

namespace Network

variable {ι σ M R Λ κ : Type*} [DecidableEq ι] {N N' : Net ι σ M R Λ κ} {I : ι → σ → Prop}

/-- Runs of `n` steps. -/
inductive Run (N : Net ι σ M R Λ κ) : ℕ → (ι → σ) → (ι → σ) → Prop
  | nil (s : ι → σ) : Run N 0 s s
  | cons {n : ℕ} {s t u : ι → σ} (h : Step N s t) (hr : Run N n t u) : Run N (n + 1) s u

namespace Run

variable {n k : ℕ} {s t u : ι → σ}

theorem of_reaches (h : Reaches N s t) : ∃ n, Run N n s t := by
  induction h using Relation.ReflTransGen.head_induction_on with
  | refl => exact ⟨0, .nil t⟩
  | head hstep _ ih =>
    obtain ⟨n, hn⟩ := ih
    exact ⟨n + 1, .cons hstep hn⟩

theorem snoc (h : Run N n s t) (hstep : Step N t u) : Run N (n + 1) s u := by
  induction h with
  | nil t => exact .cons hstep (.nil u)
  | cons hfirst _ ih => exact .cons hfirst (ih hstep)

theorem mono (hN : ∀ {s t}, Step N s t → Step N' s t) (h : Run N n s t) : Run N' n s t := by
  induction h with
  | nil s => exact .nil s
  | cons hstep _ ih => exact .cons (hN hstep) ih

/-- The states of an infinite run, up to the `n`th. -/
theorem of_steps {f : ℕ → ι → σ} (h : ∀ i, Step N (f i) (f (i + 1))) (n : ℕ) :
    Run N n (f 0) (f n) := by
  induction n with
  | zero => exact .nil _
  | succ n ih => exact ih.snoc (h n)

end Run

/-- However the steps from `s` are chosen, the `n`th leads to `e` and is the last. -/
structure EndsIn (N : Net ι σ M R Λ κ) (s : ι → σ) (n : ℕ) (e : ι → σ) : Prop where
  final : Final N e
  ahead : ∀ {k t}, Run N k s t → ∃ m, k + m = n ∧ Run N m t e

namespace EndsIn

variable {n k : ℕ} {s t e : ι → σ} (h : EndsIn N s n e)
include h

theorem length_le (ht : Run N k s t) : k ≤ n := by
  obtain ⟨m, hm, -⟩ := h.ahead ht
  omega

/-- A run that can go no further is at the end. -/
theorem eq_of_final (ht : Run N k s t) (hfin : Final N t) : t = e := by
  obtain ⟨m, -, he⟩ := h.ahead ht
  cases he with
  | nil => rfl
  | cons hstep _ => exact absurd hstep (hfin _)

theorem not_infinite {f : ℕ → ι → σ} (hf : f 0 = s) : ¬ ∀ i, Step N (f i) (f (i + 1)) := by
  intro hsteps
  have hle := h.length_le (hf ▸ Run.of_steps hsteps (n + 1))
  omega

end EndsIn

/-- The step `b` from a state that is `n` steps from the end is one of them. -/
theorem Lawful.run_of_step (hN : Lawful N I) {n : ℕ} {s b e : ι → σ} (hs : ∀ r, I r (s r))
    (he : Run N n s e) (hfin : Final N e) (hb : Step N s b) : ∃ m, n = m + 1 ∧ Run N m b e := by
  induction he generalizing b with
  | nil => exact absurd hb (hfin b)
  | @cons n s t e ht hrest ih =>
    refine ⟨n, rfl, ?_⟩
    rcases hN.joins hs ht hb with rfl | ⟨d, htd, hbd⟩
    · exact hrest
    · obtain ⟨m, rfl, hd⟩ := ih (hN.step_inv hs ht) hfin htd
      exact .cons hbd hd

/-- One run that ends decides how long all runs are. -/
theorem Lawful.endsIn_of_run (hN : Lawful N I) {n : ℕ} {s e : ι → σ} (hs : ∀ r, I r (s r))
    (he : Run N n s e) (hfin : Final N e) : EndsIn N s n e := by
  refine ⟨hfin, fun {k t} ht => ?_⟩
  induction ht generalizing n with
  | nil => exact ⟨n, Nat.zero_add n, he⟩
  | cons hstep _ ih =>
    obtain ⟨m, rfl, hm⟩ := hN.run_of_step hs he hfin hstep
    obtain ⟨j, rfl, hj⟩ := ih (hN.step_inv hs hstep) hm
    exact ⟨j, by omega, hj⟩

end Network

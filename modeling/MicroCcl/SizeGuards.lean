import MicroCcl.Completions

namespace MicroCcl
open Network

variable {P : ℕ} {α β : Type}

/-- Rounds may end with an exception, but do not start with one. -/
theorem roundsProc_ne_throw (Gs : List (Round P α β)) (r : Fin P) :
    ¬ ∃ e, roundsProc Gs r = .throw e := by
  rintro ⟨e, he⟩
  have hret := rounds_return Gs r
  rw [he] at hret
  exact hret

section Throws

variable (ops : Ops α) (r : Fin P) (call : ℕ)

theorem allreduceRing_throws_iff {a : AllreduceArgs} (hcount : a.count < 2 ^ 64) :
    (∃ e, allreduceRing (β := β) ops r call a = .throw e) ↔ ¬ RingGuards P a := by
  rw [allreduceRing_guards ops call (fun _ => a) r hcount]
  by_cases hg : RingGuards P a
  · rw [if_pos hg]
    exact ⟨fun he => absurd he (roundsProc_ne_throw _ r), fun h => absurd hg h⟩
  · rw [if_neg hg]
    exact ⟨fun _ => hg, fun _ => ⟨_, rfl⟩⟩

theorem allgather_throws_iff {a : AllgatherArgs} :
    (∃ e, allgather (α := α) (β := β) r call a = .throw e) ↔ ¬ AllgatherGuard P a := by
  by_cases hg : AllgatherGuard P a
  · rw [allgather_of_guard call (fun _ => a) r hg]
    exact ⟨fun he => absurd he (roundsProc_ne_throw _ r), fun h => absurd hg h⟩
  · exact ⟨fun _ => hg, fun _ => allgather_refuses r call a hg⟩

end Throws

/-- For recursive doubling the count is bounded by the scratch buffer, so nothing wraps. -/
theorem DoublingGuards.fits {a : AllreduceArgs} (h : DoublingGuards P a) (hP : 2 ≤ P)
    (hcap : a.scratchCapacityElems * 4 ≤ a.scratchMr.length)
    (hscratch : a.scratchMr.length < 2 ^ 64) : a.count * 4 ≤ a.dataMr.length := by
  obtain ⟨hfit, -, hscr⟩ := h
  have hle := hscr.resolve_left (by omega)
  rwa [szMul, Nat.mod_eq_of_lt (by omega)] at hfit

theorem allgatherGuard_iff {a : AllgatherArgs} :
    AllgatherGuard P a ↔ P * a.sendCount * 4 % 2 ^ 64 ≤ a.mr.length := by
  rw [AllgatherGuard, szMul, szMul, Nat.mod_mul_mod]

/-- For every 64-bit count: `allreduce_recursive_doubling` throws at once when the message is larger
than the data region. `allreduce_ring` and `allgather` do so unless the size wraps around to a
size that fits; in the ring scratch has to be large enough as well. -/
theorem size_guards_sound_iff (hP : 2 ≤ P) (ops : Ops α) (r : Fin P) (call : ℕ)
    (a : AllreduceArgs) (hcount : a.count < 2 ^ 64) (hdata : a.dataMr.length < 2 ^ 64)
    (hcap : a.scratchCapacityElems * 4 ≤ a.scratchMr.length)
    (hscratch : a.scratchMr.length < 2 ^ 64) (g : AllgatherArgs) (hmr : g.mr.length < 2 ^ 64) :
    ((a.count * 4 > a.dataMr.length → ∃ e, allreduceRing (β := β) ops r call a = .throw e) ↔
      ¬ (2 ^ 64 ≤ a.count * 4 ∧ a.count * 4 % 2 ^ 64 ≤ a.dataMr.length ∧
        (a.count + P - 1) / P ≤ a.scratchCapacityElems)) ∧
    (a.count * 4 > a.dataMr.length →
      ∃ e, allreduceRecursiveDoubling (β := β) ops r call a = .throw e) ∧
    ((P * g.sendCount * 4 > g.mr.length →
        ∃ e, allgather (α := α) (β := β) r call g = .throw e) ↔
      ¬ (2 ^ 64 ≤ P * g.sendCount * 4 ∧ P * g.sendCount * 4 % 2 ^ 64 ≤ g.mr.length)) := by
  refine ⟨?_, fun hbig => ?_, ?_⟩
  · have hP1 : P ≠ 1 := by omega
    rw [allreduceRing_throws_iff ops r call hcount, RingGuards, szMul]
    rcases lt_or_ge (a.count * 4) (2 ^ 64) with hlt | hge
    · rw [Nat.mod_eq_of_lt hlt]
      omega
    · omega
  · apply allreduceRecursiveDoubling_refuses
    intro hg
    exact absurd (hg.fits hP hcap hscratch) (not_le.mpr hbig)
  · rw [allgather_throws_iff, allgatherGuard_iff]
    rcases lt_or_ge (P * g.sendCount * 4) (2 ^ 64) with hlt | hge
    · rw [Nat.mod_eq_of_lt hlt]
      omega
    · omega

/-- A count of elements whose size in bytes is 0 modulo 2^64. -/
def wrappedCount : AllreduceArgs := ⟨⟨0, 4⟩, 0, 2 ^ 62, .int32, .sum, ⟨1, 4⟩, 1, 1⟩

def wrappedSegments : AllgatherArgs := ⟨⟨0, 4⟩, 0, 2 ^ 61, .int32⟩

/-- The scratch guards stop both allreduces at a count that the size guards let through. -/
theorem size_guards_sound_iff_wrapped_count :
    szMul wrappedCount.count 4 ≤ wrappedCount.dataMr.length ∧
    (∃ e, allreduceRing (P := 2) (α := ℕ) (β := Unit) (fun _ _ u v => u + v) 0 0 wrappedCount =
      .throw e) ∧
    ∃ e, allreduceRecursiveDoubling (P := 2) (α := ℕ) (β := Unit) (fun _ _ u v => u + v) 0 0
      wrappedCount = .throw e := by
  have h := size_guards_sound_iff (α := ℕ) (β := Unit) le_rfl (fun _ _ u v => u + v) 0 0
    wrappedCount (by decide) (by decide) (by decide) (by decide) wrappedSegments (by decide)
  exact ⟨by decide, h.1.mpr (by decide) (by decide), h.2.1 (by decide)⟩

/-- `allgather` of twice 2^61 elements into a region of four bytes posts its first receive. -/
theorem allgather_wrapped_segments_posts :
    2 * wrappedSegments.sendCount * 4 > wrappedSegments.mr.length ∧
    (¬ ∃ e, allgather (P := 2) (α := ℕ) (β := Unit) 0 0 wrappedSegments = .throw e) ∧
    ∃ q wr k, allgather (P := 2) (α := ℕ) (β := Unit) 0 0 wrappedSegments = .postRecv q wr k := by
  have hpost : ∃ q wr k, allgather (P := 2) (α := ℕ) (β := Unit) 0 0 wrappedSegments =
      .postRecv q wr k := ⟨_, _, _, rfl⟩
  refine ⟨by decide, ?_, hpost⟩
  rintro ⟨e, he⟩
  obtain ⟨q, wr, k, hk⟩ := hpost
  rw [he] at hk
  cases hk

end MicroCcl

import MicroCcl.Neighbours
import MicroCcl.Allgather

namespace MicroCcl
open Network

variable {P : ℕ} {α β : Type}

section Turns

variable (call : ℕ) (a : Fin P → AllgatherArgs)

def allgatherTurn (r : Fin P) (step : ℕ) : Turn P α β where
  src := prev r
  part :=
    { wr := workRequest (a r).mr (a r).buf
        (szMul (back P r (step + 1)) (szMul (a r).sendCount 4)) (szMul (a r).sendCount 4)
        ⟨call, step⟩
      expected := szMul (a r).sendCount 4
      mismatch := allgatherMismatch (szMul (a r).sendCount 4)
      reduce := none }
  dst := next r
  wr := workRequest (a r).mr (a r).buf (szMul (back P r step) (szMul (a r).sendCount 4))
    (szMul (a r).sendCount 4) ⟨call, step⟩

def allgatherTurns (r : Fin P) : List (Turn P α β) :=
  (List.range (P - 1)).map (allgatherTurn call a r)

theorem roundsProc_allgatherTurns (r : Fin P) :
    roundsProc (allgatherRounds call a) r =
      turnsProc (allgatherTurns (α := α) (β := β) call a r) := by
  simp only [roundsProc, turnsProc, allgatherRounds, allgatherTurns, List.forM_eq_forM,
    List.forM_map]
  rfl

/-- Neighbours whose first message had the expected length passed the same count. -/
theorem sendCount_eq_prev (hP : 2 ≤ P) (hshort : ∀ r, P * (a r).sendCount * 4 < 2 ^ 32) {q : Fin P}
    {m : ℕ} (hm : 1 ≤ m)
    (h : (((allgatherTurns (α := α) (β := β) call a q).take m).map fun t => t.part.expected) <+:
      (allgatherTurns (α := α) (β := β) call a (prev q)).map fun t => t.wr.length) :
    (a q).sendCount = (a (prev q)).sendCount := by
  have hbytes : ∀ r, (a r).sendCount * 4 < 2 ^ 32 := by
    intro r
    have hle : (a r).sendCount * 4 ≤ P * ((a r).sendCount * 4) :=
      Nat.le_mul_of_pos_left _ (by omega)
    rw [← Nat.mul_assoc] at hle
    exact hle.trans_lt (hshort r)
  have hfirst : ∀ r, (allgatherTurns (α := α) (β := β) call a r)[0]? =
      some (allgatherTurn call a r 0) := by
    intro r
    simp [allgatherTurns, List.getElem?_range (show 0 < P - 1 by omega)]
  have hlen := expected_eq_length h (show 0 < m by omega) (hfirst q) (hfirst (prev q))
  simp only [allgatherTurn, workRequest, szMul] at hlen
  have hq := hbytes q
  have hq' := hbytes (prev q)
  omega

end Turns

/-- Whatever send counts the ranks pass, also zero: when a rank returns from `allgather`, in any
run, all ranks passed the same. -/
theorem allgather_returned_counts_agree (cap : Fin P → Fin P → ℕ) (hP : 2 ≤ P) (call : ℕ)
    (a : Fin P → AllgatherArgs) (hshort : ∀ r, P * (a r).sendCount * 4 < 2 ^ 32)
    (hfit : ∀ r, P * (a r).sendCount * 4 ≤ (a r).mr.length) (l : Fin P → Local α β)
    {s : Fin P → RankState P α β Unit}
    (hs : Reaches (fabric P α β Unit cap) (start (fun r => allgather r call (a r)) l) s)
    {r : Fin P} (hr : (s r).proc = .pure ()) (q : Fin P) :
    (a q).sendCount = (a r).sendCount := by
  have hhist : ∀ q, Hist (Kept (allgatherTurns (α := α) (β := β) call a q))
      (fun _ _ ws => (allgatherTurns (α := α) (β := β) call a q).map Turn.passed <+: ws)
      (allgather (α := α) (β := β) q call (a q)) [] [] := by
    intro q
    rw [allgather_eq call a q (hfit q), roundsProc_allgatherTurns]
    exact turns_hist [] (allgatherTurns call a q)
  apply eq_of_returned hhist hs (m := P - 1) (n := 1) ?_ ?_ (by omega) ?_ hr q
  · intro q t ht
    obtain ⟨step, -, rfl⟩ := List.mem_map.mp ht
    rfl
  · intro q
    simp [allgatherTurns]
  · intro q k hk h
    exact sendCount_eq_prev call a hP hshort hk h

/-- Three ranks with two elements each, in regions of different length. -/
theorem allgather_returned_counts_agree_three_ranks :
    ∃ s, Reaches (fabric 3 ℕ Unit Unit fun _ _ => 1)
      (start (fun r => allgather r 0 ⟨⟨0, 24 + 4 * r⟩, 0, 2, .int32⟩)
        fun r => ⟨fun _ i => 10 * r + i, ()⟩) s ∧
      (s 0).proc = .pure () ∧ ∀ q : Fin 3, (AllgatherArgs.mk ⟨0, 24 + 4 * q⟩ 0 2 .int32).sendCount =
        (AllgatherArgs.mk ⟨0, 24⟩ 0 2 .int32).sendCount := by
  have hready : AllgatherReady (P := 3) (fun r => ⟨⟨0, 24 + 4 * r⟩, 0, 2, .int32⟩) 2 := by
    constructor <;> decide
  obtain ⟨s, hs, hret⟩ := allgather_settles hready (fun _ _ => 1) 0
    (fun r => ⟨fun _ i => 10 * r + i, ()⟩) .refl
  refine ⟨s, hs, hret 0, fun q => ?_⟩
  exact allgather_returned_counts_agree (fun _ _ => 1) (by decide) 0
    (fun r => ⟨⟨0, 24 + 4 * r⟩, 0, 2, .int32⟩) (by decide) (by decide) _ hs (hret 0) q

end MicroCcl

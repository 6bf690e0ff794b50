import MicroCcl.Lockstep
import MicroCcl.RingMemory

namespace MicroCcl
open Network

variable {P : ℕ} {α β A : Type} {cap : Fin P → Fin P → ℕ}

/-- The range of the request is inside the region `mr`. -/
def Wr.Inside (wr : Wr) (mr : MemoryRegion) : Prop :=
  wr.mr = mr ∧ wr.buf = mr.addr ∧ wr.off + wr.length ≤ mr.length

/-- The range of the request is inside a region that the call was given on rank `r`. `broadcast`
does not look at the length of its region and asks for all its bytes from the start. -/
def Call.Covers (r : Fin P) (wr : Wr) : Call P → Prop
  | .allreduceRing a | .allreduceRecursiveDoubling a =>
    wr.Inside (a r).dataMr ∨ wr.Inside (a r).scratchMr
  | .allgather a => wr.Inside (a r).mr
  | .broadcast a _ => wr.mr = (a r).mr ∧ wr.buf = (a r).mr.addr ∧ wr.off = 0 ∧
    wr.length = szMul (a r).count 4 % 2 ^ 32
  | .barrier => False

section Steps

variable {ops : Ops α} {call : ℕ} {r : Fin P}

variable (hP : 2 ≤ P)
include hP

end Steps

section Programs

variable {ops : Ops α} {r : Fin P}

theorem Call.proc_of_not_guards {c : Call P}
    (hcount : ∀ a, c = .allreduceRing a → (a r).count < 2 ^ 64) (hc : ¬ c.Guards r) (call : ℕ) :
    ∃ e, c.proc (β := β) ops r call = .throw e := by
  cases c with
  | allreduceRing a =>
    have hlt := hcount a rfl
    exact (allreduceRing_throws_iff ops r call hlt).mpr fun hg => hc ⟨hlt, hg⟩
  | allreduceRecursiveDoubling a => exact allreduceRecursiveDoubling_refuses ops r call (a r) hc
  | allgather a => exact allgather_refuses r call (a r) hc
  | broadcast a root =>
    refine ⟨.invalidArgument "broadcast: root out of range", ?_⟩
    have hroot : root < 0 ∨ root ≥ P := by
      by_contra hin
      exact hc ⟨by omega, by omega⟩
    rw [Call.proc, MicroCcl.broadcast, if_pos hroot]
  | barrier => exact absurd trivial hc

end Programs

end MicroCcl

import MicroCcl.AllreduceRing
import MicroCcl.RecursiveDoubling
import MicroCcl.Allgather
import MicroCcl.Broadcast
import MicroCcl.Communicator

namespace MicroCcl
open Network

/-- A collective call with the arguments of every rank. -/
inductive Call (P : ℕ) where
  | allreduceRing (a : Fin P → AllreduceArgs)
  | allreduceRecursiveDoubling (a : Fin P → AllreduceArgs)
  | allgather (a : Fin P → AllgatherArgs)
  | broadcast (a : Fin P → BroadcastArgs) (root : ℤ)
  | barrier

variable {P : ℕ} {α β A : Type}

def Call.proc (ops : Ops α) (R : Fin P) (call : ℕ) : Call P → Proc P α β Unit
  | .allreduceRing a => MicroCcl.allreduceRing ops R call (a R)
  | .allreduceRecursiveDoubling a => MicroCcl.allreduceRecursiveDoubling ops R call (a R)
  | .allgather a => MicroCcl.allgather R call (a R)
  | .broadcast a root => MicroCcl.broadcast R call (a R) root
  | .barrier => MicroCcl.barrier R call

def program (ops : Ops α) (R : Fin P) : ℕ → List (Call P) → Proc P α β Unit
  | _, [] => .pure ()
  | call, c :: cs => c.proc ops R call >>= fun _ => program ops R (call + 1) cs

/-- The ranks agree on the arguments, the guards pass, and messages are short. -/
def Call.Ready : Call P → Prop
  | .allreduceRing a =>
    ∃ count dtype op, MicroCcl.Ready a count dtype op ((count + P - 1) / P)
  | .allreduceRecursiveDoubling a =>
    (∃ m, P = 2 ^ m) ∧ ∃ count dtype op, MicroCcl.Ready a count dtype op count
  | .allgather a => ∃ sendCount, AllgatherReady a sendCount
  | .broadcast a root => (∃ r : Fin P, root = r.val) ∧ ∃ count, BroadcastReady a count
  | .barrier => True

/-- Every element of the data is what `value` says; scratch is left open and nothing
else changes. -/
def AllreduceSpec (a : Fin P → AllreduceArgs) (value : (Fin P → α) → ℕ → Fin P → α → Prop)
    (l l' : Fin P → Local α β) : Prop :=
  ∀ r, (l' r).vars = (l r).vars ∧
    (∀ i < (a r).count, value (fun q => (l q).mem (a q).data i) i r ((l' r).mem (a r).data i)) ∧
    ∀ b i, b ≠ (a r).scratch → (b = (a r).data → (a r).count ≤ i) →
      (l' r).mem b i = (l r).mem b i

def Call.Spec (ops : Ops α) (l l' : Fin P → Local α β) : Call P → Prop
  | .allreduceRing a => AllreduceSpec a (fun x i r y => ∀ c : Fin P, InChunk (a r).count P c i →
      y = ringFold (ops (a r).dtype (a r).op) x c (P - 1)) l l'
  | .allreduceRecursiveDoubling a => AllreduceSpec a (fun x _ r y => ∀ m, P = 2 ^ m →
      y = xorTree (ops (a r).dtype (a r).op) x m r) l l'
  | .allgather a => ∀ r, (l' r).vars = (l r).vars ∧
      (∀ s : Fin P, ∀ j < (a r).sendCount, (l' r).mem (a r).buf (s * (a r).sendCount + j) =
        (l s).mem (a s).buf (s * (a r).sendCount + j)) ∧
      ∀ b i, (b = (a r).buf → P * (a r).sendCount ≤ i) → (l' r).mem b i = (l r).mem b i
  | .broadcast a root => ∀ r, (l' r).vars = (l r).vars ∧ ∀ q : Fin P, root = q.val →
      (∀ i < (a r).count, (l' r).mem (a r).buf i = (l q).mem (a q).buf i) ∧
      ∀ b i, (r = q ∨ (b = (a r).buf → (a r).count ≤ i)) → (l' r).mem b i = (l r).mem b i
  | .barrier => l' = l

def programSpec (ops : Ops α) : List (Call P) → (Fin P → Local α β) → (Fin P → Local α β) → Prop
  | [], l, l' => l' = l
  | c :: cs, l, l'' => ∃ l', c.Spec ops l l' ∧ programSpec ops cs l' l''

theorem Call.Ready.leads {cap : Fin P → Fin P → ℕ} (hcap : ∀ i j, 0 < cap i j) {c : Call P}
    (hc : c.Ready) (ops : Ops α) (call : ℕ) (l : Fin P → Local α β) :
    ∃ l', c.Spec ops l l' ∧ ∀ k : Fin P → Proc P α β A,
      Leads cap (fun r => c.proc ops r call >>= fun _ => k r) l k l' := by
  cases c with
  | allreduceRing a =>
    obtain ⟨count, dtype, op, h⟩ := hc
    refine ⟨_, fun r => ⟨ringRounds_vars ops call a l r, fun i _ c hin => ?_, fun b i hb hi => ?_⟩,
      fun k => allreduceRing_leads h ops call k l⟩
    · rw [h.dtype_eq, h.op_eq]
      exact ringRounds_data h ops call l r c (h.count_eq r ▸ hin)
    · exact ringRounds_frame h ops call l r hb (h.count_eq r ▸ hi)
  | allreduceRecursiveDoubling a =>
    obtain ⟨⟨m, hP⟩, count, dtype, op, h⟩ := hc
    refine ⟨_, fun r => ⟨doublingRounds_vars ops call a m l r, fun i hi m' hP' => ?_,
      fun b i hb hi => ?_⟩, fun k => allreduceRecursiveDoubling_leads hP h ops call k l⟩
    · obtain rfl := Nat.pow_right_injective le_rfl (hP.symm.trans hP')
      rw [h.dtype_eq, h.op_eq]
      exact doublingRounds_data hP h ops call l le_rfl r (h.count_eq r ▸ hi)
    · exact doublingRounds_frame hP h ops call l r hb (h.count_eq r ▸ hi)
  | allgather a =>
    obtain ⟨n, h⟩ := hc
    refine ⟨_, fun r => ⟨allgatherRounds_vars call a l r, fun s j hj => ?_, fun b i hi => ?_⟩,
      fun k => ?_⟩
    · rw [h.count_eq] at hj ⊢
      exact allgatherRounds_data h call l r s hj
    · exact allgatherRounds_frame h call l r (h.count_eq r ▸ hi)
    · simp only [Call.proc, h.allgather_eq]
      exact rounds_leads (allgatherRounds_matched h call) k l
  | broadcast a root =>
    obtain ⟨⟨root, rfl⟩, count, h⟩ := hc
    refine ⟨_, fun r => ⟨broadcastRounds_vars call a root l r, fun q hq => ⟨fun i hi => ?_,
      fun b i hi => ?_⟩⟩, fun k => ?_⟩
    · obtain rfl : root = q := Fin.ext (by omega)
      exact broadcastRounds_data h call root l r (h.count_eq r ▸ hi)
    · obtain rfl : root = q := Fin.ext (by omega)
      exact broadcastRounds_frame h call root l r (h.count_eq r ▸ hi)
    · simp only [Call.proc, broadcast_eq]
      exact rounds_leads (broadcastRounds_matched h call root) k l
  | barrier => exact ⟨l, rfl, fun k => barrier_leads hcap call k l⟩

theorem Call.Ready.disciplined {c : Call P} (hc : c.Ready) (ops : Ops α) (call : ℕ) (r : Fin P) :
    Disciplined none none (c.proc (β := β) ops r call) := by
  cases c with
  | allreduceRing a =>
    obtain ⟨count, dtype, op, h⟩ := hc
    exact allreduceRing_disciplined h ops call r
  | allreduceRecursiveDoubling a =>
    obtain ⟨⟨m, hP⟩, count, dtype, op, h⟩ := hc
    exact allreduceRecursiveDoubling_disciplined hP h ops call r
  | allgather a =>
    obtain ⟨n, h⟩ := hc
    exact allgather_disciplined h call r
  | broadcast a root =>
    obtain ⟨⟨root, rfl⟩, count, h⟩ := hc
    rw [Call.proc, broadcast_eq]
    exact rounds_disciplined (fun G hG => (broadcastRounds_matched h call root G hG).apart) r
  | barrier => exact (barrier_socketOnly r call).disciplined

theorem program_leads {cap : Fin P → Fin P → ℕ} (hcap : ∀ i j, 0 < cap i j) {cs : List (Call P)}
    (hcs : ∀ c ∈ cs, c.Ready) (ops : Ops α) (call : ℕ) (l : Fin P → Local α β) :
    ∃ l', programSpec ops cs l l' ∧
      Leads cap (fun r => program ops r call cs) l (fun _ => .pure ()) l' := by
  induction cs generalizing call l with
  | nil => exact ⟨l, rfl, Leads.refl _ _⟩
  | cons c cs ih =>
    obtain ⟨l', hspec, hleads⟩ := (hcs c (by simp)).leads hcap ops call l
    obtain ⟨l'', hspec', hleads'⟩ := ih (fun d hd => hcs d (by simp [hd])) (call + 1) l'
    exact ⟨l'', ⟨l', hspec, hspec'⟩, (hleads _).trans hleads'⟩

theorem program_disciplined {cs : List (Call P)} (hcs : ∀ c ∈ cs, c.Ready) (ops : Ops α)
    (call : ℕ) (r : Fin P) : Disciplined none none (program (β := β) ops r call cs) := by
  induction cs generalizing call with
  | nil => exact ⟨rfl, rfl⟩
  | cons c cs ih =>
    exact ((hcs c (by simp)).disciplined ops call r).bind fun _ =>
      ih (fun d hd => hcs d (by simp [hd])) (call + 1)

/-- Whatever the skew between the ranks, every message and every byte is taken by the call
and step it was meant for, no rank throws, and a rank that has finished holds what the
specifications of the calls give one after another. -/
theorem program_correct (cap : Fin P → Fin P → ℕ) (hcap : ∀ i j, 0 < cap i j) {cs : List (Call P)}
    (hcs : ∀ c ∈ cs, c.Ready) (ops : Ops α) (x : Fin P → Local α β) :
    ∃ x', programSpec ops cs x x' ∧ ∀ s,
      Reaches (fabric P α β Unit cap) (start (fun r => program ops r 0 cs) x) s →
      (∀ r, ∀ e ∈ (s r).log, e.2.1.tag = e.2.2.tag) ∧
      (∀ r, ∀ e ∈ (s r).byteLog, e.2.1 = e.2.2) ∧
      (∀ r, (s r).proc = .pure () → (s r).loc = x' r) ∧
      ∀ r e, (s r).proc ≠ .throw e := by
  obtain ⟨x', hspec, hleads⟩ := program_leads hcap hcs ops 0 x
  have hd := fun r => program_disciplined (β := β) hcs ops 0 r
  refine ⟨x', hspec, fun s hs => ⟨fun r => (hleads.matched hd hs r).1,
    fun r => (hleads.matched hd hs r).2, fun r hr => (hleads.result hd hs hr).2,
    hleads.never_throws hd hs⟩⟩

/-- Two ranks add up three elements, meet, and copy what rank 1 has. -/
def sumMeetCopy : List (Call 2) :=
  [.allreduceRing fun _ => ⟨⟨0, 12⟩, 0, 3, .int32, .sum, ⟨1, 8⟩, 1, 2⟩, .barrier,
    .broadcast (fun _ => ⟨⟨0, 12⟩, 0, 3, .int32⟩) 1]

theorem sumMeetCopy_ready : ∀ c ∈ sumMeetCopy, c.Ready := by
  simp only [sumMeetCopy, List.mem_cons, List.not_mem_nil, or_false, forall_eq_or_imp, forall_eq]
  refine ⟨⟨3, .int32, .sum, ?_⟩, trivial, ⟨1, rfl⟩, 3, ?_⟩
  · constructor <;> decide
  · constructor <;> decide

theorem program_correct_sumMeetCopy :
    ∃ x' : Fin 2 → Local ℕ Unit, (x' 0).mem 0 0 = 10 ∧ ∀ s,
      Reaches (fabric 2 ℕ Unit Unit fun _ _ => 1)
        (start (fun r => program (fun _ _ u v => u + v) r 0 sumMeetCopy)
          fun r => ⟨fun _ i => 10 * r + i, ()⟩) s →
      ∀ r, (s r).proc = .pure () → (s r).loc = x' r := by
  obtain ⟨x', ⟨l, hring, l', rfl, l'', hcopy, rfl⟩, hrun⟩ :=
    program_correct (fun _ _ => 1) (fun _ _ => Nat.one_pos) sumMeetCopy_ready
      (fun _ _ u v => u + v) fun r => (⟨fun _ i => 10 * r + i, ()⟩ : Local ℕ Unit)
  refine ⟨_, ?_, fun s hs => (hrun s hs).2.2.1⟩
  have hroot := ((hcopy 0).2 1 rfl).1 0 (by decide)
  exact hroot.trans ((hring 1).2.1 0 (by decide) 0 (by decide))

/-- As long as some rank has not finished, some step is possible, and all ranks can still
finish. -/
theorem program_never_stuck (cap : Fin P → Fin P → ℕ) (hcap : ∀ i j, 0 < cap i j)
    {cs : List (Call P)} (hcs : ∀ c ∈ cs, c.Ready) (ops : Ops α) (x : Fin P → Local α β)
    {s : Fin P → RankState P α β Unit}
    (hs : Reaches (fabric P α β Unit cap) (start (fun r => program ops r 0 cs) x) s) :
    ((∃ r, (s r).proc ≠ .pure ()) → ∃ s', Step (fabric P α β Unit cap) s s') ∧
      ∃ e, Reaches (fabric P α β Unit cap) s e ∧ ∀ r, (e r).proc = .pure () := by
  obtain ⟨x', -, hleads⟩ := program_leads hcap hcs ops 0 x
  have hd := fun r => program_disciplined (β := β) hcs ops 0 r
  refine ⟨?_, ?_⟩
  · rintro ⟨r, hr⟩
    exact hleads.never_stuck hd hs (r := r) fun _ => hr
  · obtain ⟨e, he, hq⟩ := hleads.settles hd hs
    exact ⟨e, he, fun r => (hq r).proc⟩

theorem program_never_stuck_sumMeetCopy :
    ∃ e, Reaches (fabric 2 ℕ Unit Unit fun _ _ => 1)
      (start (fun r => program (fun _ _ u v => u + v) r 0 sumMeetCopy)
        fun r => ⟨fun _ i => 10 * r + i, ()⟩) e ∧ ∀ r, (e r).proc = .pure () :=
  (program_never_stuck (fun _ _ => 1) (fun _ _ => Nat.one_pos) sumMeetCopy_ready
    (fun _ _ u v => u + v) (fun r => ⟨fun _ i => 10 * r + i, ()⟩) .refl).2

end MicroCcl

import MicroCcl.Benchmark
import MicroCcl.Pingpong
import MicroCcl.Schedules

namespace MicroCcl
open Network

variable {P : ℕ} {α β A : Type}

/-- A socket that holds more does what it did before. -/
theorem inpStep_mono {n n' : ℕ} (hn : n ≤ n') {st t : RankState P α β A} {p : Fin P} {c : Chan}
    {m : Msg α} {a : WcStatus} (h : inpStep n st p c m = some (a, t)) :
    inpStep n' st p c m = some (a, t) := by
  cases c with
  | rdma => cases m <;> exact h
  | tcp =>
    obtain ⟨b, tg, rfl, hlt, rfl, rfl⟩ := inpStep_tcp_cases h
    simp [inpStep, hlt.trans_le hn]

theorem step_mono {cap cap' : Fin P → Fin P → ℕ} (hcap : ∀ i j, cap i j ≤ cap' i j)
    {s t : Fin P → RankState P α β A} (h : Step (fabric P α β A cap) s t) :
    Step (fabric P α β A cap') s t := by
  cases h with
  | act r l h => exact .act (N := fabric P α β A cap') r l h
  | comm i j c hij ho hi =>
    exact .comm (N := fabric P α β A cap') i j c hij ho (inpStep_mono (hcap j i) hi)

/-- However the ranks are scheduled and however little the sockets hold, the run stops after the
same number of steps in the same state, and `Q` holds there. To poll a completion queue that is
empty is no step. -/
def AlwaysEnds (s : Fin P → RankState P α β A) (Q : (Fin P → RankState P α β A) → Prop) : Prop :=
  ∃ n e, Q e ∧ ∀ cap, (∀ i j, 0 < cap i j) → EndsIn (fabric P α β A cap) s n e

section Ends

variable {p p' : Fin P → Proc P α β A} {l l' : Fin P → Local α β}
  {Q Q' : (Fin P → RankState P α β A) → Prop}

theorem AlwaysEnds.mono {s : Fin P → RankState P α β A} (h : AlwaysEnds s Q)
    (hQ : ∀ e, Q e → Q' e) : AlwaysEnds s Q' := by
  obtain ⟨n, e, he, hends⟩ := h
  exact ⟨n, e, hQ e he, hends⟩

/-- No run goes on forever, and where one can go no further `Q` holds. -/
theorem AlwaysEnds.stops {s : Fin P → RankState P α β A} (h : AlwaysEnds s Q)
    {cap : Fin P → Fin P → ℕ} (hcap : ∀ i j, 0 < cap i j) :
    (∀ f : ℕ → Fin P → RankState P α β A, f 0 = s →
      ¬ ∀ i, Step (fabric P α β A cap) (f i) (f (i + 1))) ∧
    ∀ t, Reaches (fabric P α β A cap) s t → Final (fabric P α β A cap) t → Q t := by
  obtain ⟨n, e, hQ, hends⟩ := h
  refine ⟨fun f hf => (hends cap hcap).not_infinite hf, fun t ht hfin => ?_⟩
  obtain ⟨k, hrun⟩ := Run.of_reaches ht
  rwa [(hends cap hcap).eq_of_final hrun hfin]

variable (hp : ∀ r, Disciplined none none (p r))
include hp

/-- One run with the smallest sockets is enough. -/
theorem alwaysEnds_of_halted {e : Fin P → RankState P α β A}
    (he : Reaches (fabric P α β A fun _ _ => 1) (start p l) e) (hend : ∀ r, Halted (e r))
    (hQ : Q e) : AlwaysEnds (start p l) Q := by
  obtain ⟨n, hrun⟩ := Run.of_reaches he
  refine ⟨n, e, hQ, fun cap hcap => ?_⟩
  exact (fabric_lawful cap).endsIn_of_run (start_orderly hp) (hrun.mono (step_mono hcap))
    (final_of_halted hend)

theorem Leads.alwaysEnds (h : Leads (fun _ _ => 1) p l p' l')
    (hp' : ∀ r, (∃ a, p' r = .pure a) ∨ ∃ x, p' r = .throw x) :
    AlwaysEnds (start p l) fun e => ∀ r, (e r).proc = p' r ∧ (e r).loc = l' r := by
  obtain ⟨e, he, hq⟩ := h _ (start_quiet p l)
  refine alwaysEnds_of_halted hp he (fun r => ⟨?_, (hq r).sendQ, (hq r).acks⟩) fun r =>
    ⟨(hq r).proc, (hq r).loc⟩
  rw [(hq r).proc]
  rcases hp' r with ha | hx
  · exact Or.inl ha
  · exact Or.inr (Or.inl hx)

end Ends

theorem session_ends (hlen : P * (P - 1) < 2 ^ 32) (E : Setup P) {ws : List (Work P α)}
    (hws : ∀ w ∈ ws, w.Ready) (ops : Ops α) (m : Fin P → Mem α) :
    AlwaysEnds (startSession E ops ws m) fun e => (∀ r, (e r).proc = .pure ()) ∧
      worksSpec ops ws (fun r => wire E r ⟨m r, Comm.empty⟩) fun r => (e r).loc := by
  obtain ⟨l', hspec, hleads⟩ := session_leads (fun _ _ => Nat.one_pos) hlen E hws ops fun r =>
    (⟨m r, Comm.empty⟩ : Local α (Comm P))
  have hends := hleads.alwaysEnds (fun r => session_disciplined E hws ops r) fun r =>
    Or.inl ⟨(), rfl⟩
  refine hends.mono fun e he => ⟨fun r => (he r).1, ?_⟩
  have hloc : (fun r => (e r).loc) = l' := funext fun r => (he r).2
  rwa [hloc]

/-- A session in which all ranks meet before their first collective. All its runs are of one length,
for all schedules and all sizes of the socket buffers, and stop where all ranks have returned, with
what the calls and the work of the ranks give one after another. None goes on forever, and no rank
posts anything before all queue pairs are in RTS. Connections do not break. -/
theorem session_always_ends (hlen : P * (P - 1) < 2 ^ 32) (E : Setup P) {ws : List (Work P α)}
    (hws : ∀ w ∈ ws, w.Ready) (hmeets : MeetsFirst ws) (ops : Ops α) (m : Fin P → Mem α) :
    (AlwaysEnds (startSession E ops ws m) fun e => (∀ r, (e r).proc = .pure ()) ∧
      worksSpec ops ws (fun r => wire E r ⟨m r, Comm.empty⟩) fun r => (e r).loc) ∧
    ∀ cap : Fin P → Fin P → ℕ, (∀ i j, 0 < cap i j) →
      (∀ f : ℕ → Fin P → RankState P α (Comm P) Unit, f 0 = startSession E ops ws m →
        ¬ ∀ i, Step (fabric P α (Comm P) Unit cap) (f i) (f (i + 1))) ∧
      ∀ s, Reaches (fabric P α (Comm P) Unit cap) (startSession E ops ws m) s →
        (Final (fabric P α (Comm P) Unit cap) s → ∀ r, (s r).proc = .pure ()) ∧
        ∀ r, (s r).HasPosted → ∀ x q, q ≠ x →
          ∃ qp, (s x).loc.vars.qps q = some qp ∧ qp.state = .rts := by
  have hends := session_ends hlen E hws ops m
  refine ⟨hends, fun cap hcap => ⟨(hends.stops hcap).1, fun s hs =>
    ⟨fun hfin => ?_, fun r hr => ?_⟩⟩⟩
  · exact ((hends.stops hcap).2 s hs hfin).1
  · exact session_connected cap hcap hlen E hws hmeets ops m hs hr

theorem session_always_ends_fillMeetSum :
    AlwaysEnds (startSession twoPorts (fun _ _ u v => u + v) fillMeetSum fun _ _ _ => 0) fun e =>
      ∀ r, (e r).proc = .pure () :=
  (session_always_ends (by decide) twoPorts fillMeetSum_ready rfl (fun _ _ u v => u + v)
    fun _ _ _ => 0).1.mono fun _ he => he.1

/-- Where nothing is undefined, every run of the example stops after the same number of steps. From
4 GiB on it does so with rank 0 still waiting, whatever the schedule. That the first message waits
for the queue pair of rank 1 is assumed. -/
theorem pingpong_always_ends (E : Setup 2) (ub : Fin 2 → Proc 2 UInt8 (Comm 2) Unit) {size : ℕ}
    {warmup iters : ℤ} (hdef : Pingpong.Defined size warmup iters) (m : Fin 2 → Mem UInt8) :
    AlwaysEnds (Pingpong.startMain E ub size warmup iters m) fun e =>
      ∀ r, Pingpong.AtEnd size warmup iters m r (e r) := by
  obtain ⟨e, he, hend⟩ := Pingpong.main_ends (fun _ _ => Nat.one_pos) E hdef m
  exact alwaysEnds_of_halted (Pingpong.main_disciplined E hdef) he (fun r => (hend r).halted) hend

theorem pingpong_always_ends_defaults :
    AlwaysEnds (Pingpong.startMain twoPorts (fun _ => .pure ()) 4096 100 1000 fun _ _ _ => 0)
      fun e => ∀ r, (e r).proc = .pure () := by
  have hdef : Pingpong.Defined 4096 100 1000 := Or.inr (Or.inr (by decide))
  exact (pingpong_always_ends twoPorts (fun _ => .pure ()) hdef fun _ _ _ => 0).mono
    fun e he r => (he r).ends

end MicroCcl

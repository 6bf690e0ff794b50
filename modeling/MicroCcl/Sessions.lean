import MicroCcl.Barrier
import MicroCcl.Outcomes
import MicroCcl.Posting
import MicroCcl.Programs

namespace MicroCcl
open Network

variable {P : ℕ} {α β A B : Type}

/-- Something all ranks do next. A barrier is one of the calls. -/
inductive Work (P : ℕ) (α : Type) where
  | call (c : Call P)
  | touch (f : Fin P → Mem α → Mem α)

/-- A call over a communicator that counts its barriers. -/
def countedCall (ops : Ops α) (R : Fin P) (call round : ℕ) : Call P → Proc P α (Comm P) Unit
  | .barrier => .upd enter (barrier R round >>= fun _ => .upd leave (.pure ()))
  | c => c.proc ops R call

def nextRound (round : ℕ) : Call P → ℕ
  | .barrier => round + 1
  | _ => round

def Work.proc (ops : Ops α) (R : Fin P) (call round : ℕ) : Work P α → Proc P α (Comm P) Unit
  | .call c => countedCall ops R call round c
  | .touch f => .upd (fun l => { l with mem := f R l.mem }) (.pure ())

def works (ops : Ops α) (R : Fin P) : ℕ → ℕ → List (Work P α) → Proc P α (Comm P) Unit
  | _, _, [] => .pure ()
  | call, round, .call c :: ws =>
    (Work.call c).proc ops R call round >>= fun _ => works ops R (call + 1) (nextRound round c) ws
  | call, round, .touch f :: ws =>
    (Work.touch f).proc ops R call round >>= fun _ => works ops R (call + 1) round ws

/-- The communicator is made in round 0 of the bootstrap streams. -/
def session (E : Setup P) (ops : Ops α) (R : Fin P) (ws : List (Work P α)) :
    Proc P α (Comm P) Unit :=
  communicator E R >>= fun _ => works ops R 0 1 ws

def startSession (E : Setup P) (ops : Ops α) (ws : List (Work P α)) (m : Fin P → Mem α) :
    Fin P → RankState P α (Comm P) Unit :=
  start (fun r => session E ops r ws) fun r => ⟨m r, Comm.empty⟩

def Work.Ready : Work P α → Prop
  | .call c => c.Ready
  | .touch _ => True

def Work.Spec (ops : Ops α) (l l' : Fin P → Local α (Comm P)) : Work P α → Prop
  | .call .barrier => l' = fun r => leave (enter (l r))
  | .call c => c.Spec ops l l'
  | .touch f => l' = fun r => { l r with mem := f r (l r).mem }

def worksSpec (ops : Ops α) :
    List (Work P α) → (Fin P → Local α (Comm P)) → (Fin P → Local α (Comm P)) → Prop
  | [], l, l' => l' = l
  | w :: ws, l, l'' => ∃ l', w.Spec ops l l' ∧ worksSpec ops ws l' l''

theorem worksSpec_append {ops : Ops α} {ws vs : List (Work P α)}
    {l l'' : Fin P → Local α (Comm P)} :
    worksSpec ops (ws ++ vs) l l'' ↔ ∃ l', worksSpec ops ws l l' ∧ worksSpec ops vs l' l'' := by
  induction ws generalizing l with
  | nil => simp [worksSpec]
  | cons w ws ih =>
    constructor
    · rintro ⟨l₁, hw, h⟩
      obtain ⟨l', hws, hvs⟩ := ih.mp h
      exact ⟨l', ⟨l₁, hw, hws⟩, hvs⟩
    · rintro ⟨l', ⟨l₁, hw, hws⟩, hvs⟩
      exact ⟨l₁, hw, ih.mpr ⟨l', hws, hvs⟩⟩

theorem countedCall_of_ne {c : Call P} (hc : c ≠ .barrier) (ops : Ops α) (R : Fin P)
    (call round : ℕ) : countedCall ops R call round c = c.proc ops R call := by
  cases c with
  | barrier => exact absurd rfl hc
  | _ => rfl

theorem nextRound_of_ne {c : Call P} (hc : c ≠ .barrier) (round : ℕ) :
    nextRound round c = round := by
  cases c with
  | barrier => exact absurd rfl hc
  | _ => rfl

theorem Work.spec_of_ne {c : Call P} (hc : c ≠ .barrier) (ops : Ops α)
    (l l' : Fin P → Local α (Comm P)) : (Work.call c).Spec ops l l' = c.Spec ops l l' := by
  cases c with
  | barrier => exact absurd rfl hc
  | _ => rfl

theorem Work.Ready.leads {cap : Fin P → Fin P → ℕ} (hcap : ∀ i j, 0 < cap i j) {w : Work P α}
    (hw : w.Ready) (ops : Ops α) (call round : ℕ) (l : Fin P → Local α (Comm P)) :
    ∃ l', w.Spec ops l l' ∧ ∀ k : Fin P → Proc P α (Comm P) A,
      Leads cap (fun r => w.proc ops r call round >>= fun _ => k r) l k l' := by
  cases w with
  | touch f => exact ⟨_, rfl, fun k => upd_leads (fun r l => { l with mem := f r l.mem }) k l⟩
  | call c =>
    by_cases hc : c = .barrier
    · subst c
      refine ⟨_, rfl, fun k => ?_⟩
      have henter : Leads cap _ l _ _ := upd_leads (fun _ => enter)
        (fun r => barrier r round >>= fun _ => .upd leave (k r)) l
      have hmeet := barrier_leads hcap round (fun r => Proc.upd leave (k r)) fun r => enter (l r)
      have hleave : Leads cap _ (fun r => enter (l r)) _ _ := upd_leads (fun _ => leave) k
        fun r => enter (l r)
      simpa only [Work.proc, countedCall, Proc.upd_bind, bind_assoc, Proc.pure_bind'] using
        (henter.trans hmeet).trans hleave
    · obtain ⟨l', hspec, hleads⟩ := Call.Ready.leads (A := A) hcap hw ops call l
      refine ⟨l', by rwa [Work.spec_of_ne hc], fun k => ?_⟩
      simpa only [Work.proc, countedCall_of_ne hc] using hleads k

theorem Work.Ready.disciplined {w : Work P α} (hw : w.Ready) (ops : Ops α) (R : Fin P)
    (call round : ℕ) : Disciplined none none (w.proc ops R call round) := by
  cases w with
  | touch f => exact ⟨rfl, rfl, rfl, rfl⟩
  | call c =>
    by_cases hc : c = .barrier
    · subst c
      exact ⟨rfl, rfl, (barrier_socketOnly R round).disciplined.bind fun _ => ⟨rfl, rfl, rfl, rfl⟩⟩
    · rw [Work.proc, countedCall_of_ne hc]
      exact Call.Ready.disciplined hw ops call R

def roundAfter (round : ℕ) : List (Work P α) → ℕ
  | [] => round
  | .call c :: ws => roundAfter (nextRound round c) ws
  | .touch _ :: ws => roundAfter round ws

theorem works_append_leads {cap : Fin P → Fin P → ℕ} (hcap : ∀ i j, 0 < cap i j)
    {ws : List (Work P α)} (hws : ∀ w ∈ ws, w.Ready) (ops : Ops α) (call round : ℕ)
    (vs : List (Work P α)) (l : Fin P → Local α (Comm P)) :
    ∃ l', worksSpec ops ws l l' ∧ Leads cap (fun r => works ops r call round (ws ++ vs)) l
      (fun r => works ops r (call + ws.length) (roundAfter round ws) vs) l' := by
  induction ws generalizing call round l with
  | nil => exact ⟨l, rfl, Leads.refl _ _⟩
  | cons w ws ih =>
    have hrest := fun v hv => hws v (List.mem_cons_of_mem w hv)
    obtain ⟨l', hspec, hleads⟩ :=
      Work.Ready.leads (A := Unit) hcap (hws w (by simp)) ops call round l
    have hcall : call + 1 + ws.length = call + (w :: ws).length := by
      rw [List.length_cons]
      omega
    cases w with
    | call c =>
      obtain ⟨l'', hspec', hleads'⟩ := ih hrest (call + 1) (nextRound round c) l'
      rw [hcall] at hleads'
      exact ⟨l'', ⟨l', hspec, hspec'⟩, (hleads _).trans hleads'⟩
    | touch f =>
      obtain ⟨l'', hspec', hleads'⟩ := ih hrest (call + 1) round l'
      rw [hcall] at hleads'
      exact ⟨l'', ⟨l', hspec, hspec'⟩, (hleads _).trans hleads'⟩

theorem works_disciplined {ws : List (Work P α)} (hws : ∀ w ∈ ws, w.Ready) (ops : Ops α)
    (R : Fin P) (call round : ℕ) : Disciplined none none (works ops R call round ws) := by
  induction ws generalizing call round with
  | nil => exact ⟨rfl, rfl⟩
  | cons w ws ih =>
    have hfirst := (hws w (by simp)).disciplined ops R call round
    have hrest := fun v hv => hws v (List.mem_cons_of_mem w hv)
    cases w with
    | call c => exact hfirst.bind fun _ => ih hrest _ _
    | touch f => exact hfirst.bind fun _ => ih hrest _ _

theorem session_disciplined (E : Setup P) {ws : List (Work P α)} (hws : ∀ w ∈ ws, w.Ready)
    (ops : Ops α) (R : Fin P) : Disciplined none none (session E ops R ws) :=
  (communicator_disciplined E R).bind fun _ => works_disciplined hws ops R 0 1

theorem session_leads {cap : Fin P → Fin P → ℕ} (hcap : ∀ i j, 0 < cap i j)
    (hlen : P * (P - 1) < 2 ^ 32) (E : Setup P) {ws : List (Work P α)} (hws : ∀ w ∈ ws, w.Ready)
    (ops : Ops α) (l : Fin P → Local α (Comm P)) :
    ∃ l', worksSpec ops ws (fun r => wire E r (l r)) l' ∧
      Leads cap (fun r => session E ops r ws) l (fun _ => .pure ()) l' := by
  obtain ⟨l', hspec, hleads⟩ := works_append_leads hcap hws ops 0 1 [] fun r => wire E r (l r)
  rw [List.append_nil] at hleads
  exact ⟨l', hspec, (communicator_leads E hcap hlen (fun r _ => works ops r 0 1 ws) l).trans hleads⟩

def fillMeetSum : List (Work 2 ℕ) :=
  [.touch fun r _ _ i => 10 * r + i, .call .barrier,
    .call (.allreduceRing fun _ => ⟨⟨0, 12⟩, 0, 3, .int32, .sum, ⟨1, 8⟩, 1, 2⟩)]

theorem fillMeetSum_ready : ∀ w ∈ fillMeetSum, w.Ready := by
  simp only [fillMeetSum, List.mem_cons, List.not_mem_nil, or_false, forall_eq_or_imp, forall_eq]
  refine ⟨trivial, trivial, 3, .int32, .sum, ?_⟩
  constructor <;> decide

section Refused

variable {ws : List (Work P α)} {c : Call P} {ops : Ops α} {x : Fin P → Exn} (hne : c ≠ .barrier)
include hne

theorem works_refused {R : Fin P} {call : ℕ} {y : Exn}
    (hc : c.proc (β := Comm P) ops R call = .throw y) (round : ℕ) (vs : List (Work P α)) :
    works ops R call round (.call c :: vs) = .throw y := by
  rw [works, Work.proc, countedCall_of_ne hne, hc]
  rfl

variable (hws : ∀ w ∈ ws, w.Ready)
include hws

theorem works_refused_disciplined {R : Fin P} {call : ℕ} {y : Exn}
    (hc : c.proc (β := Comm P) ops R (call + ws.length) = .throw y) (round : ℕ)
    (vs : List (Work P α)) :
    Disciplined none none (works ops R call round (ws ++ .call c :: vs)) := by
  induction ws generalizing call round with
  | nil =>
    rw [List.length_nil, Nat.add_zero] at hc
    rw [List.nil_append, works_refused hne hc]
    trivial
  | cons w ws ih =>
    have hfirst := (hws w (by simp)).disciplined ops R call round
    have hrest := fun v hv => hws v (List.mem_cons_of_mem w hv)
    rw [List.length_cons, Nat.add_comm ws.length, ← Nat.add_assoc] at hc
    cases w with
    | call d => exact hfirst.bind fun _ => ih hrest hc _
    | touch f => exact hfirst.bind fun _ => ih hrest hc _

variable (hc : ∀ r, c.proc (β := Comm P) ops r ws.length = .throw (x r))
include hc

theorem session_refused_disciplined (E : Setup P) (vs : List (Work P α)) (r : Fin P) :
    Disciplined none none (session E ops r (ws ++ .call c :: vs)) := by
  have hcall := hc r
  rw [← Nat.zero_add ws.length] at hcall
  exact (communicator_disciplined E r).bind fun _ => works_refused_disciplined hne hws hcall 1 vs

variable {cap : Fin P → Fin P → ℕ} (hcap : ∀ i j, 0 < cap i j) (hlen : P * (P - 1) < 2 ^ 32)
include hcap hlen

theorem session_refused_leads (E : Setup P) (vs : List (Work P α))
    (l : Fin P → Local α (Comm P)) : ∃ l',
      Leads cap (fun r => session E ops r (ws ++ .call c :: vs)) l (fun r => .throw (x r)) l' := by
  have hstart := communicator_leads E hcap hlen
    (fun r _ => works ops r 0 1 (ws ++ .call c :: vs)) l
  obtain ⟨l', -, hleads⟩ := works_append_leads hcap hws ops 0 1 (.call c :: vs)
    fun r => wire E r (l r)
  have hcall : ∀ r, c.proc (β := Comm P) ops r (0 + ws.length) = .throw (x r) := by
    simpa only [Nat.zero_add] using hc
  simp only [works_refused hne (hcall _)] at hleads
  exact ⟨l', hstart.trans hleads⟩

/-- All ranks throw once the call that they refuse is the next one; until then none returns or
throws anything else. -/
theorem session_refused (E : Setup P) (vs : List (Work P α)) (m : Fin P → Mem α)
    {s : Fin P → RankState P α (Comm P) Unit}
    (hs : Reaches (fabric P α (Comm P) Unit cap) (startSession E ops (ws ++ .call c :: vs) m) s) :
    (∀ r, (s r).proc ≠ .pure ()) ∧ (∀ r e, (s r).proc = .throw e → e = x r) ∧
    ∃ e, Reaches (fabric P α (Comm P) Unit cap) s e ∧ ∀ r, (e r).proc = .throw (x r) := by
  have hd := session_refused_disciplined hne hws hc E vs
  obtain ⟨l', hleads⟩ := session_refused_leads hne hws hc hcap hlen E vs
    fun r => (⟨m r, Comm.empty⟩ : Local α (Comm P))
  obtain ⟨e, he, hq⟩ := hleads _ (start_quiet _ _)
  have hends : ∀ r, EndsAs (some (.error (x r))) (e r) := fun r => (hq r).proc
  have hend : ∀ r, Halted (e r) := fun r => (hends r).halted (hq r).sendQ (hq r).acks
  refine ⟨fun r hr => ?_, fun r y hr => ?_, e, reaches_end hd he hend hs, fun r => (hq r).proc⟩
  · simpa using (hends r).of_pure (returned_at_end hd he hend hs hr).1
  · simpa [eq_comm] using (hends r).of_throw (thrown_at_end hd he hend hs hr)

end Refused

theorem Call.Ready.offline {c : Call P} (hc : c.Ready) (hne : c ≠ .barrier) (ops : Ops α)
    (call : ℕ) (R : Fin P) : Offline (c.proc (β := β) ops R call) := by
  cases c with
  | allreduceRing a =>
    obtain ⟨count, dtype, op, h⟩ := hc
    rw [Call.proc, h.allreduceRing_eq]
    refine roundsProc_offline fun G hG z hz f hf l => ?_
    obtain ⟨s, he | he⟩ := ringRounds_recv hG hz
    · rw [he] at hf
      obtain rfl := Option.some.inj hf
      rfl
    · simp [he, ringAllgatherRecv] at hf
  | allreduceRecursiveDoubling a =>
    obtain ⟨⟨m, hP⟩, count, dtype, op, h⟩ := hc
    rw [Call.proc, h.allreduceRecursiveDoubling_eq hP]
    refine roundsProc_offline fun G hG z hz f hf l => ?_
    obtain ⟨s, -, rfl⟩ := List.mem_map.mp hG
    obtain rfl := Option.some.inj hz
    obtain rfl := Option.some.inj hf
    rfl
  | allgather a =>
    obtain ⟨n, h⟩ := hc
    rw [Call.proc, h.allgather_eq]
    refine roundsProc_offline fun G hG z hz f hf l => ?_
    obtain ⟨s, -, rfl⟩ := List.mem_map.mp hG
    obtain rfl := Option.some.inj hz
    simp at hf
  | broadcast a root =>
    obtain ⟨⟨root, rfl⟩, count, h⟩ := hc
    rw [Call.proc, broadcast_eq]
    refine roundsProc_offline fun G hG z hz f hf l => ?_
    obtain ⟨peer, -, rfl⟩ := List.mem_map.mp hG
    obtain ⟨-, -, -, -, hv⟩ := broadcastRound_recv hz
    simp [hv] at hf
  | barrier => exact absurd rfl hne

section Rank

variable {R : Fin P} {c : Comm P} {κ : Fin P → ℕ}

theorem knows_works {ws : List (Work P α)} (hws : ∀ w ∈ ws, w.Ready) (ops : Ops α) (call : ℕ)
    {round : ℕ} (hentered : c.entered + 1 = round) (hreturned : c.returned + 1 = round)
    (hrts : ∀ q, q ≠ R → Rts (c.qps q)) (hsound : Sound R c (view Comm.entered R c κ)) :
    Knows callStamp Comm.entered (Sound R) R (fun _ _ _ => True) (works ops R call round ws) c
      κ := by
  induction ws generalizing c κ call round with
  | nil => trivial
  | cons w ws ih =>
    have hrest := fun v hv => hws v (List.mem_cons_of_mem w hv)
    cases w with
    | touch f =>
      refine ⟨c, ?_, le_rfl, hsound, ih hrest _ hentered hreturned hrts hsound⟩
      rintro l rfl
      rfl
    | call d =>
      by_cases hd : d = .barrier
      · subst d
        let c₁ : Comm P := { c with entered := c.entered + 1 }
        let c₂ : Comm P := { c₁ with returned := c.returned + 1 }
        refine ⟨c₁, by rintro l rfl; rfl, Nat.le_succ _, ⟨fun x => ?_, fun _ => hrts⟩, ?_⟩
        · apply (hsound.returned x).trans
          exact update_le_update_iff.mpr ⟨Nat.le_succ _, fun _ _ => le_rfl⟩ x
        · have hround : round ≤ c₁.entered := Nat.le_of_eq hentered.symm
          refine Knows.bind (Knows.bind (Knows.bind (knows_exchange hround ?_ _)))
          -- here all ranks are known to have entered this barrier
          intro _ κ' hall
          have hsound₂ : Sound R c₂ (view Comm.entered R c₂ κ') :=
            ⟨fun x => (Nat.le_of_eq hreturned).trans (hall x), fun _ => hrts⟩
          refine ⟨c₂, by intro l hl; rw [leave, hl], le_rfl, hsound₂, ?_⟩
          exact ih hrest _ (congrArg (· + 1) hentered) (congrArg (· + 1) hreturned) hrts hsound₂
      · rw [works, Work.proc, countedCall_of_ne hd, nextRound_of_ne hd]
        apply Knows.bind
        have hready : d.Ready := hws (.call d) (by simp)
        exact (hready.offline hd ops call R).knows hsound fun _ =>
          ih hrest _ hentered hreturned hrts hsound

theorem knows_session (E : Setup P) {ws : List (Work P α)} (hws : ∀ w ∈ ws, w.Ready) (ops : Ops α)
    (hc : c.Fresh) : Knows callStamp Comm.entered (Sound R) R (fun _ _ _ => True)
      (session E ops R ws) c κ := by
  refine Knows.bind (knows_communicator E hc fun c' κ' hc' hrts => ?_)
  exact knows_works hws ops 0 (by rw [hc'.entered]) (by rw [hc'.returned]) hrts (hc'.sound R _)

end Rank

/-- The first call is a barrier. -/
def MeetsFirst : List (Work P α) → Prop
  | [] => True
  | .touch _ :: ws => MeetsFirst ws
  | .call c :: _ => c = .barrier

def Met (c : Comm P) : Prop := 1 ≤ c.returned

theorem posts_works_of_met {R : Fin P} {c : Comm P} {ws : List (Work P α)}
    (hws : ∀ w ∈ ws, w.Ready) (ops : Ops α) (call round : ℕ) (hc : Met c) :
    Posts Met (fun _ _ => True) (works ops R call round ws) c := by
  induction ws generalizing c call round with
  | nil => trivial
  | cons w ws ih =>
    have hrest := fun v hv => hws v (List.mem_cons_of_mem w hv)
    cases w with
    | touch f =>
      rintro l rfl
      exact ⟨id, ih hrest _ _ hc⟩
    | call d =>
      by_cases hd : d = .barrier
      · subst d
        rintro l rfl
        refine ⟨id, Posts.bind (Posts.bind (Posts.bind
          ((exchange_socketOnly R round []).posts ?_)))⟩
        rintro _ l' hl'
        have hmet : Met (leave l').vars := Nat.le_succ_of_le (hl' ▸ hc)
        exact ⟨fun _ => hmet, ih hrest _ _ hmet⟩
      · rw [works, Work.proc, countedCall_of_ne hd]
        have hready : d.Ready := hws (.call d) (by simp)
        exact Posts.bind ((hready.offline hd ops call R).posts hc fun _ => ih hrest _ _ hc)

theorem posts_works {R : Fin P} {c : Comm P} {ws : List (Work P α)} (hws : ∀ w ∈ ws, w.Ready)
    (ops : Ops α) (call round : ℕ) (hmeets : MeetsFirst ws) :
    Posts Met (fun _ _ => True) (works ops R call round ws) c := by
  induction ws generalizing c call with
  | nil => trivial
  | cons w ws ih =>
    have hrest := fun v hv => hws v (List.mem_cons_of_mem w hv)
    cases w with
    | touch f =>
      rintro l rfl
      exact ⟨id, ih hrest _ hmeets⟩
    | call d =>
      obtain rfl : d = .barrier := hmeets
      rintro l rfl
      refine ⟨id, Posts.bind (Posts.bind (Posts.bind ((exchange_socketOnly R round []).posts ?_)))⟩
      rintro _ l' -
      have hmet : Met (leave l').vars := Nat.le_add_left 1 _
      exact ⟨fun _ => hmet, posts_works_of_met hrest ops _ _ hmet⟩

section Constructor

/-- What allows a rank to post does not depend on its queue pairs. -/
def IgnoresQps (ok : Comm P → Prop) : Prop := ∀ c qps, ok c → ok { c with qps := qps }

variable {ok : Comm P → Prop} (hok : IgnoresQps ok)
include hok

theorem posts_updQp {Q : Unit → Comm P → Prop} {c : Comm P} (peer : Fin P)
    (f : Option QueuePair → Option QueuePair) (hQ : ∀ c', Q () c') :
    Posts ok Q (updQp (α := α) peer f) c := by
  rintro l rfl
  exact ⟨hok _ _, hQ _⟩

omit hok in
theorem posts_peers {p : Fin P → Proc P α (Comm P) Unit} {Q : Unit → Comm P → Prop} {c : Comm P}
    (hp : ∀ q c (Q : Unit → Comm P → Prop), (∀ c', Q () c') → Posts ok Q (p q) c)
    (hQ : ∀ c', Q () c') (qs : List (Fin P)) : Posts ok Q (qs.forM p) c := by
  induction qs generalizing c with
  | nil => exact hQ c
  | cons q qs ih => exact Posts.bind (hp q c _ fun _ => ih)

theorem posts_communicator (E : Setup P) (R : Fin P) {Q : Unit → Comm P → Prop} {c : Comm P}
    (hQ : ∀ c', Q () c') : Posts ok Q (communicator (α := α) E R) c := by
  apply Posts.bind
  refine posts_peers (fun q c Q hQ => ?_) (fun c' => ?_) _
  · exact Posts.bind (posts_updQp hok q _ fun _ => posts_updQp hok q _ hQ)
  · apply Posts.bind
    refine (exchange_socketOnly R 0 _).posts fun incoming => ?_
    refine posts_peers (fun q c Q hQ => ?_) hQ _
    unfold connectQp
    split
    · trivial
    · exact Posts.bind (posts_updQp hok q _ fun _ => posts_updQp hok q _ hQ)

end Constructor

/-- If all ranks meet in a barrier before their first collective, no rank posts a send or a receive
before all queue pairs of all ranks are in RTS. -/
theorem session_connected (cap : Fin P → Fin P → ℕ) (hcap : ∀ i j, 0 < cap i j)
    (hlen : P * (P - 1) < 2 ^ 32) (E : Setup P) {ws : List (Work P α)} (hws : ∀ w ∈ ws, w.Ready)
    (hmeets : MeetsFirst ws) (ops : Ops α) (m : Fin P → Mem α)
    {s : Fin P → RankState P α (Comm P) Unit}
    (hs : Reaches (fabric P α (Comm P) Unit cap) (startSession E ops ws m) s) {r : Fin P}
    (hr : (s r).HasPosted) (x q : Fin P) (hq : q ≠ x) :
    ∃ qp, (s x).loc.vars.qps q = some qp ∧ qp.state = .rts := by
  have hfresh : (Comm.empty (P := P)).Fresh := ⟨rfl, rfl⟩
  have hmet : Met (s r).loc.vars := by
    refine Posts.of_start (p := fun r => session E ops r ws) (Posts.bind ?_) hs hr
    exact posts_communicator (fun _ _ => id) E r fun c => posts_works hws ops 0 1 hmeets
  obtain ⟨l', -, hleads⟩ :=
    session_leads hcap hlen E hws ops fun r => (⟨m r, Comm.empty⟩ : Local α (Comm P))
  have hinformed : ∀ r, ∃ κ, Informed callStamp Comm.entered Sound s r κ := by
    refine informed_reaches (I := Sound) (fun _ _ _ _ => Sound.mono) (fun r => ⟨fun _ => 0, ?_⟩)
      ?_ hs
    · exact {
        knows := knows_session E hws ops hfresh
        inv := hfresh.sound r _
        heard := fun x => Nat.zero_le _
        inbox := by simp [startSession, start, atRest] }
    · intro s' hs' r
      exact (hleads.matched (fun r => session_disciplined E hws ops r) hs' r).2
  exact (barrierSafe_of_informed hinformed).connected r hmet x q hq

/-- A session in which all ranks meet before their first collective, from the constructor on:
whatever the skew between the ranks, every message and every byte is taken by the call and step it
was meant for, no rank throws, a rank that has finished has what its calls and its own work give one
after another, all ranks can still finish, and no rank posts anything before all queue pairs are in
RTS. Connections do not break, so a message waits until its receive is posted. -/
theorem session_correct (cap : Fin P → Fin P → ℕ) (hcap : ∀ i j, 0 < cap i j)
    (hlen : P * (P - 1) < 2 ^ 32) (E : Setup P) {ws : List (Work P α)} (hws : ∀ w ∈ ws, w.Ready)
    (hmeets : MeetsFirst ws) (ops : Ops α) (m : Fin P → Mem α) :
    ∃ x', worksSpec ops ws (fun r => wire E r ⟨m r, Comm.empty⟩) x' ∧ ∀ s,
      Reaches (fabric P α (Comm P) Unit cap) (startSession E ops ws m) s →
      (∀ r, ∀ e ∈ (s r).log, e.2.1.tag = e.2.2.tag) ∧
      (∀ r, ∀ e ∈ (s r).byteLog, e.2.1 = e.2.2) ∧
      (∀ r, (s r).proc = .pure () → (s r).loc = x' r) ∧
      (∀ r e, (s r).proc ≠ .throw e) ∧
      (∃ e, Reaches (fabric P α (Comm P) Unit cap) s e ∧ ∀ r, (e r).proc = .pure ()) ∧
      ∀ r, (s r).HasPosted → ∀ x q, q ≠ x →
        ∃ qp, (s x).loc.vars.qps q = some qp ∧ qp.state = .rts := by
  obtain ⟨x', hspec, hleads⟩ :=
    session_leads hcap hlen E hws ops fun r => (⟨m r, Comm.empty⟩ : Local α (Comm P))
  have hd := fun r => session_disciplined E hws ops r
  refine ⟨x', hspec, fun s hs => ⟨fun r => (hleads.matched hd hs r).1,
    fun r => (hleads.matched hd hs r).2, fun r hr => (hleads.result hd hs hr).2,
    hleads.never_throws hd hs, ?_, fun r hr => ?_⟩⟩
  · obtain ⟨e, he, hq⟩ := hleads.settles hd hs
    exact ⟨e, he, fun r => (hq r).proc⟩
  · exact session_connected cap hcap hlen E hws hmeets ops m hs hr

theorem session_correct_fillMeetSum :
    ∃ x' : Fin 2 → Local ℕ (Comm 2), (x' 0).mem 0 0 = 10 ∧ ∀ s,
      Reaches (fabric 2 ℕ (Comm 2) Unit fun _ _ => 1)
        (startSession twoPorts (fun _ _ u v => u + v) fillMeetSum fun _ _ _ => 0) s →
      ∀ r, (s r).proc = .pure () → (s r).loc = x' r := by
  obtain ⟨x', ⟨l, rfl, l', rfl, l'', hring, rfl⟩, hrun⟩ :=
    session_correct (fun _ _ => 1) (fun _ _ => Nat.one_pos) (by decide) twoPorts fillMeetSum_ready
      rfl (fun _ _ u v => u + v) fun _ _ _ => 0
  exact ⟨_, (hring 0).2.1 0 (by decide) 0 (by decide), fun s hs => (hrun s hs).2.2.1⟩

end MicroCcl

import MicroCcl.Discipline

namespace MicroCcl
open Network

variable {P : ℕ} {α β A : Type} {cap : Fin P → Fin P → ℕ}

/-- Nothing is outstanding at the rank, and so far everything it received was
meant for the request that took it. -/
structure Quiet (p : Proc P α β A) (l : Local α β) (st : RankState P α β A) : Prop where
  proc : st.proc = p
  loc : st.loc = l
  sendQ : st.sendQ = fun _ => []
  recvQ : st.recvQ = fun _ => []
  acks : st.acks = fun _ => []
  sendCq : st.sendCq = []
  recvCq : st.recvCq = []
  inbox : st.inbox = fun _ => []
  tags : ∀ e ∈ st.log, e.2.1.tag = e.2.2.tag
  byteTags : ∀ e ∈ st.byteLog, e.2.1 = e.2.2

/-- The quiet state with the given process, memory and records. -/
def atRest (p : Proc P α β A) (l : Local α β) (sn : List (Fin P × Wr))
    (lg : List (Fin P × Wr × Wr)) (bl : List (Fin P × Tag × Tag)) : RankState P α β A :=
  ⟨p, l, fun _ => [], fun _ => [], fun _ => [], [], [], fun _ => [], sn, lg, bl⟩

theorem Quiet.eq_atRest {p : Proc P α β A} {l : Local α β} {st : RankState P α β A}
    (h : Quiet p l st) : st = atRest p l st.sent st.log st.byteLog := by
  obtain ⟨rfl, rfl, h1, h2, h3, h4, h5, h6, -, -⟩ := h
  cases st
  simp_all only [atRest]

theorem atRest_quiet {p : Proc P α β A} {l : Local α β} {sn : List (Fin P × Wr)}
    {lg : List (Fin P × Wr × Wr)} {bl : List (Fin P × Tag × Tag)}
    (hlg : ∀ e ∈ lg, e.2.1.tag = e.2.2.tag) (hbl : ∀ e ∈ bl, e.2.1 = e.2.2) :
    Quiet p l (atRest p l sn lg bl) :=
  ⟨rfl, rfl, rfl, rfl, rfl, rfl, rfl, rfl, hlg, hbl⟩

/-- Every rank at the start of its process, on a connected communicator. -/
def start (p : Fin P → Proc P α β A) (l : Fin P → Local α β) : Fin P → RankState P α β A :=
  fun r => atRest (p r) (l r) [] [] []

theorem start_quiet (p : Fin P → Proc P α β A) (l : Fin P → Local α β) (r : Fin P) :
    Quiet (p r) (l r) (start p l r) := atRest_quiet (by simp) (by simp)

theorem start_orderly {p : Fin P → Proc P α β A} {l : Fin P → Local α β}
    (hp : ∀ r, Disciplined none none (p r)) (r : Fin P) : Orderly (start p l r) :=
  ⟨none, none, hp r, .idle rfl rfl rfl, .idle rfl rfl, by simp⟩

def Leads (cap : Fin P → Fin P → ℕ) (p : Fin P → Proc P α β A) (l : Fin P → Local α β)
    (p' : Fin P → Proc P α β A) (l' : Fin P → Local α β) : Prop :=
  ∀ s, (∀ r, Quiet (p r) (l r) (s r)) →
    ∃ s', Reaches (fabric P α β A cap) s s' ∧ ∀ r, Quiet (p' r) (l' r) (s' r)

theorem Leads.refl (p : Fin P → Proc P α β A) (l : Fin P → Local α β) : Leads cap p l p l :=
  fun s hs => ⟨s, .refl, hs⟩

theorem Leads.trans {p p' p'' : Fin P → Proc P α β A} {l l' l'' : Fin P → Local α β}
    (h : Leads cap p l p' l') (h' : Leads cap p' l' p'' l'') : Leads cap p l p'' l'' := by
  intro s hs
  obtain ⟨t, hst, ht⟩ := h s hs
  obtain ⟨u, htu, hu⟩ := h' t ht
  exact ⟨u, hst.trans htu, hu⟩

theorem upd_leads (f : Fin P → Local α β → Local α β) (k : Fin P → Proc P α β A)
    (l : Fin P → Local α β) :
    Leads cap (fun r => .upd (f r) (k r)) l k (fun r => f r (l r)) := by
  intro s hs
  refine ⟨fun r => { s r with proc := k r, loc := f r (l r) }, reaches_of_moves fun r => ?_,
    fun r => { hs r with proc := rfl, loc := rfl }⟩
  exact Moves.one Act.op (by simp [fabric, actStep, opStep, (hs r).proc, (hs r).loc])

/-- A fact about one rank that none of its moves can undo holds from then on. -/
theorem stable_of_moves {Q : RankState P α β A → Prop}
    (hact : ∀ {st t l}, Q st → actStep st l = some t → Q t)
    (hout : ∀ {st : RankState P α β A} {p c m g}, Q st → outStep st p c = some (m, g) →
      ∀ a, Q (g a))
    (hinp : ∀ {st : RankState P α β A} {n p c m a t}, Q st → inpStep n st p c m = some (a, t) → Q t)
    {s e : Fin P → RankState P α β A} {r : Fin P} (hr : Q (s r))
    (h : Reaches (fabric P α β A cap) s e) : Q (e r) := by
  induction h with
  | refl => exact hr
  | tail _ hstep ih =>
    cases hstep with
    | act q l h =>
      by_cases hq : r = q
      · subst q; simpa using hact ih h
      · simpa [hq] using ih
    | comm i j c hij ho hi =>
      by_cases hj : r = j
      · subst j; simpa using hinp ih hi
      · by_cases hi' : r = i
        · subst i; simpa [hj] using hout ih ho _
        · simpa [hj, hi'] using ih

/-- A rank that has returned is at rest. -/
structure Returned (x : A) (l : Local α β) (st : RankState P α β A) : Prop where
  proc : st.proc = .pure x
  loc : st.loc = l
  sendQ : st.sendQ = fun _ => []
  recvQ : st.recvQ = fun _ => []
  acks : st.acks = fun _ => []

theorem Orderly.returned {st : RankState P α β A} (hI : Orderly st) {x : A}
    (hx : st.proc = .pure x) : Returned x st.loc st := by
  obtain ⟨ps, pr, hd, hs, hr, -⟩ := hI
  rw [hx] at hd
  obtain ⟨rfl, rfl⟩ := hd
  cases hs with
  | idle hq ha hc =>
    cases hr with
    | idle hq' hc' => exact ⟨hx, rfl, hq, hq', ha⟩

theorem Returned.reaches {x : A} {l : Local α β} {s e : Fin P → RankState P α β A} {r : Fin P}
    (hr : Returned x l (s r)) (h : Reaches (fabric P α β A cap) s e) : Returned x l (e r) := by
  refine stable_of_moves ?_ ?_ ?_ hr h
  · rintro st t (_ | p) ⟨hp, -, -, -, ha⟩ h
    · simp [actStep, opStep, hp] at h
    · simp [actStep, completeStep, ha] at h
  · rintro st p (_ | _) m g ⟨hp, -, hq, -, -⟩ h
    · simp [outStep, hq] at h
    · simp [outStep, hp] at h
  -- no receive is posted; bytes may still come in
  · rintro st n p (_ | _) m a t ⟨hp, hl, hq, hq', ha⟩ h
    · obtain ⟨wr, xs, rwr, rest, -, hk, -⟩ := inpStep_rdma_cases h
      simp [hq'] at hk
    · obtain ⟨b, tg, -, -, -, rfl⟩ := inpStep_tcp_cases h
      exact ⟨hp, hl, hq, hq', ha⟩

theorem throw_reaches {x : Exn} {s e : Fin P → RankState P α β A} {r : Fin P}
    (hr : (s r).proc = .throw x) (h : Reaches (fabric P α β A cap) s e) :
    (e r).proc = .throw x := by
  refine stable_of_moves (Q := fun st => st.proc = .throw x) ?_ ?_ ?_ hr h
  · rintro st t (_ | p) hp h
    · simp [actStep, opStep, hp] at h
    · obtain ⟨a, rest, -, rfl⟩ := completeStep_cases h
      exact hp
  · rintro st p (_ | _) m g hp h a
    · obtain ⟨wr, rest, -, -, rfl⟩ := outStep_rdma_cases h
      exact hp
    · simp [outStep, hp] at h
  · rintro st n p (_ | _) m a t hp h
    · obtain ⟨wr, xs, rwr, rest, -, -, ⟨-, -, rfl⟩ | ⟨-, -, rfl⟩⟩ := inpStep_rdma_cases h <;>
        exact hp
    · obtain ⟨b, tg, -, -, -, rfl⟩ := inpStep_tcp_cases h
      exact hp

/-- Only a receive and the rank's own code extend the records of a rank. -/
theorem opStep_records {st t : RankState P α β A} (h : opStep st = some t) :
    t.log = st.log ∧ st.byteLog <+: t.byteLog := by
  cases opStep_cases h with
  | recvByte p t t' k b rest hp hc => exact ⟨rfl, List.prefix_append _ _⟩
  | _ => exact ⟨rfl, List.prefix_rfl⟩

theorem records_reaches {s e : Fin P → RankState P α β A} (r : Fin P)
    (h : Reaches (fabric P α β A cap) s e) :
    (s r).log <+: (e r).log ∧ (s r).byteLog <+: (e r).byteLog := by
  refine stable_of_moves (Q := fun st => (s r).log <+: st.log ∧ (s r).byteLog <+: st.byteLog)
    ?_ ?_ ?_ ⟨List.prefix_rfl, List.prefix_rfl⟩ h
  · rintro st t (_ | p) ⟨h1, h2⟩ h
    · obtain ⟨h3, h4⟩ := opStep_records h
      exact ⟨h3 ▸ h1, h2.trans h4⟩
    · obtain ⟨a, rest, -, rfl⟩ := completeStep_cases h
      exact ⟨h1, h2⟩
  · rintro st p (_ | _) m g ⟨h1, h2⟩ h a
    · obtain ⟨wr, rest, -, -, rfl⟩ := outStep_rdma_cases h
      exact ⟨h1, h2⟩
    · obtain ⟨b, tg, k, -, -, rfl⟩ := outStep_tcp_cases h
      exact ⟨h1, h2⟩
  · rintro st n p (_ | _) m a t ⟨h1, h2⟩ h
    · obtain ⟨wr, xs, rwr, rest, -, -, ⟨-, -, rfl⟩ | ⟨-, -, rfl⟩⟩ := inpStep_rdma_cases h <;>
        exact ⟨h1.trans (List.prefix_append _ _), h2⟩
    · obtain ⟨b, tg, -, -, -, rfl⟩ := inpStep_tcp_cases h
      exact ⟨h1, h2⟩

section Continued

variable {B : Type}

/-- The same rank with more code after its process. -/
def RankState.bind (st : RankState P α β A) (k : A → Proc P α β B) : RankState P α β B where
  proc := st.proc >>= k
  loc := st.loc
  sendQ := st.sendQ
  recvQ := st.recvQ
  acks := st.acks
  sendCq := st.sendCq
  recvCq := st.recvCq
  inbox := st.inbox
  sent := st.sent
  log := st.log
  byteLog := st.byteLog

theorem opStep_bind {st t : RankState P α β A} (h : opStep st = some t) (k : A → Proc P α β B) :
    opStep (st.bind k) = some (t.bind k) := by
  cases opStep_cases h with
  | postRecv q wr k' hp => simp [opStep, RankState.bind, hp]
  | postSend q wr k' hp => simp [opStep, RankState.bind, hp]
  | pollSend k' wc rest hp hc => simp [opStep, RankState.bind, hp, hc]
  | pollRecv k' wc rest hp hc => simp [opStep, RankState.bind, hp, hc]
  | upd f k' hp => simp [opStep, RankState.bind, hp]
  | recvByte q t t' k' b rest hp hc => simp [opStep, RankState.bind, hp, hc]

theorem completeStep_bind {st t : RankState P α β A} {p : Fin P} (h : completeStep st p = some t)
    (k : A → Proc P α β B) : completeStep (st.bind k) p = some (t.bind k) := by
  obtain ⟨a, rest, hk, rfl⟩ := completeStep_cases h
  simp [completeStep, RankState.bind, hk]

theorem outStep_bind {st : RankState P α β A} {p : Fin P} {c : Chan} {m : Msg α}
    {g : WcStatus → RankState P α β A} (h : outStep st p c = some (m, g)) (k : A → Proc P α β B) :
    outStep (st.bind k) p c = some (m, fun a => (g a).bind k) := by
  cases c with
  | rdma =>
    obtain ⟨wr, rest, hq, rfl, rfl⟩ := outStep_rdma_cases h
    simp [outStep, RankState.bind, hq]
  | tcp =>
    obtain ⟨b, t, k', hp, rfl, rfl⟩ := outStep_tcp_cases h
    simp [outStep, RankState.bind, hp]

theorem inpStep_bind {n : ℕ} {st t : RankState P α β A} {p : Fin P} {c : Chan} {m : Msg α}
    {a : WcStatus} (h : inpStep n st p c m = some (a, t)) (k : A → Proc P α β B) :
    inpStep n (st.bind k) p c m = some (a, t.bind k) := by
  cases c with
  | rdma =>
    obtain ⟨wr, xs, rwr, rest, rfl, hq, ⟨hlen, rfl, rfl⟩ | ⟨hlen, rfl, rfl⟩⟩ := inpStep_rdma_cases h
    · simp [inpStep, RankState.bind, hq, hlen]
    · simp [inpStep, RankState.bind, hq, hlen]
  | tcp =>
    obtain ⟨b, t, rfl, hlen, rfl, rfl⟩ := inpStep_tcp_cases h
    simp [inpStep, RankState.bind, hlen]

theorem reaches_bind {s s' : Fin P → RankState P α β A} (h : Reaches (fabric P α β A cap) s s')
    (k : Fin P → A → Proc P α β B) :
    Reaches (fabric P α β B cap) (fun r => (s r).bind (k r)) (fun r => (s' r).bind (k r)) := by
  have hact : ∀ {r : Fin P} {l st t st'}, st' = RankState.bind st (k r) → actStep st l = some t →
      ∃ t', actStep st' l = some t' ∧ t' = t.bind (k r) := by
    rintro r (_ | p) st t _ rfl h
    · exact ⟨_, opStep_bind h (k r), rfl⟩
    · exact ⟨_, completeStep_bind h (k r), rfl⟩
  obtain ⟨e, he, heq⟩ := reaches_simulates (T := fabric P α β B cap)
    (S := fun r st st' => st' = st.bind (k r)) hact
    (fun hS h => ⟨_, hS ▸ outStep_bind h (k _), fun _ => rfl⟩)
    (fun hS h => ⟨_, hS ▸ inpStep_bind h (k _), rfl⟩) (fun _ => rfl) h
  rwa [funext heq] at he

end Continued

theorem final_of_returned {e : Fin P → RankState P α β A} {a : Fin P → A} {l : Fin P → Local α β}
    (h : ∀ r, Quiet (.pure (a r)) (l r) (e r)) : Final (fabric P α β A cap) e := by
  intro s' hstep
  cases hstep with
  | act r lb h' =>
    cases lb with
    | op => simp [fabric, actStep, opStep, (h r).proc] at h'
    | complete p => simp [fabric, actStep, completeStep, (h r).acks] at h'
  | comm i j c hij ho hi =>
    cases c with
    | rdma => simp [fabric, outStep, (h i).sendQ] at ho
    | tcp => simp [fabric, outStep, (h i).proc] at ho

section Settled

variable {p : Fin P → Proc P α β A} {l l' : Fin P → Local α β} {a : Fin P → A}
  {s : Fin P → RankState P α β A}

theorem Leads.settles (h : Leads cap p l (fun r => .pure (a r)) l')
    (hp : ∀ r, Disciplined none none (p r))
    (hs : Reaches (fabric P α β A cap) (start p l) s) :
    ∃ e, Reaches (fabric P α β A cap) s e ∧ ∀ r, Quiet (.pure (a r)) (l' r) (e r) := by
  obtain ⟨e, he, hq⟩ := h (start p l) (start_quiet p l)
  exact ⟨e, (fabric_lawful cap).reaches_final (start_orderly hp) he (final_of_returned hq) hs, hq⟩

theorem Leads.result (h : Leads cap p l (fun r => .pure (a r)) l')
    (hp : ∀ r, Disciplined none none (p r))
    (hs : Reaches (fabric P α β A cap) (start p l) s) {r : Fin P} {x : A}
    (hr : (s r).proc = .pure x) : x = a r ∧ (s r).loc = l' r := by
  obtain ⟨e, he, hq⟩ := h.settles hp hs
  have hI := (fabric_lawful cap).reaches_inv (start_orderly hp) hs r
  -- the rank is at rest, so the end finds it as it is now
  have hret := (hI.returned hr).reaches he
  have hx : Proc.pure x = Proc.pure (P := P) (α := α) (β := β) (a r) :=
    hret.proc.symm.trans (hq r).proc
  exact ⟨by simpa using hx, hret.loc.symm.trans (hq r).loc⟩

theorem Leads.never_throws (h : Leads cap p l (fun r => .pure (a r)) l')
    (hp : ∀ r, Disciplined none none (p r))
    (hs : Reaches (fabric P α β A cap) (start p l) s) (r : Fin P) (x : Exn) :
    (s r).proc ≠ .throw x := by
  intro hx
  obtain ⟨e, he, hq⟩ := h.settles hp hs
  have := (throw_reaches hx he).symm.trans (hq r).proc
  simp at this

theorem Leads.never_stuck (h : Leads cap p l (fun r => .pure (a r)) l')
    (hp : ∀ r, Disciplined none none (p r))
    (hs : Reaches (fabric P α β A cap) (start p l) s) {r : Fin P}
    (hr : ∀ x, (s r).proc ≠ .pure x) : ∃ s', Step (fabric P α β A cap) s s' := by
  obtain ⟨e, he, hq⟩ := h.settles hp hs
  -- a state that is not the end has a step towards it
  rcases he.cases_head with heq | ⟨t, ht, -⟩
  · exact absurd (heq ▸ (hq r).proc) (hr (a r))
  · exact ⟨t, ht⟩

theorem Leads.matched (h : Leads cap p l (fun r => .pure (a r)) l')
    (hp : ∀ r, Disciplined none none (p r))
    (hs : Reaches (fabric P α β A cap) (start p l) s) (r : Fin P) :
    (∀ e ∈ (s r).log, e.2.1.tag = e.2.2.tag) ∧ ∀ e ∈ (s r).byteLog, e.2.1 = e.2.2 := by
  obtain ⟨e, he, hq⟩ := h.settles hp hs
  obtain ⟨h1, h2⟩ := records_reaches r he
  exact ⟨fun x hx => (hq r).tags x (h1.subset hx), fun x hx => (hq r).byteTags x (h2.subset hx)⟩

end Settled

end MicroCcl

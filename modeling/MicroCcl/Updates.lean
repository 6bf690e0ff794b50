import MicroCcl.Frame

namespace MicroCcl
open Network

variable {P : ℕ} {α β A B : Type} {cap : Fin P → Fin P → ℕ}

/-- The updates a rank has made, each with the memory it has found. -/
abbrev Record (α β : Type) := List ((Local α β → Local α β) × Mem α)

/-- The rank without its record. -/
def Local.plain (l : Local α (β × Record α β)) : Local α β := ⟨l.mem, l.vars.1⟩

def Local.blank (l : Local α β) : Local α (β × Record α β) := ⟨l.mem, l.vars, []⟩

/-- The update with a note of what it finds. -/
def recorded (f : Local α β → Local α β) (l : Local α (β × Record α β)) :
    Local α (β × Record α β) :=
  ⟨(f l.plain).mem, (f l.plain).vars, l.vars.2 ++ [(f, l.mem)]⟩

theorem plain_recorded (f : Local α β → Local α β) (l : Local α (β × Record α β)) :
    (recorded f l).plain = f l.plain := rfl

/-- The second process does what the first one does and records its updates, as long as the first
one does not throw and no completion has 2^32 bytes. -/
inductive Mirrors : Proc P α β A → Proc P α (β × Record α β) A → Prop
  | pure (a : A) : Mirrors (.pure a) (.pure a)
  | throw (e : Exn) (p' : Proc P α (β × Record α β) A) : Mirrors (.throw e) p'
  | postRecv {k k'} (q : Fin P) (wr : Wr) (hlen : wr.length < 2 ^ 32) (hk : Mirrors k k') :
      Mirrors (.postRecv q wr k) (.postRecv q wr k')
  | postSend {k k'} (q : Fin P) (wr : Wr) (hk : Mirrors k k') :
      Mirrors (.postSend q wr k) (.postSend q wr k')
  | pollSend {k k'} (hk : ∀ wc, Mirrors (k wc) (k' wc)) : Mirrors (.pollSend k) (.pollSend k')
  | pollRecv {k k'} (hk : ∀ wc, wc.byteLen < 2 ^ 32 → Mirrors (k wc) (k' wc)) :
      Mirrors (.pollRecv k) (.pollRecv k')
  | upd {k k'} (f : Local α β → Local α β) (hk : Mirrors k k') :
      Mirrors (.upd f k) (.upd (recorded f) k')

theorem Mirrors.bind {p : Proc P α β A} {p' : Proc P α (β × Record α β) A}
    {f : A → Proc P α β B} {f' : A → Proc P α (β × Record α β) B} (hp : Mirrors p p')
    (hf : ∀ a, Mirrors (f a) (f' a)) : Mirrors (p >>= f) (p' >>= f') := by
  induction hp with
  | pure a => exact hf a
  | throw e p' => exact .throw e _
  | postRecv q wr hlen _ ih => exact .postRecv q wr hlen ih
  | postSend q wr _ ih => exact .postSend q wr ih
  | pollSend _ ih => exact .pollSend ih
  | pollRecv _ ih => exact .pollRecv ih
  | upd g _ ih => exact .upd g ih

/-- The ranks agree on everything but the record. -/
structure MirrorState (st : RankState P α β A) (st' : RankState P α (β × Record α β) A) :
    Prop where
  proc : Mirrors st.proc st'.proc
  loc : st'.loc.plain = st.loc
  sendQ : st'.sendQ = st.sendQ
  recvQ : st'.recvQ = st.recvQ
  acks : st'.acks = st.acks
  sendCq : st'.sendCq = st.sendCq
  recvCq : st'.recvCq = st.recvCq
  inbox : st'.inbox = st.inbox
  recvQ_lt : ∀ p, ∀ wr ∈ st.recvQ p, wr.length < 2 ^ 32
  recvCq_lt : ∀ wc ∈ st.recvCq, wc.byteLen < 2 ^ 32

namespace MirrorState

variable {st t : RankState P α β A} {st' : RankState P α (β × Record α β) A} {p : Fin P}

theorem mem_eq (h : MirrorState st st') : st'.loc.mem = st.loc.mem := congrArg Local.mem h.loc

theorem opStep (h : MirrorState st st') (hm : opStep st = some t) :
    ∃ t', MicroCcl.opStep st' = some t' ∧ MirrorState t t' := by
  have hcode := h.proc
  generalize hp' : st'.proc = p' at hcode
  cases opStep_cases hm with
  | postRecv q wr k hp =>
    rw [hp] at hcode
    cases hcode with
    | @postRecv _ k' _ _ hlen hk =>
      refine ⟨{ st' with proc := k', recvQ := Function.update st'.recvQ q (st'.recvQ q ++ [wr]) },
        by simp [MicroCcl.opStep, hp'], { h with proc := hk, recvQ := ?_, recvQ_lt := ?_ }⟩
      · simp only [h.recvQ]
      · exact forall_update_queue h.recvQ_lt q (forall_mem_concat (h.recvQ_lt q) hlen)
  | postSend q wr k hp =>
    rw [hp] at hcode
    cases hcode with
    | @postSend _ k' _ _ hk =>
      refine ⟨{ st' with proc := k', sendQ := Function.update st'.sendQ q (st'.sendQ q ++ [wr]) },
        by simp [MicroCcl.opStep, hp'], { h with proc := hk, sendQ := ?_ }⟩
      simp only [h.sendQ]
  | pollSend k wc rest hp hc =>
    rw [hp] at hcode
    cases hcode with
    | @pollSend _ k' hk =>
      exact ⟨{ st' with proc := k' wc, sendCq := rest },
        by simp [MicroCcl.opStep, hp', h.sendCq, hc], { h with proc := hk wc, sendCq := rfl }⟩
  | pollRecv k wc rest hp hc =>
    rw [hp] at hcode
    cases hcode with
    | @pollRecv _ k' hk =>
      have hlt := h.recvCq_lt
      rw [hc] at hlt
      obtain ⟨hwc, hrest⟩ := List.forall_mem_cons.mp hlt
      exact ⟨{ st' with proc := k' wc, recvCq := rest },
        by simp [MicroCcl.opStep, hp', h.recvCq, hc],
        { h with proc := hk wc hwc, recvCq := rfl, recvCq_lt := hrest }⟩
  | upd f k hp =>
    rw [hp] at hcode
    cases hcode with
    | @upd _ k' _ hk =>
      refine ⟨{ st' with proc := k', loc := recorded f st'.loc }, by simp [MicroCcl.opStep, hp'],
        { h with proc := hk, loc := ?_ }⟩
      rw [plain_recorded, h.loc]
  | recvByte q t t' k b rest hp hc =>
    rw [hp] at hcode
    cases hcode

theorem completeStep (h : MirrorState st st') (hm : completeStep st p = some t) :
    ∃ t', MicroCcl.completeStep st' p = some t' ∧ MirrorState t t' := by
  obtain ⟨a, rest, hk, rfl⟩ := completeStep_cases hm
  refine ⟨{ st' with
      acks := Function.update st'.acks p rest
      sendCq := st'.sendCq ++ [⟨a, 0⟩] },
    by simp [MicroCcl.completeStep, h.acks, hk], { h with acks := ?_, sendCq := ?_ }⟩
  · simp only [h.acks]
  · simp only [h.sendCq]

theorem outStep (h : MirrorState st st') {c : Chan} {m : Msg α}
    {g : WcStatus → RankState P α β A} (hm : outStep st p c = some (m, g)) :
    ∃ g', MicroCcl.outStep st' p c = some (m, g') ∧ ∀ a, MirrorState (g a) (g' a) := by
  cases c with
  | rdma =>
    obtain ⟨wr, rest, hq, rfl, rfl⟩ := outStep_rdma_cases hm
    refine ⟨fun a => { st' with
        sendQ := Function.update st'.sendQ p rest
        acks := Function.update st'.acks p (st'.acks p ++ [a])
        sent := st'.sent ++ [(p, wr)] },
      by simp [MicroCcl.outStep, h.sendQ, hq, h.mem_eq],
      fun a => { h with sendQ := ?_, acks := ?_ }⟩
    · simp only [h.sendQ]
    · simp only [h.acks]
  | tcp =>
    obtain ⟨b, tg, k, hp, -, -⟩ := outStep_tcp_cases hm
    have hcode := h.proc
    rw [hp] at hcode
    cases hcode

theorem inpStep_rdma (h : MirrorState st st') {n : ℕ} {m : Msg α} {a : WcStatus}
    (hm : inpStep n st p .rdma m = some (a, t)) :
    ∃ t', MicroCcl.inpStep n st' p .rdma m = some (a, t') ∧ MirrorState t t' := by
  obtain ⟨wr, xs, rwr, rest, rfl, hq, hcase⟩ := inpStep_rdma_cases hm
  obtain ⟨hrwr, hmem⟩ := List.forall_mem_cons.mp (hq ▸ h.recvQ_lt p)
  have hrest := forall_update_queue h.recvQ_lt p hmem
  have hcq : ∀ wc, wc.byteLen < 2 ^ 32 → ∀ wc' ∈ st.recvCq ++ [wc], wc'.byteLen < 2 ^ 32 :=
    fun wc hwc => forall_mem_concat h.recvCq_lt hwc
  rcases hcase with ⟨hlen, rfl, rfl⟩ | ⟨hlen, rfl, rfl⟩
  · refine ⟨{ st' with
        recvQ := Function.update st'.recvQ p rest
        loc := { st'.loc with mem := writeRange st'.loc.mem rwr xs }
        recvCq := st'.recvCq ++ [⟨.success, wr.length⟩]
        log := st'.log ++ [(p, wr, rwr)] }, by simp [MicroCcl.inpStep, h.recvQ, hq, hlen],
      { h with
        loc := ?_, recvQ := ?_, recvCq := ?_, recvQ_lt := hrest
        recvCq_lt := hcq _ (hlen.trans_lt hrwr) }⟩
    · rw [← h.loc]
      rfl
    · simp only [h.recvQ]
    · simp only [h.recvCq]
  -- a refused message has a completion of no bytes
  · refine ⟨{ st' with
        recvQ := Function.update st'.recvQ p rest
        recvCq := st'.recvCq ++ [⟨.locLenErr, 0⟩]
        log := st'.log ++ [(p, wr, rwr)] }, by simp [MicroCcl.inpStep, h.recvQ, hq, hlen],
      { h with
        recvQ := ?_, recvCq := ?_, recvQ_lt := hrest, recvCq_lt := hcq _ (Nat.two_pow_pos 32) }⟩
    · simp only [h.recvQ]
    · simp only [h.recvCq]

theorem inpStep (h : MirrorState st st') {n : ℕ} {c : Chan} {m : Msg α} {a : WcStatus}
    (hm : inpStep n st p c m = some (a, t)) :
    ∃ t', MicroCcl.inpStep n st' p c m = some (a, t') ∧ MirrorState t t' := by
  cases c with
  | rdma => exact h.inpStep_rdma hm
  | tcp =>
    obtain ⟨b, tg, rfl, hroom, rfl, rfl⟩ := inpStep_tcp_cases hm
    refine ⟨{ st' with inbox := Function.update st'.inbox p (st'.inbox p ++ [(b, tg)]) },
      by simp [MicroCcl.inpStep, h.inbox, hroom], { h with inbox := ?_ }⟩
    simp only [h.inbox]

end MirrorState

theorem MirrorState.reaches {p : Fin P → Proc P α β A} {p' : Fin P → Proc P α (β × Record α β) A}
    {l : Fin P → Local α β} {s : Fin P → RankState P α β A} (hp : ∀ r, Mirrors (p r) (p' r))
    (h : Reaches (fabric P α β A cap) (start p l) s) :
    ∃ s', Reaches (fabric P α (β × Record α β) A cap) (start p' fun r => (l r).blank) s' ∧
      ∀ r, MirrorState (s r) (s' r) := by
  refine reaches_simulates (S := fun _ => MirrorState) ?_ (fun hS h => hS.outStep h)
    (fun hS h => hS.inpStep h) (fun r => ?_) h
  · rintro r (_ | q) st t st' hS h
    · exact hS.opStep h
    · exact hS.completeStep h
  · exact ⟨hp r, rfl, rfl, rfl, rfl, rfl, rfl, rfl, by simp [start, atRest],
      by simp [start, atRest]⟩

section Rounds

variable {γ : Type}

def Round.mapRecv (f : RecvPart α β → RecvPart α γ) (G : Round P α β) : Round P α γ := fun r =>
  ⟨(G r).recv.map fun z => (z.1, f z.2), (G r).send⟩

/-- The receive that expects what it is posted for. It reduces only where the code would. -/
def RecvPart.fit (v : RecvPart α β) : RecvPart α β :=
  { v with
    expected := v.wr.length
    reduce := if v.expected = v.wr.length then v.reduce else none }

def RecvPart.noted (v : RecvPart α β) : RecvPart α (β × Record α β) :=
  ⟨v.wr, v.expected, v.mismatch, v.reduce.map recorded⟩

def Round.fit (G : Round P α β) : Round P α β := G.mapRecv RecvPart.fit

def Round.noted (G : Round P α β) : Round P α (β × Record α β) := G.mapRecv RecvPart.noted

theorem RecvPart.mirrors_finish {v : RecvPart α β} (hlen : v.wr.length = v.expected % 2 ^ 32)
    {wc : Wc} (hwc : wc.byteLen < 2 ^ 32) :
    Mirrors (P := P) (v.finish wc) (v.fit.noted.finish wc) := by
  by_cases h : wc.byteLen = v.expected
  · -- the code has got what it expects, so the length was not truncated
    have he : v.expected = v.wr.length := by
      rw [hlen, Nat.mod_eq_of_lt (h ▸ hwc)]
    simp only [RecvPart.finish, RecvPart.noted, RecvPart.fit, ← he, h, ne_eq, not_true,
      if_false, if_true]
    cases v.reduce with
    | none => exact .pure ()
    | some f => exact .upd f (.pure ())
  · rw [RecvPart.finish, if_pos h]
    exact .throw _ _

theorem mirrors_checkWc {f : Wc → Proc P α β A} {f' : Wc → Proc P α (β × Record α β) A} (wc : Wc)
    (hf : Mirrors (f wc) (f' wc)) : Mirrors (checkWc wc >>= f) (checkWc wc >>= f') := by
  unfold checkWc
  split_ifs
  · exact .throw _ _
  · exact hf

theorem Round.mirrors {G : Round P α β} {r : Fin P}
    (hlen : ∀ z ∈ (G r).recv, z.2.wr.length = z.2.expected % 2 ^ 32) :
    Mirrors (G r).proc (G.fit.noted r).proc := by
  unfold Xfer.proc Round.fit Round.noted Round.mapRecv
  refine Mirrors.bind ?_ fun _ => Mirrors.bind ?_ fun _ => Mirrors.bind ?_ fun _ => ?_
  · rcases hr : (G r).recv with _ | ⟨q, v⟩
    · exact .pure ()
    · refine .postRecv q v.wr ?_ (.pure ())
      rw [hlen (q, v) hr]
      exact Nat.mod_lt _ (Nat.two_pow_pos 32)
  · rcases (G r).send with _ | ⟨q, wr⟩
    · exact .pure ()
    · exact .postSend q wr (.pure ())
  · rcases (G r).send with _ | ⟨q, wr⟩
    · exact .pure ()
    · exact .pollSend fun wc => mirrors_checkWc wc (.pure ())
  · rcases hr : (G r).recv with _ | ⟨q, v⟩
    · exact .pure ()
    · exact .pollRecv fun wc hwc => mirrors_checkWc wc (v.mirrors_finish (hlen (q, v) hr) hwc)

theorem roundsProc_mirrors {Gs : List (Round P α β)} {r : Fin P}
    (hlen : ∀ G ∈ Gs, ∀ z ∈ (G r).recv, z.2.wr.length = z.2.expected % 2 ^ 32) :
    Mirrors (roundsProc Gs r) (roundsProc ((Gs.map Round.fit).map Round.noted) r) := by
  induction Gs with
  | nil => exact .pure ()
  | cons G Gs ih =>
    rw [List.map_cons, List.map_cons, roundsProc_cons, roundsProc_cons]
    exact (Round.mirrors (hlen G (by simp))).bind fun _ => ih fun G' hG' => hlen G' (by simp [hG'])

theorem Round.mapRecv_recv {f : RecvPart α β → RecvPart α γ} {G : Round P α β} {r q : Fin P}
    {v' : RecvPart α γ} : (G.mapRecv f r).recv = some (q, v') ↔
      ∃ v, (G r).recv = some (q, v) ∧ f v = v' := by
  rcases hr : (G r).recv with _ | ⟨q', v⟩ <;> simp [Round.mapRecv, hr]

theorem Round.Paired.mapRecv {G : Round P α β} (hG : G.Paired)
    {f : RecvPart α β → RecvPart α γ} (hf : ∀ v, (f v).wr = v.wr) : (G.mapRecv f).Paired where
  apart := by
    rintro r y hy ⟨q, v'⟩ hz
    obtain ⟨v, hv, rfl⟩ := Round.mapRecv_recv.mp hz
    rw [hf]
    exact hG.apart r y hy (q, v) hv
  send_recv := by
    intro i j wr h
    obtain ⟨hne, v, hv, hlen, htag⟩ := hG.send_recv h
    refine ⟨hne, f v, Round.mapRecv_recv.mpr ⟨v, hv, rfl⟩, ?_, ?_⟩
    · rw [hf, hlen]
    · rw [hf, htag]
  recv_send := by
    intro i j v' h
    obtain ⟨v, hv, -⟩ := Round.mapRecv_recv.mp h
    exact hG.recv_send hv

theorem Round.Paired.fit_matched {G : Round P α β} (hG : G.Paired) : G.fit.noted.Matched := by
  have hpaired : G.fit.noted.Paired :=
    Round.Paired.mapRecv (f := RecvPart.noted)
      (Round.Paired.mapRecv (f := RecvPart.fit) hG fun _ => rfl) fun _ => rfl
  refine hpaired.matched fun r z hz => ?_
  obtain ⟨v, hv, he⟩ := Round.mapRecv_recv.mp hz
  obtain ⟨w, -, rfl⟩ := Round.mapRecv_recv.mp hv
  rw [← he]
  rfl

/-- The update of a rank in the round, with the memory it finds when all ranks do the round
together. -/
def Round.found (G : Round P α β) (l : Fin P → Local α β) (r : Fin P) : Record α β :=
  match (G r).recv with
  | some (q, v) => v.reduce.toList.map fun f => (f, (v.store (l r) (G.payload l q)).mem)
  | none => []

theorem Round.sync_noted (G : Round P α β) (l : Fin P → Local α (β × Record α β)) (r : Fin P) :
    (G.noted.sync l r).plain = G.sync (fun q => (l q).plain) r ∧
      (G.noted.sync l r).vars.2 = (l r).vars.2 ++ G.found (fun q => (l q).plain) r := by
  unfold Round.sync Round.found Round.noted Round.mapRecv
  rcases (G r).recv with _ | ⟨q, v⟩
  · exact ⟨rfl, (List.append_nil _).symm⟩
  · simp only [Option.map_some, RecvPart.apply, RecvPart.noted]
    cases v.reduce with
    | none => exact ⟨rfl, (List.append_nil _).symm⟩
    | some f => exact ⟨rfl, rfl⟩

theorem mem_record {Gs : List (Round P α β)} {l : Fin P → Local α (β × Record α β)} {r : Fin P}
    {e : (Local α β → Local α β) × Mem α}
    (he : e ∈ (syncAll (Gs.map Round.noted) l r).vars.2) : e ∈ (l r).vars.2 ∨
      ∃ t, ∃ G : Round P α β, Gs[t]? = some G ∧
        e ∈ G.found (syncAll (Gs.take t) fun q => (l q).plain) r := by
  induction Gs generalizing l with
  | nil => exact Or.inl he
  | cons G Gs ih =>
    rcases ih (l := G.noted.sync l) he with he | ⟨t, G', hG', he⟩
    · rw [(G.sync_noted l r).2, List.mem_append] at he
      exact he.imp_right fun he => ⟨0, G, rfl, he⟩
    · refine Or.inr ⟨t + 1, G', hG', ?_⟩
      rwa [funext fun q => (G.sync_noted l q).1] at he

theorem record_reaches {Gs : List (Round P α β)} (hGs : ∀ G ∈ Gs, G.noted.Matched)
    {l : Fin P → Local α (β × Record α β)} {s : Fin P → RankState P α (β × Record α β) Unit}
    (hs : Reaches (fabric P α (β × Record α β) Unit cap)
      (start (roundsProc (Gs.map Round.noted)) l) s)
    {r : Fin P} {f : Local α β → Local α β} {k : Proc P α (β × Record α β) Unit}
    (hf : (s r).proc = .upd (recorded f) k) :
    (f, (s r).loc.mem) ∈ (syncAll (Gs.map Round.noted) l r).vars.2 := by
  have hmatched : ∀ H ∈ Gs.map Round.noted, H.Matched := List.forall_mem_map.mpr hGs
  have hall : (roundsProc (Gs.map Round.noted) r).All (fun _ => True)
      (fun g => ∃ f : Local α β → Local α β, g = recorded f) := by
    refine roundsProc_all (fun _ _ _ _ => trivial) fun H hH z hz g hg => ?_
    obtain ⟨G, -, rfl⟩ := List.mem_map.mp hH
    obtain ⟨v, -, hv⟩ := Round.mapRecv_recv.mp hz
    rw [← hv] at hg
    obtain ⟨f, -, hf⟩ := Option.map_eq_some_iff.mp hg
    exact ⟨f, hf.symm⟩
  -- make the update, then go on to the end
  let t : RankState P α (β × Record α β) Unit := { s r with proc := k, loc := recorded f (s r).loc }
  have hstep : Step (fabric P α (β × Record α β) Unit cap) s (Function.update s r t) :=
    Step.act r Act.op (by simp [fabric, actStep, opStep, hf, t])
  have hleads : Leads cap (roundsProc (Gs.map Round.noted)) l (fun _ => .pure ())
      (syncAll (Gs.map Round.noted) l) := by
    simpa only [Proc.bind_unit] using rounds_leads hmatched (fun _ => .pure ()) l
  obtain ⟨e, he, hquiet⟩ := hleads.settles
    (rounds_disciplined fun H hH => (hmatched H hH).apart) (hs.tail hstep)
  have hcode := Guarded.of_start (I := fun _ => True) (fun _ _ _ _ => trivial)
    (fun _ _ _ _ _ => trivial) hall (hs.tail hstep) trivial
  have hguard : Guarded (fun _ => True) (fun g => ∃ f : Local α β → Local α β, g = recorded f)
      (fun m => (f, (s r).loc.mem) ∈ m.vars.2) (Function.update s r t r) := by
    refine ⟨hcode.proc, hcode.recvQ, ?_⟩
    rw [Function.update_self]
    exact List.mem_append_right _ (List.mem_singleton.mpr rfl)
  have hend := Guarded.reaches ?_ (fun _ _ _ _ hm => hm) hguard he
  · rw [← (hquiet r).loc]
    exact hend.loc
  · rintro g m ⟨f, rfl⟩ hm
    exact List.mem_append_left _ hm

theorem Round.mem_found_fit {G : Round P α β} {l : Fin P → Local α β} {r : Fin P}
    {f : Local α β → Local α β} {m : Mem α} (h : (f, m) ∈ G.fit.found l r) :
    ∃ q v, (G r).recv = some (q, v) ∧ v.expected = v.wr.length ∧ v.reduce = some f ∧
      m = (v.store (l r) (G.payload l q)).mem := by
  unfold Round.found at h
  rcases hr : (G r).recv with _ | ⟨q, v⟩
  · simp [Round.fit, Round.mapRecv, hr] at h
  · simp only [Round.fit, Round.mapRecv, hr, Option.map_some, RecvPart.fit] at h
    split_ifs at h with he
    · simp only [List.mem_map, Option.mem_toList, Prod.mk.injEq] at h
      obtain ⟨g, hg, rfl, rfl⟩ := h
      exact ⟨q, v, rfl, he, hg, rfl⟩
    · simp at h

theorem Round.fit_sync {G : Round P α β} {r : Fin P}
    (h : ∀ z ∈ (G r).recv, z.2.expected = z.2.wr.length) (l : Fin P → Local α β) :
    G.fit.sync l r = G.sync l r := by
  unfold Round.sync
  rcases hr : (G r).recv with _ | ⟨q, v⟩
  · simp only [Round.fit, Round.mapRecv, hr, Option.map_none]
  · have he : v.expected = v.wr.length := h (q, v) hr
    simp only [Round.fit, Round.mapRecv, hr, Option.map_some, RecvPart.fit, if_pos he]
    rfl

theorem Round.fit_sync_truncated {G : Round P α β} {r q : Fin P} {v : RecvPart α β}
    (hv : (G r).recv = some (q, v)) (h : v.expected ≠ v.wr.length) (l : Fin P → Local α β) :
    G.fit.sync l r = v.store (l r) (G.payload l q) := by
  have hfit : (G.fit r).recv = some (q, v.fit) := Round.mapRecv_recv.mpr ⟨v, hv, rfl⟩
  rw [Round.sync_of_recv _ hfit]
  simp only [RecvPart.apply, RecvPart.fit, if_neg h]
  rfl

theorem syncAll_fit {Gs : List (Round P α β)}
    (h : ∀ G ∈ Gs, ∀ r, ∀ z ∈ (G r).recv, z.2.expected = z.2.wr.length) (l : Fin P → Local α β) :
    syncAll (Gs.map Round.fit) l = syncAll Gs l := by
  induction Gs generalizing l with
  | nil => rfl
  | cons G Gs ih =>
    have hG : G.fit.sync l = G.sync l := funext fun r => Round.fit_sync (h G (by simp) r) l
    change syncAll (Gs.map Round.fit) (G.fit.sync l) = syncAll Gs (G.sync l)
    rw [hG, ih fun G' hG' => h G' (by simp [hG'])]

theorem update_found {p : Fin P → Proc P α β Unit} {Gs : List (Round P α β)}
    (hp : ∀ r, p r = roundsProc Gs r ∨ ∃ e, p r = .throw e) (hGs : ∀ G ∈ Gs, G.Paired)
    (hlen : ∀ G ∈ Gs, ∀ r, ∀ z ∈ (G r).recv, z.2.wr.length = z.2.expected % 2 ^ 32)
    {l : Fin P → Local α β} {s : Fin P → RankState P α β Unit}
    (hs : Reaches (fabric P α β Unit cap) (start p l) s) {r : Fin P}
    {f : Local α β → Local α β} {k : Proc P α β Unit} (hf : (s r).proc = .upd f k) :
    ∃ t, ∃ G : Round P α β, Gs[t]? = some G ∧ ∃ q v, (G r).recv = some (q, v) ∧
      v.expected = v.wr.length ∧ v.reduce = some f ∧
      let l' := syncAll ((Gs.take t).map Round.fit) l
      (s r).loc.mem = (v.store (l' r) (G.payload l' q)).mem := by
  have hmirror : ∀ q, Mirrors (p q) (roundsProc ((Gs.map Round.fit).map Round.noted) q) := by
    intro q
    rcases hp q with hq | ⟨e, hq⟩
    · rw [hq]
      exact roundsProc_mirrors fun G hG => hlen G hG q
    · rw [hq]
      exact .throw e _
  obtain ⟨s', hs', hS⟩ := MirrorState.reaches hmirror hs
  obtain ⟨k', hf'⟩ : ∃ k', (s' r).proc = .upd (recorded f) k' := by
    have hcode := (hS r).proc
    rw [hf] at hcode
    generalize (s' r).proc = p' at hcode
    cases hcode with
    | @upd _ k' _ _ => exact ⟨k', rfl⟩
  have hmem := record_reaches (List.forall_mem_map.mpr fun G hG => (hGs G hG).fit_matched) hs' hf'
  rw [(hS r).mem_eq] at hmem
  rcases mem_record hmem with hmem | ⟨t, H, hH, hmem⟩
  · exact absurd hmem List.not_mem_nil
  · rw [List.getElem?_map] at hH
    obtain ⟨G, hG, rfl⟩ := Option.map_eq_some_iff.mp hH
    rw [← List.map_take] at hmem
    exact ⟨t, G, hG, Round.mem_found_fit hmem⟩

end Rounds

end MicroCcl

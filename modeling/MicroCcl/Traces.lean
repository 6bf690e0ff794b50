import MicroCcl.History

namespace MicroCcl
open Network

inductive Event (P : ℕ) (α β : Type) where
  | postRecv (x : Fin P × Wr)
  | postSend (x : Fin P × Wr)
  | waitSend (x : Fin P × Wr)
  | waitRecv (x : Fin P × Wr) (expected : ℕ)
  | update (f : Local α β → Local α β)

variable {P : ℕ} {α β A B : Type} {cap : Fin P → Fin P → ℕ}

def sendsPosted (es : List (Event P α β)) : List (Fin P × Wr) :=
  es.filterMap fun
    | .postSend x => some x
    | _ => none

def recvsPosted (es : List (Event P α β)) : List (Fin P × Wr) :=
  es.filterMap fun
    | .postRecv x => some x
    | _ => none

def sendWaits (es : List (Event P α β)) : List (Fin P × Wr) :=
  es.filterMap fun
    | .waitSend x => some x
    | _ => none

/-- The receives that were waited for, with the completion that passes the checks. -/
def recvWaits (es : List (Event P α β)) : List ((Fin P × Wr) × Wc) :=
  es.filterMap fun
    | .waitRecv x n => some (x, ⟨.success, n⟩)
    | _ => none

@[simp] theorem sendsPosted_append (es es' : List (Event P α β)) :
    sendsPosted (es ++ es') = sendsPosted es ++ sendsPosted es' := List.filterMap_append

@[simp] theorem recvsPosted_append (es es' : List (Event P α β)) :
    recvsPosted (es ++ es') = recvsPosted es ++ recvsPosted es' := List.filterMap_append

@[simp] theorem sendWaits_append (es es' : List (Event P α β)) :
    sendWaits (es ++ es') = sendWaits es ++ sendWaits es' := List.filterMap_append

@[simp] theorem recvWaits_append (es es' : List (Event P α β)) :
    recvWaits (es ++ es') = recvWaits es ++ recvWaits es' := List.filterMap_append

/-- With `ps` and `pr` outstanding the process does `es`, unless it throws. What is sent and what
is received into at the same time is in the relation `D`. -/
def Follows (D : Wr → Wr → Prop) : Option (Fin P × Wr) → Option (Fin P × Wr) → Proc P α β A →
    List (Event P α β) → Prop
  | ps, pr, .pure _, es => ps = none ∧ pr = none ∧ es = []
  | _, _, .throw _, _ => True
  | ps, pr, .postRecv p wr k, es => pr = none ∧ (∀ y ∈ ps, D y.2 wr) ∧
    ∃ es', es = .postRecv (p, wr) :: es' ∧ Follows D ps (some (p, wr)) k es'
  | ps, pr, .postSend p wr k, es => ps = none ∧ (∀ z ∈ pr, D wr z.2) ∧
    ∃ es', es = .postSend (p, wr) :: es' ∧ Follows D (some (p, wr)) pr k es'
  | ps, pr, .pollSend k, es => ∃ y es', ps = some y ∧ es = .waitSend y :: es' ∧
    ∀ wc, Follows D none pr (k wc) es'
  -- a completion other than the expected one ends the call
  | ps, pr, .pollRecv k, es => ∃ z n es', pr = some z ∧ es = .waitRecv z n :: es' ∧
    ∀ wc, (∃ e, k wc = .throw e) ∨ wc = ⟨.success, n⟩ ∧ Follows D ps none (k wc) es'
  | ps, pr, .upd f k, es => ps = none ∧ pr = none ∧
    ∃ es', es = .update f :: es' ∧ Follows D none none k es'
  | ps, pr, .sendByte _ _ _ k, es => Follows D ps pr k es
  | ps, pr, .recvByte _ _ k, es => ∀ b, Follows D ps pr (k b) es

variable {D : Wr → Wr → Prop}

theorem Follows.bind {ps pr : Option (Fin P × Wr)} {p : Proc P α β A} {es es' : List (Event P α β)}
    {f : A → Proc P α β B} (hp : Follows D ps pr p es) (hf : ∀ a, Follows D none none (f a) es') :
    Follows D ps pr (p >>= f) (es ++ es') := by
  induction p generalizing ps pr es with
  | pure a =>
    obtain ⟨rfl, rfl, rfl⟩ := hp
    exact hf a
  | throw e => trivial
  | postRecv q wr k ih =>
    obtain ⟨h1, h2, es₁, rfl, hk⟩ := hp
    exact ⟨h1, h2, es₁ ++ es', rfl, ih hk⟩
  | postSend q wr k ih =>
    obtain ⟨h1, h2, es₁, rfl, hk⟩ := hp
    exact ⟨h1, h2, es₁ ++ es', rfl, ih hk⟩
  | pollSend k ih =>
    obtain ⟨y, es₁, h1, rfl, hk⟩ := hp
    exact ⟨y, es₁ ++ es', h1, rfl, fun wc => ih wc (hk wc)⟩
  | pollRecv k ih =>
    obtain ⟨z, n, es₁, h1, rfl, hk⟩ := hp
    refine ⟨z, n, es₁ ++ es', h1, rfl, fun wc => (hk wc).imp ?_ fun h => ⟨h.1, ih wc h.2⟩⟩
    rintro ⟨e, he⟩
    exact ⟨e, congrArg (·.bind f) he⟩
  | upd g k ih =>
    obtain ⟨h1, h2, es₁, rfl, hk⟩ := hp
    exact ⟨h1, h2, es₁ ++ es', rfl, ih hk⟩
  | sendByte q b t k ih => exact ih hp
  | recvByte q t k ih => exact fun b => ih b (hp b)

def Xfer.events (x : Xfer P α β) : List (Event P α β) :=
  x.recv.toList.map (fun z => .postRecv (z.1, z.2.wr)) ++ x.send.toList.map .postSend ++
    x.send.toList.map .waitSend ++ x.recv.toList.flatMap fun z =>
      .waitRecv (z.1, z.2.wr) z.2.expected :: z.2.reduce.toList.map .update

def roundsEvents (Gs : List (Round P α β)) (r : Fin P) : List (Event P α β) :=
  Gs.flatMap fun G => (G r).events

theorem follows_checkWc {pr : Option (Fin P × Wr)} (wc : Wc) {k : Proc P α β A}
    {es : List (Event P α β)} (hk : Follows D none pr k es) :
    Follows D none pr (checkWc wc >>= fun _ => k) es := by
  unfold checkWc
  split_ifs
  · trivial
  · exact hk

theorem finish_cases (v : RecvPart α β) (wc : Wc) :
    (∃ e, (checkWc wc >>= fun wc => v.finish wc) = (.throw e : Proc P α β Unit)) ∨
      wc = ⟨.success, v.expected⟩ ∧ (checkWc wc >>= fun wc => v.finish wc) =
        match v.reduce with
        | some f => (.upd f (.pure ()) : Proc P α β Unit)
        | none => .pure () := by
  by_cases hstatus : wc.status ≠ .success
  · exact Or.inl ⟨_, by rw [checkWc, if_pos hstatus]; rfl⟩
  · rw [checkWc, if_neg hstatus, Proc.pure_bind', RecvPart.finish]
    by_cases hlen : wc.byteLen ≠ v.expected
    · exact Or.inl ⟨_, by rw [if_pos hlen]⟩
    · refine Or.inr ⟨?_, (if_neg hlen).trans (by cases v.reduce <;> rfl)⟩
      obtain ⟨status, byteLen⟩ := wc
      rw [← not_not.mp hstatus, ← not_not.mp hlen]

theorem Xfer.follows {x : Xfer P α β} (hx : ∀ y ∈ x.send, ∀ z ∈ x.recv, D y.2 z.2.wr) :
    Follows D none none x.proc x.events := by
  obtain ⟨rv, sd⟩ := x
  have hfin : ∀ (v : RecvPart α β) wc, (∃ e, (checkWc wc >>= fun wc => v.finish wc) =
      (.throw e : Proc P α β Unit)) ∨ wc = ⟨.success, v.expected⟩ ∧
      Follows D none none (checkWc wc >>= fun wc => v.finish (P := P) wc)
        (v.reduce.toList.map .update) := by
    intro v wc
    refine (finish_cases v wc).imp id fun h => ⟨h.1, ?_⟩
    rw [h.2]
    cases v.reduce with
    | none => exact ⟨rfl, rfl, rfl⟩
    | some f => exact ⟨rfl, rfl, [], rfl, rfl, rfl, rfl⟩
  rcases rv with _ | ⟨q, v⟩ <;> rcases sd with _ | ⟨q', wr⟩ <;>
    simp only [Xfer.proc, Xfer.postRecv, Xfer.postSend, Xfer.waitSend, Xfer.waitRecv,
      waitCompletion, Proc.pure_bind', Proc.postRecv_bind, Proc.postSend_bind,
      Proc.pollSend_bind, Proc.pollRecv_bind, bind_assoc]
  · exact ⟨rfl, rfl, rfl⟩
  · exact ⟨rfl, by simp, _, rfl, _, _, rfl, rfl, fun wc => follows_checkWc wc ⟨rfl, rfl, rfl⟩⟩
  · refine ⟨rfl, by simp, _, rfl, _, _, _, rfl, rfl, fun wc => ?_⟩
    simpa using hfin v wc
  · refine ⟨rfl, by simp, _, rfl, rfl, by simpa using hx _ rfl _ rfl, _, rfl, _, _, rfl, rfl,
      fun wc => follows_checkWc wc ⟨_, _, _, rfl, rfl, fun wc => ?_⟩⟩
    simpa using hfin v wc

theorem rounds_follows {Gs : List (Round P α β)} {r : Fin P}
    (h : ∀ G ∈ Gs, ∀ y ∈ (G r).send, ∀ z ∈ (G r).recv, D y.2 z.2.wr) :
    Follows D none none (roundsProc Gs r) (roundsEvents Gs r) := by
  induction Gs with
  | nil => exact ⟨rfl, rfl, rfl⟩
  | cons G Gs ih =>
    exact (Xfer.follows (h G (by simp))).bind fun _ => ih fun G' hG' => h G' (by simp [hG'])

/-- A delivery as the receiver sees it: its request and the completion. -/
def answer (e : Fin P × Wr × Wr) : (Fin P × Wr) × Wc := ((e.1, e.2.2), completionOf e)

/-- The sends that were waited for have been taken by the NIC in this order; the outstanding one
is queued, taken or completed. -/
inductive SendSide (st : RankState P α β A) (waited : List (Fin P × Wr)) :
    Option (Fin P × Wr) → Prop
  | idle (hq : st.sendQ = fun _ => []) (ha : st.acks = fun _ => []) (hc : st.sendCq = [])
      (hs : st.sent = waited) : SendSide st waited none
  | queued (y : Fin P × Wr) (hq : st.sendQ = Function.update (fun _ => []) y.1 [y.2])
      (ha : st.acks = fun _ => []) (hc : st.sendCq = []) (hs : st.sent = waited) :
      SendSide st waited (some y)
  | taken (y : Fin P × Wr) (a : WcStatus) (hq : st.sendQ = fun _ => [])
      (ha : st.acks = Function.update (fun _ => []) y.1 [a]) (hc : st.sendCq = [])
      (hs : st.sent = waited ++ [y]) : SendSide st waited (some y)
  | completed (y : Fin P × Wr) (wc : Wc) (hq : st.sendQ = fun _ => []) (ha : st.acks = fun _ => [])
      (hc : st.sendCq = [wc]) (hs : st.sent = waited ++ [y]) : SendSide st waited (some y)

/-- The receives that were waited for have been filled in this order; the outstanding one is
queued, filled, or its completion made the rank throw. -/
inductive RecvSide (st : RankState P α β A) (waited : List ((Fin P × Wr) × Wc)) :
    Option (Fin P × Wr) → Prop
  | idle (hq : st.recvQ = fun _ => []) (hc : st.recvCq = []) (hl : st.log.map answer = waited) :
      RecvSide st waited none
  | queued (z : Fin P × Wr) (hq : st.recvQ = Function.update (fun _ => []) z.1 [z.2])
      (hc : st.recvCq = []) (hl : st.log.map answer = waited) : RecvSide st waited (some z)
  | filled (z : Fin P × Wr) (wc : Wc) (hq : st.recvQ = fun _ => []) (hc : st.recvCq = [wc])
      (hl : st.log.map answer = waited ++ [(z, wc)]) : RecvSide st waited (some z)
  | refused (z : Fin P × Wr) (wc : Wc) (hq : st.recvQ = fun _ => []) (hc : st.recvCq = [])
      (hl : st.log.map answer = waited ++ [(z, wc)]) : RecvSide st waited (some z)

/-- The rank has done `done` and has `todo` before it. -/
structure Progress (D : Wr → Wr → Prop) (st : RankState P α β A) (done todo : List (Event P α β))
    (ps pr : Option (Fin P × Wr)) : Prop where
  code : Follows D ps pr st.proc todo
  sends : SendSide st (sendWaits done) ps
  recvs : RecvSide st (recvWaits done) pr
  posted : sendsPosted done = sendWaits done ++ ps.toList
  postedRecvs : recvsPosted done = (recvWaits done).map Prod.fst ++ pr.toList
  apart : ∀ y ∈ ps, ∀ z ∈ pr, D y.2 z.2

/-- The rank is somewhere in `trace`. -/
def Along (D : Wr → Wr → Prop) (trace : List (Event P α β)) (st : RankState P α β A) : Prop :=
  ∃ done todo ps pr, done ++ todo = trace ∧ Progress D st done todo ps pr

section Queues

variable {st : RankState P α β A} {ws : List (Fin P × Wr)} {wr : List ((Fin P × Wr) × Wc)}
  {ps pr : Option (Fin P × Wr)}

theorem SendSide.of_eq {t : RankState P α β B} (h : SendSide st ws ps) (hq : t.sendQ = st.sendQ)
    (ha : t.acks = st.acks) (hc : t.sendCq = st.sendCq) (hs : t.sent = st.sent) :
    SendSide t ws ps := by
  cases h with
  | idle h1 h2 h3 h4 => exact .idle (hq.trans h1) (ha.trans h2) (hc.trans h3) (hs.trans h4)
  | queued y h1 h2 h3 h4 =>
    exact .queued y (hq.trans h1) (ha.trans h2) (hc.trans h3) (hs.trans h4)
  | taken y a h1 h2 h3 h4 =>
    exact .taken y a (hq.trans h1) (ha.trans h2) (hc.trans h3) (hs.trans h4)
  | completed y wc h1 h2 h3 h4 =>
    exact .completed y wc (hq.trans h1) (ha.trans h2) (hc.trans h3) (hs.trans h4)

theorem RecvSide.of_eq {t : RankState P α β B} (h : RecvSide st wr pr) (hq : t.recvQ = st.recvQ)
    (hc : t.recvCq = st.recvCq) (hl : t.log = st.log) : RecvSide t wr pr := by
  cases h with
  | idle h1 h2 h3 => exact .idle (hq.trans h1) (hc.trans h2) (hl ▸ h3)
  | queued z h1 h2 h3 => exact .queued z (hq.trans h1) (hc.trans h2) (hl ▸ h3)
  | filled z wc h1 h2 h3 => exact .filled z wc (hq.trans h1) (hc.trans h2) (hl ▸ h3)
  | refused z wc h1 h2 h3 => exact .refused z wc (hq.trans h1) (hc.trans h2) (hl ▸ h3)

theorem SendSide.queue_cons (h : SendSide st ws ps) {p : Fin P} {w : Wr} {rest : List Wr}
    (hq : st.sendQ p = w :: rest) : ps = some (p, w) ∧ rest = [] ∧
      st.sendQ = Function.update (fun _ => []) p [w] ∧ st.acks = (fun _ => []) ∧ st.sendCq = [] ∧
      st.sent = ws := by
  cases h with
  | queued y h1 h2 h3 h4 =>
    by_cases hp : p = y.1
    · subst hp
      have hq' : y.2 = w ∧ rest = [] := by simpa [h1, eq_comm] using hq
      obtain ⟨rfl, rfl⟩ := hq'
      exact ⟨rfl, rfl, h1, h2, h3, h4⟩
    · simp [h1, hp] at hq
  | idle h1 => simp [h1] at hq
  | taken _ _ h1 => simp [h1] at hq
  | completed _ _ h1 => simp [h1] at hq

theorem SendSide.acks_cons (h : SendSide st ws ps) {p : Fin P} {a : WcStatus}
    {rest : List WcStatus} (hk : st.acks p = a :: rest) : ∃ y, ps = some y ∧ y.1 = p ∧ rest = [] ∧
      st.sendQ = (fun _ => []) ∧ st.acks = Function.update (fun _ => []) p [a] ∧ st.sendCq = [] ∧
      st.sent = ws ++ [y] := by
  cases h with
  | taken y a' h1 h2 h3 h4 =>
    by_cases hp : p = y.1
    · have hk' : a' = a ∧ rest = [] := by simpa [h2, hp, eq_comm] using hk
      obtain ⟨rfl, rfl⟩ := hk'
      exact ⟨y, rfl, hp.symm, rfl, h1, hp ▸ h2, h3, h4⟩
    · simp [h2, hp] at hk
  | idle _ h2 => simp [h2] at hk
  | queued _ _ h2 => simp [h2] at hk
  | completed _ _ _ h2 => simp [h2] at hk

theorem SendSide.cq_cons (h : SendSide st ws ps) {wc : Wc} {rest : List Wc}
    (hk : st.sendCq = wc :: rest) : ∃ y, ps = some y ∧ rest = [] ∧ st.sendQ = (fun _ => []) ∧
      st.acks = (fun _ => []) ∧ st.sent = ws ++ [y] := by
  cases h with
  | completed y wc' h1 h2 h3 h4 =>
    have hk' : wc' = wc ∧ rest = [] := by simpa [h3, eq_comm] using hk
    exact ⟨y, rfl, hk'.2, h1, h2, h4⟩
  | idle _ _ h3 => simp [h3] at hk
  | queued _ _ _ h3 => simp [h3] at hk
  | taken _ _ _ _ h3 => simp [h3] at hk

theorem RecvSide.queue_cons (h : RecvSide st wr pr) {p : Fin P} {w : Wr} {rest : List Wr}
    (hq : st.recvQ p = w :: rest) : pr = some (p, w) ∧ rest = [] ∧
      st.recvQ = Function.update (fun _ => []) p [w] ∧ st.recvCq = [] ∧
      st.log.map answer = wr := by
  cases h with
  | queued z h1 h2 h3 =>
    by_cases hp : p = z.1
    · subst hp
      have hq' : z.2 = w ∧ rest = [] := by simpa [h1, eq_comm] using hq
      obtain ⟨rfl, rfl⟩ := hq'
      exact ⟨rfl, rfl, h1, h2, h3⟩
    · simp [h1, hp] at hq
  | idle h1 => simp [h1] at hq
  | filled _ _ h1 => simp [h1] at hq
  | refused _ _ h1 => simp [h1] at hq

theorem RecvSide.cq_cons (h : RecvSide st wr pr) {wc : Wc} {rest : List Wc}
    (hk : st.recvCq = wc :: rest) : ∃ z, pr = some z ∧ rest = [] ∧ st.recvQ = (fun _ => []) ∧
      st.log.map answer = wr ++ [(z, wc)] := by
  cases h with
  | filled z wc' h1 h2 h3 =>
    have hk' : wc' = wc ∧ rest = [] := by simpa [h2, eq_comm] using hk
    exact ⟨z, rfl, hk'.2, h1, hk'.1 ▸ h3⟩
  | idle _ h2 => simp [h2] at hk
  | queued _ _ h2 => simp [h2] at hk
  | refused _ _ _ h2 => simp [h2] at hk

end Queues

theorem SendSide.keep {st : RankState P α β A} {t : RankState P α β B} {ws : List (Fin P × Wr)}
    {ps : Option (Fin P × Wr)} (h : SendSide st ws ps) {e : Event P α β} (he : sendWaits [e] = [])
    (hq : t.sendQ = st.sendQ) (ha : t.acks = st.acks) (hc : t.sendCq = st.sendCq)
    (hs : t.sent = st.sent) : SendSide t (ws ++ sendWaits [e]) ps := by
  rw [he, List.append_nil]
  exact h.of_eq hq ha hc hs

theorem RecvSide.keep {st : RankState P α β A} {t : RankState P α β B}
    {wr : List ((Fin P × Wr) × Wc)} {pr : Option (Fin P × Wr)} (h : RecvSide st wr pr)
    {e : Event P α β} (he : recvWaits [e] = []) (hq : t.recvQ = st.recvQ)
    (hc : t.recvCq = st.recvCq) (hl : t.log = st.log) :
    RecvSide t (wr ++ recvWaits [e]) pr := by
  rw [he, List.append_nil]
  exact h.of_eq hq hc hl

theorem along_of_done {t : RankState P α β A} {done todo : List (Event P α β)} {e : Event P α β}
    {ps pr : Option (Fin P × Wr)} (hcode : Follows D ps pr t.proc todo)
    (hs : SendSide t (sendWaits done ++ sendWaits [e]) ps)
    (hr : RecvSide t (recvWaits done ++ recvWaits [e]) pr)
    (hps : sendsPosted done ++ sendsPosted [e] =
      sendWaits done ++ sendWaits [e] ++ ps.toList)
    (hpr : recvsPosted done ++ recvsPosted [e] =
      (recvWaits done ++ recvWaits [e]).map Prod.fst ++ pr.toList)
    (hap : ∀ y ∈ ps, ∀ z ∈ pr, D y.2 z.2) : Along D (done ++ e :: todo) t := by
  refine ⟨done ++ [e], todo, ps, pr, by simp, hcode, ?_, ?_, ?_, ?_, hap⟩
  · rwa [sendWaits_append]
  · rwa [recvWaits_append]
  · rwa [sendsPosted_append, sendWaits_append]
  · rwa [recvsPosted_append, recvWaits_append]

theorem Along.opStep {trace : List (Event P α β)} {st t : RankState P α β A}
    (h : Along D trace st) (hm : opStep st = some t) : Along D trace t := by
  obtain ⟨done, todo, ps, pr, rfl, hcode, hs, hr, hps, hpr, hap⟩ := h
  cases opStep_cases hm with
  | postRecv q wr k hp =>
    rw [hp] at hcode
    obtain ⟨rfl, hd, es, rfl, hk⟩ := hcode
    cases hr with
    | idle h1 h2 h3 =>
      apply along_of_done hk
      · exact hs.keep rfl rfl rfl rfl rfl
      · exact .queued (q, wr) (by simp [h1]) h2 (by simpa [recvWaits] using h3)
      · simpa [sendsPosted, sendWaits] using hps
      · simpa [recvsPosted, recvWaits] using hpr
      · simpa using hd
  | postSend q wr k hp =>
    rw [hp] at hcode
    obtain ⟨rfl, hd, es, rfl, hk⟩ := hcode
    cases hs with
    | idle h1 h2 h3 h4 =>
      apply along_of_done hk
      · exact .queued (q, wr) (by simp [h1]) h2 h3 (by simpa [sendWaits] using h4)
      · exact hr.keep rfl rfl rfl rfl
      · simpa [sendsPosted, sendWaits] using hps
      · simpa [recvsPosted, recvWaits] using hpr
      · simpa using hd
  | pollSend k wc rest hp hc =>
    rw [hp] at hcode
    obtain ⟨y, es, rfl, rfl, hk⟩ := hcode
    obtain ⟨y', hy, rfl, h1, h2, h3⟩ := hs.cq_cons hc
    obtain rfl := Option.some.inj hy
    apply along_of_done (hk wc)
    · exact .idle h1 h2 rfl h3
    · exact hr.keep rfl rfl rfl rfl
    · simpa [sendsPosted, sendWaits] using hps
    · simpa [recvsPosted, recvWaits] using hpr
    · simp
  | pollRecv k wc rest hp hc =>
    rw [hp] at hcode
    obtain ⟨z, n, es, rfl, rfl, hk⟩ := hcode
    obtain ⟨z', hz, rfl, h1, h2⟩ := hr.cq_cons hc
    obtain rfl := Option.some.inj hz
    rcases hk wc with ⟨e, he⟩ | ⟨rfl, hk⟩
    -- the check fails and the rank stays where it is for good
    · refine ⟨done, _, ps, some z, rfl, ?_, hs.of_eq rfl rfl rfl rfl, .refused z wc h1 rfl h2, hps,
        hpr, hap⟩
      change Follows D ps (some z) (k wc) _
      rw [he]
      trivial
    · apply along_of_done hk
      · exact hs.keep rfl rfl rfl rfl rfl
      · exact .idle h1 rfl h2
      · simpa [sendsPosted, sendWaits] using hps
      · simpa [recvsPosted, recvWaits] using hpr
      · simp
  | upd f k hp =>
    rw [hp] at hcode
    obtain ⟨rfl, rfl, es, rfl, hk⟩ := hcode
    apply along_of_done hk
    · exact hs.keep rfl rfl rfl rfl rfl
    · exact hr.keep rfl rfl rfl rfl
    · simpa [sendsPosted, sendWaits] using hps
    · simpa [recvsPosted, recvWaits] using hpr
    · simp
  | recvByte q t t' k b rest hp hc =>
    rw [hp] at hcode
    exact ⟨done, todo, ps, pr, rfl, hcode b, hs.of_eq rfl rfl rfl rfl, hr.of_eq rfl rfl rfl, hps,
      hpr, hap⟩

theorem Along.completeStep {trace : List (Event P α β)} {st t : RankState P α β A} {p : Fin P}
    (h : Along D trace st) (hm : completeStep st p = some t) : Along D trace t := by
  obtain ⟨done, todo, ps, pr, rfl, hcode, hs, hr, hps, hpr, hap⟩ := h
  obtain ⟨a, rest, hk, rfl⟩ := completeStep_cases hm
  obtain ⟨y, rfl, rfl, rfl, h1, h2, h3, h4⟩ := hs.acks_cons hk
  refine ⟨done, todo, some y, pr, rfl, hcode, ?_, hr.of_eq rfl rfl rfl, hps, hpr, hap⟩
  refine .completed y ⟨a, 0⟩ h1 ?_ (by simp [h3]) h4
  simp only [h2, update_update_nil]

theorem Along.outStep {trace : List (Event P α β)} {st : RankState P α β A} {p : Fin P} {c : Chan}
    {m : Msg α} {g : WcStatus → RankState P α β A} (h : Along D trace st)
    (hm : outStep st p c = some (m, g)) (a : WcStatus) : Along D trace (g a) := by
  obtain ⟨done, todo, ps, pr, rfl, hcode, hs, hr, hps, hpr, hap⟩ := h
  cases c with
  | rdma =>
    obtain ⟨wr, rest, hq, -, rfl⟩ := outStep_rdma_cases hm
    obtain ⟨rfl, rfl, h1, h2, h3, h4⟩ := hs.queue_cons hq
    refine ⟨done, todo, some (p, wr), pr, rfl, hcode, ?_, hr.of_eq rfl rfl rfl, hps, hpr, hap⟩
    refine .taken (p, wr) a ?_ (by simp [h2]) h3 (by simp [h4])
    simp only [h1, update_update_nil]
  | tcp =>
    obtain ⟨b, tg, k, hp, -, rfl⟩ := outStep_tcp_cases hm
    rw [hp] at hcode
    exact ⟨done, todo, ps, pr, rfl, hcode, hs.of_eq rfl rfl rfl rfl, hr.of_eq rfl rfl rfl, hps,
      hpr, hap⟩

theorem Along.inpStep {trace : List (Event P α β)} {n : ℕ} {st t : RankState P α β A} {p : Fin P}
    {c : Chan} {m : Msg α} {a : WcStatus} (h : Along D trace st)
    (hm : inpStep n st p c m = some (a, t)) : Along D trace t := by
  obtain ⟨done, todo, ps, pr, rfl, hcode, hs, hr, hps, hpr, hap⟩ := h
  cases c with
  | rdma =>
    obtain ⟨wr, xs, rwr, rest, -, hq, hcase⟩ := inpStep_rdma_cases hm
    obtain ⟨rfl, rfl, h1, h2, h3⟩ := hr.queue_cons hq
    have hnil : Function.update st.recvQ p [] = fun _ => [] := by rw [h1, update_update_nil]
    -- accepted or refused, the entry of the queue is the completion of this delivery
    rcases hcase with ⟨hlen, -, rfl⟩ | ⟨hlen, -, rfl⟩ <;>
    · refine ⟨done, todo, ps, some (p, rwr), rfl, hcode, hs.of_eq rfl rfl rfl rfl,
        .filled (p, rwr) _ hnil (by rw [h2]; rfl) ?_, hps, hpr, hap⟩
      simp [h3, answer, completionOf, hlen]
  | tcp =>
    obtain ⟨b, tg, -, -, -, rfl⟩ := inpStep_tcp_cases hm
    exact ⟨done, todo, ps, pr, rfl, hcode, hs.of_eq rfl rfl rfl rfl, hr.of_eq rfl rfl rfl, hps,
      hpr, hap⟩

theorem Along.reaches {trace : List (Event P α β)} {s e : Fin P → RankState P α β A} {r : Fin P}
    (hs : Along D trace (s r)) (h : Reaches (fabric P α β A cap) s e) : Along D trace (e r) := by
  refine stable_of_moves (Q := Along D trace) ?_ (fun hQ h a => hQ.outStep h a)
    (fun hQ h => hQ.inpStep h) hs h
  intro st t l hQ hm
  cases l with
  | op => exact hQ.opStep hm
  | complete p => exact hQ.completeStep hm

theorem Follows.along {trace : List (Event P α β)} {p : Fin P → Proc P α β A}
    {l : Fin P → Local α β} {s : Fin P → RankState P α β A} {r : Fin P}
    (hp : Follows D none none (p r) trace) (h : Reaches (fabric P α β A cap) (start p l) s) :
    Along D trace (s r) :=
  Along.reaches (s := start p l) ⟨[], trace, none, none, rfl, hp, .idle rfl rfl rfl rfl,
    .idle rfl rfl rfl, rfl, rfl, by simp⟩ h

theorem Along.log_prefix {trace : List (Event P α β)} {st : RankState P α β A}
    (h : Along D trace st) : (st.log.map fun e => (e.1, e.2.2)) <+: recvsPosted trace := by
  obtain ⟨done, todo, ps, pr, rfl, -, -, hr, -, hpr, -⟩ := h
  have hlog : (st.log.map fun e => (e.1, e.2.2)) = (st.log.map answer).map Prod.fst := by
    rw [List.map_map]
    rfl
  have hdone : (st.log.map fun e => (e.1, e.2.2)) <+: recvsPosted done := by
    rw [hlog, hpr]
    cases hr with
    | idle _ _ hl => rw [hl]; exact List.prefix_append _ _
    | queued z _ _ hl => rw [hl]; exact List.prefix_append _ _
    | filled z wc _ _ hl => rw [hl, List.map_append]; exact List.prefix_rfl
    | refused z wc _ _ hl => rw [hl, List.map_append]; exact List.prefix_rfl
  apply hdone.trans
  rw [recvsPosted_append]
  exact List.prefix_append _ _

theorem Progress.sent_prefix {st : RankState P α β A} {done todo : List (Event P α β)}
    {ps pr : Option (Fin P × Wr)} (h : Progress D st done todo ps pr) :
    st.sent <+: sendsPosted done := by
  rw [h.posted]
  cases h.sends with
  | idle _ _ _ hsent => rw [hsent]; exact List.prefix_append _ _
  | queued y _ _ _ hsent => rw [hsent]; exact List.prefix_append _ _
  | taken y a _ _ _ hsent => rw [hsent]; exact List.prefix_rfl
  | completed y wc _ _ _ hsent => rw [hsent]; exact List.prefix_rfl

theorem Progress.waited_prefix {st : RankState P α β A} {done todo : List (Event P α β)}
    {ps pr : Option (Fin P × Wr)} (h : Progress D st done todo ps pr) :
    recvWaits done <+: st.log.map answer := by
  cases h.recvs with
  | idle _ _ hlog => rw [hlog]
  | queued z _ _ hlog => rw [hlog]
  | filled z wc _ _ hlog => rw [hlog]; exact List.prefix_append _ _
  | refused z wc _ _ hlog => rw [hlog]; exact List.prefix_append _ _

theorem Along.sent_prefix {trace : List (Event P α β)} {st : RankState P α β A}
    (h : Along D trace st) : st.sent <+: sendsPosted trace := by
  obtain ⟨done, todo, ps, pr, rfl, hprog⟩ := h
  rw [sendsPosted_append]
  exact hprog.sent_prefix.trans (List.prefix_append _ _)

theorem Along.returned {trace : List (Event P α β)} {st : RankState P α β A} {x : A}
    (h : Along D trace st) (hp : st.proc = .pure x) :
    st.sent = sendWaits trace ∧ st.log.map answer = recvWaits trace := by
  obtain ⟨done, todo, ps, pr, rfl, hcode, hs, hr, -, -, -⟩ := h
  rw [hp] at hcode
  obtain ⟨rfl, rfl, rfl⟩ := hcode
  rw [List.append_nil]
  cases hs with
  | idle _ _ _ hsent =>
    cases hr with
    | idle _ _ hlog => exact ⟨hsent, hlog⟩

theorem sendsPosted_roundsEvents (Gs : List (Round P α β)) (r : Fin P) :
    sendsPosted (roundsEvents Gs r) = Gs.flatMap fun G => (G r).send.toList := by
  induction Gs with
  | nil => rfl
  | cons G Gs ih =>
    rw [roundsEvents, List.flatMap_cons, sendsPosted_append, List.flatMap_cons]
    congr 1
    rcases G r with ⟨_ | ⟨q, v⟩, _ | y⟩ <;> simp [Xfer.events, sendsPosted]

theorem recvsPosted_roundsEvents (Gs : List (Round P α β)) (r : Fin P) :
    recvsPosted (roundsEvents Gs r) =
      Gs.flatMap fun G => (G r).recv.toList.map fun z => (z.1, z.2.wr) := by
  induction Gs with
  | nil => rfl
  | cons G Gs ih =>
    rw [roundsEvents, List.flatMap_cons, recvsPosted_append, List.flatMap_cons]
    congr 1
    rcases G r with ⟨_ | ⟨q, v⟩, _ | y⟩ <;> simp [Xfer.events, recvsPosted]

end MicroCcl

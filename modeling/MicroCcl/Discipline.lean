import MicroCcl.Fabric

namespace MicroCcl
open Network

/-- The two requests touch no common element. -/
def Wr.Apart (a b : Wr) : Prop :=
  a.buf ≠ b.buf ∨ a.off / 4 + a.length / 4 ≤ b.off / 4 ∨ b.off / 4 + b.length / 4 ≤ a.off / 4

theorem readRange_writeRange {α : Type} (m : Mem α) {a b : Wr} (h : a.Apart b) (xs : List α) :
    readRange (writeRange m b xs) a = readRange m a := by
  unfold readRange
  apply List.map_congr_left
  intro i hi
  rw [List.mem_range] at hi
  rw [writeRange, if_neg]
  rintro ⟨hb, h1, h2⟩
  rcases h with h | h | h
  · exact h hb
  · omega
  · omega

variable {P : ℕ} {α β A B : Type}

/-- `ps` and `pr` are the outstanding send and receive when the process starts;
a process that returns leaves none behind. -/
def Disciplined : Option (Fin P × Wr) → Option (Fin P × Wr) → Proc P α β A → Prop
  | ps, pr, .pure _ => ps = none ∧ pr = none
  | _, _, .throw _ => True
  | ps, pr, .postRecv p wr k =>
    pr = none ∧ (∀ x ∈ ps, x.2.Apart wr) ∧ Disciplined ps (some (p, wr)) k
  | ps, pr, .postSend p wr k =>
    ps = none ∧ (∀ x ∈ pr, wr.Apart x.2) ∧ Disciplined (some (p, wr)) pr k
  | ps, pr, .pollSend k => ps ≠ none ∧ ∀ wc, Disciplined none pr (k wc)
  | ps, pr, .pollRecv k => pr ≠ none ∧ ∀ wc, Disciplined ps none (k wc)
  -- a reduction reads and writes what the NIC may be working on
  | ps, pr, .upd _ k => ps = none ∧ pr = none ∧ Disciplined none none k
  | ps, pr, .sendByte _ _ _ k => Disciplined ps pr k
  | ps, pr, .recvByte _ _ k => ∀ b, Disciplined ps pr (k b)

theorem Disciplined.bind {ps pr : Option (Fin P × Wr)} {p : Proc P α β A} {f : A → Proc P α β B}
    (hp : Disciplined ps pr p) (hf : ∀ a, Disciplined none none (f a)) :
    Disciplined ps pr (p >>= f) := by
  induction p generalizing ps pr with
  | pure a =>
    obtain ⟨rfl, rfl⟩ := hp
    exact hf a
  | throw e => trivial
  | postRecv q wr k ih => exact ⟨hp.1, hp.2.1, ih hp.2.2⟩
  | postSend q wr k ih => exact ⟨hp.1, hp.2.1, ih hp.2.2⟩
  | pollSend k ih => exact ⟨hp.1, fun wc => ih wc (hp.2 wc)⟩
  | pollRecv k ih => exact ⟨hp.1, fun wc => ih wc (hp.2 wc)⟩
  | upd g k ih => exact ⟨hp.1, hp.2.1, ih hp.2.2⟩
  | sendByte q b t k ih => exact ih hp
  | recvByte q t k ih => exact fun b => ih b (hp b)

theorem Disciplined.forM {S : Type} {f : S → Proc P α β Unit}
    (hf : ∀ s, Disciplined none none (f s)) (ss : List S) : Disciplined none none (ss.forM f) := by
  induction ss with
  | nil => exact ⟨rfl, rfl⟩
  | cons s ss ih => exact (hf s).bind fun _ => ih

/-- Where the outstanding send is: in the queue, delivered, or completed. -/
inductive SendInv (sq : Fin P → List Wr) (ak : Fin P → List WcStatus) (cq : List Wc) :
    Option (Fin P × Wr) → Prop
  | idle (hq : sq = fun _ => []) (ha : ak = fun _ => []) (hc : cq = []) : SendInv sq ak cq none
  | queued (p : Fin P) (wr : Wr) (hq : sq = Function.update (fun _ => []) p [wr])
      (ha : ak = fun _ => []) (hc : cq = []) : SendInv sq ak cq (some (p, wr))
  | acked (p : Fin P) (wr : Wr) (a : WcStatus) (hq : sq = fun _ => [])
      (ha : ak = Function.update (fun _ => []) p [a]) (hc : cq = []) :
      SendInv sq ak cq (some (p, wr))
  | completed (p : Fin P) (wr : Wr) (wc : Wc) (hq : sq = fun _ => [])
      (ha : ak = fun _ => []) (hc : cq = [wc]) : SendInv sq ak cq (some (p, wr))

inductive RecvInv (rq : Fin P → List Wr) (cq : List Wc) : Option (Fin P × Wr) → Prop
  | idle (hq : rq = fun _ => []) (hc : cq = []) : RecvInv rq cq none
  | queued (p : Fin P) (wr : Wr) (hq : rq = Function.update (fun _ => []) p [wr])
      (hc : cq = []) : RecvInv rq cq (some (p, wr))
  | completed (p : Fin P) (wr : Wr) (wc : Wc) (hq : rq = fun _ => [])
      (hc : cq = [wc]) : RecvInv rq cq (some (p, wr))

structure RankInv (st : RankState P α β A) (ps pr : Option (Fin P × Wr)) : Prop where
  disciplined : Disciplined ps pr st.proc
  sends : SendInv st.sendQ st.acks st.sendCq ps
  recvs : RecvInv st.recvQ st.recvCq pr
  apart : ∀ x ∈ ps, ∀ y ∈ pr, x.2.Apart y.2

/-- The invariant of one rank. -/
def Orderly (st : RankState P α β A) : Prop := ∃ ps pr, RankInv st ps pr

theorem update_update_nil {X : Type} (p : Fin P) (x : X) :
    Function.update (Function.update (fun _ => ([] : List X)) p [x]) p [] = fun _ => [] := by
  funext q
  by_cases hq : q = p <;> simp [hq]

section Queues

variable {sq rq : Fin P → List Wr} {ak : Fin P → List WcStatus} {cq : List Wc}
  {ps pr : Option (Fin P × Wr)} {p : Fin P} {wr : Wr} {wc : Wc}

theorem SendInv.queue_cons (h : SendInv sq ak cq ps) {rest : List Wr} (hq : sq p = wr :: rest) :
    ps = some (p, wr) ∧ rest = [] ∧ sq = Function.update (fun _ => []) p [wr] ∧
      ak = (fun _ => []) ∧ cq = [] := by
  cases h with
  | idle hs => simp [hs] at hq
  | queued q wr' hs ha hc =>
    by_cases hpq : p = q
    · subst q
      have hq' : wr' = wr ∧ rest = [] := by simpa [hs, eq_comm] using hq
      obtain ⟨rfl, rfl⟩ := hq'
      exact ⟨rfl, rfl, hs, ha, hc⟩
    · simp [hs, hpq] at hq
  | acked _ _ _ hs => simp [hs] at hq
  | completed _ _ _ hs => simp [hs] at hq

theorem SendInv.acks_cons (h : SendInv sq ak cq ps) {a : WcStatus} {rest : List WcStatus}
    (hk : ak p = a :: rest) :
    (∃ wr, ps = some (p, wr)) ∧ rest = [] ∧ sq = (fun _ => []) ∧
      ak = Function.update (fun _ => []) p [a] ∧ cq = [] := by
  cases h with
  | idle _ ha => simp [ha] at hk
  | queued _ _ _ ha => simp [ha] at hk
  | acked q wr a' hs ha hc =>
    by_cases hpq : p = q
    · subst q
      have hk' : a' = a ∧ rest = [] := by simpa [ha, eq_comm] using hk
      obtain ⟨rfl, rfl⟩ := hk'
      exact ⟨⟨wr, rfl⟩, rfl, hs, ha, hc⟩
    · simp [ha, hpq] at hk
  | completed _ _ _ _ ha => simp [ha] at hk

theorem SendInv.cq_cons (h : SendInv sq ak cq ps) {rest : List Wc} (hk : cq = wc :: rest) :
    ps ≠ none ∧ rest = [] ∧ sq = (fun _ => []) ∧ ak = (fun _ => []) := by
  cases h with
  | idle _ _ hc => simp [hc] at hk
  | queued _ _ _ _ hc => simp [hc] at hk
  | acked _ _ _ _ _ hc => simp [hc] at hk
  | completed p wr wc' hs ha hc =>
    have hk' : wc' = wc ∧ rest = [] := by simpa [hc, eq_comm] using hk
    exact ⟨by simp, hk'.2, hs, ha⟩

theorem RecvInv.queue_cons (h : RecvInv rq cq pr) {rest : List Wr} (hq : rq p = wr :: rest) :
    pr = some (p, wr) ∧ rest = [] ∧ rq = Function.update (fun _ => []) p [wr] ∧ cq = [] := by
  cases h with
  | idle hs => simp [hs] at hq
  | queued q wr' hs hc =>
    by_cases hpq : p = q
    · subst q
      have hq' : wr' = wr ∧ rest = [] := by simpa [hs, eq_comm] using hq
      obtain ⟨rfl, rfl⟩ := hq'
      exact ⟨rfl, rfl, hs, hc⟩
    · simp [hs, hpq] at hq
  | completed _ _ _ hs => simp [hs] at hq

theorem RecvInv.cq_cons (h : RecvInv rq cq pr) {rest : List Wc} (hk : cq = wc :: rest) :
    pr ≠ none ∧ rest = [] ∧ rq = fun _ => [] := by
  cases h with
  | idle _ hc => simp [hc] at hk
  | queued _ _ _ hc => simp [hc] at hk
  | completed p wr wc' hs hc =>
    have hk' : wc' = wc ∧ rest = [] := by simpa [hc, eq_comm] using hk
    exact ⟨by simp, hk'.2, hs⟩

end Queues

theorem Orderly.opStep {st t : RankState P α β A} (hI : Orderly st) (h : opStep st = some t) :
    Orderly t := by
  obtain ⟨ps, pr, hd, hs, hr, hap⟩ := hI
  cases opStep_cases h with
  | postRecv q wr k hp =>
    rw [hp] at hd
    obtain ⟨rfl, hw, hk⟩ := hd
    cases hr with
    | idle hq hc =>
      exact ⟨ps, some (q, wr), hk, hs, .queued q wr (by simp [hq]) hc, by simpa using hw⟩
  | postSend q wr k hp =>
    rw [hp] at hd
    obtain ⟨rfl, hw, hk⟩ := hd
    cases hs with
    | idle hq ha hc =>
      exact ⟨some (q, wr), pr, hk, .queued q wr (by simp [hq]) ha hc, hr, by simpa using hw⟩
  | pollSend k wc rest hp hc =>
    rw [hp] at hd
    obtain ⟨-, rfl, hq, ha⟩ := hs.cq_cons hc
    exact ⟨none, pr, hd.2 wc, .idle hq ha rfl, hr, by simp⟩
  | pollRecv k wc rest hp hc =>
    rw [hp] at hd
    obtain ⟨-, rfl, hq⟩ := hr.cq_cons hc
    exact ⟨ps, none, hd.2 wc, hs, .idle hq rfl, by simp⟩
  | upd f k hp =>
    rw [hp] at hd
    obtain ⟨rfl, rfl, hk⟩ := hd
    exact ⟨none, none, hk, hs, hr, hap⟩
  | recvByte q t t' k b rest hp hc =>
    rw [hp] at hd
    exact ⟨ps, pr, hd b, hs, hr, hap⟩

theorem Orderly.completeStep {st t : RankState P α β A} {p : Fin P} (hI : Orderly st)
    (h : completeStep st p = some t) : Orderly t := by
  obtain ⟨ps, pr, hd, hs, hr, hap⟩ := hI
  obtain ⟨a, rest, hk, rfl⟩ := completeStep_cases h
  obtain ⟨⟨wr, rfl⟩, rfl, hq, ha, hc⟩ := hs.acks_cons hk
  refine ⟨some (p, wr), pr, hd, .completed p wr ⟨a, 0⟩ hq ?_ (by simp [hc]), hr, hap⟩
  simp only [ha, update_update_nil]

theorem Orderly.outStep {st : RankState P α β A} {p : Fin P} {c : Chan} {m : Msg α}
    {g : WcStatus → RankState P α β A} (hI : Orderly st) (h : outStep st p c = some (m, g))
    (a : WcStatus) : Orderly (g a) := by
  obtain ⟨ps, pr, hd, hs, hr, hap⟩ := hI
  cases c with
  | rdma =>
    obtain ⟨wr, rest, hq, -, rfl⟩ := outStep_rdma_cases h
    obtain ⟨rfl, rfl, hq', ha, hc⟩ := hs.queue_cons hq
    refine ⟨some (p, wr), pr, hd, .acked p wr a ?_ (by simp [ha]) hc, hr, hap⟩
    simp only [hq', update_update_nil]
  | tcp =>
    obtain ⟨b, tg, k, hp, -, rfl⟩ := outStep_tcp_cases h
    rw [hp] at hd
    exact ⟨ps, pr, hd, hs, hr, hap⟩

theorem Orderly.inpStep {cap : ℕ} {st t : RankState P α β A} {p : Fin P} {c : Chan} {m : Msg α}
    {a : WcStatus} (hI : Orderly st) (h : inpStep cap st p c m = some (a, t)) : Orderly t := by
  obtain ⟨ps, pr, hd, hs, hr, hap⟩ := hI
  cases c with
  | rdma =>
    obtain ⟨wr, xs, rwr, rest, -, hq, hcase⟩ := inpStep_rdma_cases h
    obtain ⟨rfl, rfl, hq', hc⟩ := hr.queue_cons hq
    have hnil : Function.update st.recvQ p [] = fun _ => [] := by rw [hq', update_update_nil]
    -- accepted or refused, the receive has its completion
    rcases hcase with ⟨-, -, rfl⟩ | ⟨-, -, rfl⟩
    · exact ⟨ps, some (p, rwr), hd, hs, .completed p rwr ⟨.success, wr.length⟩ hnil (by simp [hc]),
        hap⟩
    · exact ⟨ps, some (p, rwr), hd, hs, .completed p rwr ⟨.locLenErr, 0⟩ hnil (by simp [hc]), hap⟩
  | tcp =>
    obtain ⟨b, tg, -, -, -, rfl⟩ := inpStep_tcp_cases h
    exact ⟨ps, pr, hd, hs, hr, hap⟩

theorem opStep_frame_send {st t : RankState P α β A} (hI : Orderly st)
    (hb : (∃ p, st.sendQ p ≠ []) ∨ ∃ p, st.acks p ≠ []) (h : opStep st = some t) :
    t.sendQ = st.sendQ ∧ t.acks = st.acks ∧ t.sendCq = st.sendCq ∧ t.sent = st.sent ∧
      t.loc = st.loc ∧ ∀ sq ak cq sn,
        opStep { st with sendQ := sq, acks := ak, sendCq := cq, sent := sn } =
          some { t with sendQ := sq, acks := ak, sendCq := cq, sent := sn } := by
  obtain ⟨ps, pr, hd, hs, hr, hap⟩ := hI
  -- the send is queued or delivered, so there is no completion to poll yet
  have hbusy : ps ≠ none ∧ st.sendCq = [] := by
    rcases hb with ⟨p, hp⟩ | ⟨p, hp⟩
    · obtain ⟨wr, rest, he⟩ := List.exists_cons_of_ne_nil hp
      obtain ⟨rfl, -, -, -, hc⟩ := hs.queue_cons he
      exact ⟨by simp, hc⟩
    · obtain ⟨a, rest, he⟩ := List.exists_cons_of_ne_nil hp
      obtain ⟨⟨wr, rfl⟩, -, -, -, hc⟩ := hs.acks_cons he
      exact ⟨by simp, hc⟩
  cases opStep_cases h with
  | postSend q wr k hp =>
    rw [hp] at hd
    exact absurd hd.1 hbusy.1
  | pollSend k wc rest hp hc => simp [hbusy.2] at hc
  | upd f k hp =>
    rw [hp] at hd
    exact absurd hd.1 hbusy.1
  | postRecv q wr k hp => simp [opStep, hp]
  | pollRecv k wc rest hp hc => simp [opStep, hp, hc]
  | recvByte q t t' k b rest hp hc => simp [opStep, hp, hc]

theorem opStep_frame_recv {st t : RankState P α β A} (hI : Orderly st)
    (hb : ∃ p, st.recvQ p ≠ []) (h : opStep st = some t) :
    t.recvQ = st.recvQ ∧ t.recvCq = st.recvCq ∧ t.log = st.log ∧ t.loc = st.loc ∧
      ∀ rq lc cq lg, opStep { st with recvQ := rq, loc := lc, recvCq := cq, log := lg } =
        some { t with recvQ := rq, loc := lc, recvCq := cq, log := lg } := by
  obtain ⟨ps, pr, hd, hs, hr, hap⟩ := hI
  -- the receive is not filled yet
  have hbusy : pr ≠ none ∧ st.recvCq = [] := by
    obtain ⟨p, hp⟩ := hb
    obtain ⟨wr, rest, he⟩ := List.exists_cons_of_ne_nil hp
    obtain ⟨rfl, -, -, hc⟩ := hr.queue_cons he
    exact ⟨by simp, hc⟩
  cases opStep_cases h with
  | postRecv q wr k hp =>
    rw [hp] at hd
    exact absurd hd.1 hbusy.1
  | pollRecv k wc rest hp hc => simp [hbusy.2] at hc
  | upd f k hp =>
    rw [hp] at hd
    exact absurd hd.2.1 hbusy.1
  | postSend q wr k hp => simp [opStep, hp]
  | pollSend k wc rest hp hc => simp [opStep, hp, hc]
  | recvByte q t t' k b rest hp hc => simp [opStep, hp, hc]

/-- A byte that arrives behind the others does not disturb the rank's own code. -/
theorem opStep_arrive {st t : RankState P α β A} (h : opStep st = some t) (p : Fin P)
    (x : UInt8 × Tag) : (t.inbox p).length ≤ (st.inbox p).length ∧
      opStep { st with inbox := Function.update st.inbox p (st.inbox p ++ [x]) } =
        some { t with inbox := Function.update t.inbox p (t.inbox p ++ [x]) } := by
  cases opStep_cases h with
  | postRecv q wr k hp => simp [opStep, hp]
  | postSend q wr k hp => simp [opStep, hp]
  | pollSend k wc rest hp hc => simp [opStep, hp, hc]
  | pollRecv k wc rest hp hc => simp [opStep, hp, hc]
  | upd f k hp => simp [opStep, hp]
  | recvByte q t t' k b rest hp hc =>
    by_cases hqp : q = p
    · subst q
      simp [opStep, hp, hc]
    · simp [opStep, hp, hc, hqp, Ne.symm hqp, Function.update_comm hqp]

theorem opStep_completeStep {st t t' : RankState P α β A} {p : Fin P} (hI : Orderly st)
    (h : opStep st = some t) (h' : completeStep st p = some t') :
    ∃ u, completeStep t p = some u ∧ opStep t' = some u := by
  obtain ⟨a, rest, hk, rfl⟩ := completeStep_cases h'
  obtain ⟨hq, ha, hc, hn, hl, hf⟩ := opStep_frame_send hI (Or.inr ⟨p, by simp [hk]⟩) h
  refine ⟨_, ?_, hf st.sendQ _ _ st.sent⟩
  simp only [completeStep, ha, hk, hc, ← hq, ← hn]

theorem opStep_outStep {st t : RankState P α β A} {p : Fin P} {c : Chan} {m : Msg α}
    {g : WcStatus → RankState P α β A} (hI : Orderly st) (h : opStep st = some t)
    (h' : outStep st p c = some (m, g)) :
    ∃ g', outStep t p c = some (m, g') ∧ ∀ a, opStep (g a) = some (g' a) := by
  cases c with
  | rdma =>
    obtain ⟨wr, rest, hq, rfl, rfl⟩ := outStep_rdma_cases h'
    obtain ⟨hq', ha, hc, hn, hl, hf⟩ := opStep_frame_send hI (Or.inl ⟨p, by simp [hq]⟩) h
    refine ⟨_, ?_, fun a => hf _ _ st.sendCq _⟩
    simp only [outStep, hq', hq, hl, ha, hn, ← hc]
  | tcp =>
    -- a process about to write to a socket has no move of its own
    obtain ⟨b, tg, k, hp, -, -⟩ := outStep_tcp_cases h'
    simp [opStep, hp] at h

theorem opStep_inpStep {cap : ℕ} {st t t' : RankState P α β A} {p : Fin P} {c : Chan} {m : Msg α}
    {a : WcStatus} (hI : Orderly st) (h : opStep st = some t)
    (h' : inpStep cap st p c m = some (a, t')) :
    ∃ u, inpStep cap t p c m = some (a, u) ∧ opStep t' = some u := by
  cases c with
  | rdma =>
    obtain ⟨wr, xs, rwr, rest, rfl, hq, hcase⟩ := inpStep_rdma_cases h'
    obtain ⟨hq', hc, hg, hl, hf⟩ := opStep_frame_recv hI ⟨p, by simp [hq]⟩ h
    rcases hcase with ⟨hlen, rfl, rfl⟩ | ⟨hlen, rfl, rfl⟩
    · refine ⟨_, ?_, hf _ _ _ _⟩
      simp only [inpStep, hq', hq, hlen, if_true, hl, hc, hg]
    · refine ⟨_, ?_, hf _ st.loc _ _⟩
      simp only [inpStep, hq', hq, hlen, if_false, ← hl, hc, hg]
  | tcp =>
    obtain ⟨b, tg, rfl, hroom, rfl, rfl⟩ := inpStep_tcp_cases h'
    obtain ⟨hle, hop⟩ := opStep_arrive h p (b, tg)
    exact ⟨_, by simp only [inpStep, if_pos (hle.trans_lt hroom)], hop⟩

theorem completeStep_ne_of_ne {st t t' : RankState P α β A} {p p' : Fin P} (hI : Orderly st)
    (hne : p' ≠ p) (h : completeStep st p = some t) : completeStep st p' ≠ some t' := by
  obtain ⟨ps, pr, hd, hs, hr, hap⟩ := hI
  obtain ⟨a, rest, hk, -⟩ := completeStep_cases h
  obtain ⟨-, -, -, ha, -⟩ := hs.acks_cons hk
  simp [completeStep, ha, hne]

theorem completeStep_outStep {st t : RankState P α β A} {p q : Fin P} {c : Chan} {m : Msg α}
    {g : WcStatus → RankState P α β A} (hI : Orderly st) (h : completeStep st p = some t)
    (h' : outStep st q c = some (m, g)) :
    ∃ g', outStep t q c = some (m, g') ∧ ∀ a, completeStep (g a) p = some (g' a) := by
  obtain ⟨ps, pr, hd, hs, hr, hap⟩ := hI
  obtain ⟨a, rest, hk, rfl⟩ := completeStep_cases h
  cases c with
  | rdma =>
    obtain ⟨-, -, hq, -, -⟩ := hs.acks_cons hk
    simp [outStep, hq] at h'
  | tcp =>
    obtain ⟨b, tg, k, hp, rfl, rfl⟩ := outStep_tcp_cases h'
    simp [outStep, hp, completeStep, hk]

theorem completeStep_inpStep {cap : ℕ} {st t t' : RankState P α β A} {p q : Fin P} {c : Chan}
    {m : Msg α} {a : WcStatus} (h : completeStep st p = some t)
    (h' : inpStep cap st q c m = some (a, t')) :
    ∃ u, inpStep cap t q c m = some (a, u) ∧ completeStep t' p = some u := by
  obtain ⟨x, rest, hk, rfl⟩ := completeStep_cases h
  cases c with
  | rdma =>
    obtain ⟨wr, xs, rwr, rest', rfl, hq, hcase⟩ := inpStep_rdma_cases h'
    rcases hcase with ⟨hlen, rfl, rfl⟩ | ⟨hlen, rfl, rfl⟩
    · simp [inpStep, hq, hlen, completeStep, hk]
    · simp [inpStep, hq, hlen, completeStep, hk]
  | tcp =>
    obtain ⟨b, tg, rfl, hroom, rfl, rfl⟩ := inpStep_tcp_cases h'
    simp [inpStep, hroom, completeStep, hk]

theorem outStep_rdma_tcp {st : RankState P α β A} {p q : Fin P} {m m' : Msg α}
    {g g' : WcStatus → RankState P α β A} (h : outStep st p .rdma = some (m, g))
    (h' : outStep st q .tcp = some (m', g')) :
    ∃ f : WcStatus → WcStatus → RankState P α β A,
      (∀ a, outStep (g a) q .tcp = some (m', fun b => f a b)) ∧
      ∀ b, outStep (g' b) p .rdma = some (m, fun a => f a b) := by
  obtain ⟨wr, rest, hq, rfl, rfl⟩ := outStep_rdma_cases h
  obtain ⟨b, tg, k, hp, rfl, rfl⟩ := outStep_tcp_cases h'
  exact ⟨fun a _ => { st with
    proc := k
    sendQ := Function.update st.sendQ p rest
    acks := Function.update st.acks p (st.acks p ++ [a])
    sent := st.sent ++ [(p, wr)] }, by simp [outStep, hp], by simp [outStep, hq]⟩

theorem outStep_outStep {st : RankState P α β A} {p p' : Fin P} {c c' : Chan} {m m' : Msg α}
    {g g' : WcStatus → RankState P α β A} (hI : Orderly st) (hne : p ≠ p' ∨ c ≠ c')
    (h : outStep st p c = some (m, g)) (h' : outStep st p' c' = some (m', g')) :
    ∃ f : WcStatus → WcStatus → RankState P α β A,
      (∀ a, outStep (g a) p' c' = some (m', fun b => f a b)) ∧
      ∀ b, outStep (g' b) p c = some (m, fun a => f a b) := by
  obtain ⟨ps, pr, hd, hs, hr, hap⟩ := hI
  -- at most one send is queued and the process is at one place, so the two
  -- offers are a message of one queue pair and a byte of one socket
  cases c with
  | rdma =>
    cases c' with
    | rdma =>
      obtain ⟨wr, rest, hq, -, -⟩ := outStep_rdma_cases h
      obtain ⟨wr', rest', hq', -, -⟩ := outStep_rdma_cases h'
      have he := (hs.queue_cons hq).1.symm.trans (hs.queue_cons hq').1
      simp only [Option.some.injEq, Prod.mk.injEq] at he
      simp [he.1] at hne
    | tcp => exact outStep_rdma_tcp h h'
  | tcp =>
    cases c' with
    | rdma =>
      obtain ⟨f, hf, hf'⟩ := outStep_rdma_tcp h' h
      exact ⟨fun a b => f b a, hf', hf⟩
    | tcp =>
      obtain ⟨b, tg, k, hp, -, -⟩ := outStep_tcp_cases h
      obtain ⟨b', tg', k', hp', -, -⟩ := outStep_tcp_cases h'
      have he := hp.symm.trans hp'
      simp only [Proc.sendByte.injEq] at he
      simp [he.1] at hne

/-- The payload of an outstanding send is not touched by an arriving message. -/
theorem outStep_inpStep {cap : ℕ} {st t : RankState P α β A} {p q : Fin P} {c c' : Chan}
    {m m' : Msg α} {g : WcStatus → RankState P α β A} {a : WcStatus} (hI : Orderly st)
    (h : outStep st p c = some (m, g)) (h' : inpStep cap st q c' m' = some (a, t)) :
    ∃ g', outStep t p c = some (m, g') ∧ ∀ b, inpStep cap (g b) q c' m' = some (a, g' b) := by
  obtain ⟨ps, pr, hd, hs, hr, hap⟩ := hI
  cases c' with
  | tcp =>
    obtain ⟨b, tg, rfl, hroom, rfl, rfl⟩ := inpStep_tcp_cases h'
    cases c with
    | rdma =>
      obtain ⟨wr, rest, hq, rfl, rfl⟩ := outStep_rdma_cases h
      simp [outStep, hq, inpStep, hroom]
    | tcp =>
      obtain ⟨b', tg', k, hp, rfl, rfl⟩ := outStep_tcp_cases h
      simp [outStep, hp, inpStep, hroom]
  | rdma =>
    obtain ⟨wr', xs, rwr, rest', rfl, hrq, hcase⟩ := inpStep_rdma_cases h'
    cases c with
    | rdma =>
      obtain ⟨wr, rest, hq, rfl, rfl⟩ := outStep_rdma_cases h
      have hw : wr.Apart rwr := hap _ (hs.queue_cons hq).1 _ (hr.queue_cons hrq).1
      rcases hcase with ⟨hlen, rfl, rfl⟩ | ⟨hlen, rfl, rfl⟩
      · simp [outStep, hq, inpStep, hrq, hlen, readRange_writeRange _ hw]
      · simp [outStep, hq, inpStep, hrq, hlen]
    | tcp =>
      obtain ⟨b', tg', k, hp, rfl, rfl⟩ := outStep_tcp_cases h
      rcases hcase with ⟨hlen, rfl, rfl⟩ | ⟨hlen, rfl, rfl⟩
      · simp [outStep, hp, inpStep, hrq, hlen]
      · simp [outStep, hp, inpStep, hrq, hlen]

theorem inpStep_rdma_tcp {cap cap' : ℕ} {st t t' : RankState P α β A} {p p' : Fin P}
    {m m' : Msg α} {a a' : WcStatus} (h : inpStep cap st p .rdma m = some (a, t))
    (h' : inpStep cap' st p' .tcp m' = some (a', t')) :
    ∃ u, inpStep cap' t p' .tcp m' = some (a', u) ∧ inpStep cap t' p .rdma m = some (a, u) := by
  obtain ⟨b, tg, rfl, hroom, rfl, rfl⟩ := inpStep_tcp_cases h'
  obtain ⟨wr, xs, rwr, rest, rfl, hq, hcase⟩ := inpStep_rdma_cases h
  rcases hcase with ⟨hlen, rfl, rfl⟩ | ⟨hlen, rfl, rfl⟩
  · simp [inpStep, hq, hlen, hroom]
  · simp [inpStep, hq, hlen, hroom]

theorem inpStep_inpStep {cap cap' : ℕ} {st t t' : RankState P α β A} {p p' : Fin P} {c c' : Chan}
    {m m' : Msg α} {a a' : WcStatus} (hI : Orderly st) (hne : p ≠ p' ∨ c ≠ c')
    (h : inpStep cap st p c m = some (a, t)) (h' : inpStep cap' st p' c' m' = some (a', t')) :
    ∃ u, inpStep cap' t p' c' m' = some (a', u) ∧ inpStep cap t' p c m = some (a, u) := by
  obtain ⟨ps, pr, hd, hs, hr, hap⟩ := hI
  cases c with
  | rdma =>
    cases c' with
    | rdma =>
      -- only one receive is outstanding
      obtain ⟨wr, xs, rwr, rest, -, hq, -⟩ := inpStep_rdma_cases h
      obtain ⟨wr', xs', rwr', rest', -, hq', -⟩ := inpStep_rdma_cases h'
      have he := (hr.queue_cons hq).1.symm.trans (hr.queue_cons hq').1
      simp only [Option.some.injEq, Prod.mk.injEq] at he
      simp [he.1] at hne
    | tcp => exact inpStep_rdma_tcp h h'
  | tcp =>
    cases c' with
    | rdma =>
      obtain ⟨u, hu, hu'⟩ := inpStep_rdma_tcp h' h
      exact ⟨u, hu', hu⟩
    | tcp =>
      have hpp : p ≠ p' := by simpa using hne
      obtain ⟨b, tg, rfl, hroom, rfl, rfl⟩ := inpStep_tcp_cases h
      obtain ⟨b', tg', rfl, hroom', rfl, rfl⟩ := inpStep_tcp_cases h'
      simp [inpStep, hroom, hroom', hpp, hpp.symm, Function.update_comm hpp]

/-- Disciplined ranks make a lawful network, whatever the socket capacities. -/
theorem fabric_lawful (cap : Fin P → Fin P → ℕ) :
    Lawful (fabric P α β A cap) (fun _ => Orderly) where
  act_inv := by
    intro r l s t hI h
    cases l with
    | op => exact hI.opStep h
    | complete p => exact hI.completeStep h
  out_inv := fun hI h a => hI.outStep h a
  inp_inv := fun hI h => hI.inpStep h
  act_act := by
    intro r l l' s t t' hI hne h h'
    cases l with
    | op =>
      cases l' with
      | op => exact absurd rfl hne
      | complete p => exact opStep_completeStep hI h h'
    | complete p =>
      cases l' with
      | op =>
        obtain ⟨u, hu, hu'⟩ := opStep_completeStep hI h' h
        exact ⟨u, hu', hu⟩
      | complete p' =>
        have hpp : p' ≠ p := fun he => hne (by rw [he])
        exact absurd h' (completeStep_ne_of_ne hI hpp h)
  act_out := by
    intro r l j c s t m g hI h h'
    cases l with
    | op => exact opStep_outStep hI h h'
    | complete p => exact completeStep_outStep hI h h'
  act_inp := by
    intro r l i c m s t a t' hI h h'
    cases l with
    | op => exact opStep_inpStep hI h h'
    | complete p => exact completeStep_inpStep h h'
  out_out := fun hI hne h h' => outStep_outStep hI hne h h'
  out_inp := fun hI h h' => outStep_inpStep hI h h'
  inp_inp := fun hI hne h h' => inpStep_inpStep hI hne h h'

end MicroCcl

import MicroCcl.Rounds

namespace MicroCcl
open Network

variable {P : ℕ} {α β A B : Type} {cap : Fin P → Fin P → ℕ}

def sentTo (p : Fin P) (xs : List (Fin P × Wr)) : List Wr :=
  (xs.filter fun x => x.1 = p).map Prod.snd

def receivedFrom (p : Fin P) (xs : List (Fin P × Wr × Wr)) : List Wr :=
  (xs.filter fun x => x.1 = p).map fun x => x.2.1

theorem sentTo_concat (p : Fin P) (xs : List (Fin P × Wr)) (q : Fin P) (wr : Wr) :
    sentTo p (xs ++ [(q, wr)]) = sentTo p xs ++ if q = p then [wr] else [] := by
  by_cases h : q = p <;> simp [sentTo, h]

theorem receivedFrom_concat (p : Fin P) (xs : List (Fin P × Wr × Wr)) (q : Fin P) (wr rwr : Wr) :
    receivedFrom p (xs ++ [(q, wr, rwr)]) = receivedFrom p xs ++ if q = p then [wr] else [] := by
  by_cases h : q = p <;> simp [receivedFrom, h]

/-- What a step adds to the records: nothing, or one message to both of its ends. -/
inductive RecordMove (s s' : Fin P → RankState P α β A) : Prop
  | same (hsent : ∀ q, (s' q).sent = (s q).sent) (hlog : ∀ q, (s' q).log = (s q).log)
  | message (i j : Fin P) (wr rwr : Wr) (hi : (s' i).sent = (s i).sent ++ [(j, wr)])
      (hj : (s' j).log = (s j).log ++ [(i, wr, rwr)])
      (hsent : ∀ q, q ≠ i → (s' q).sent = (s q).sent)
      (hlog : ∀ q, q ≠ j → (s' q).log = (s q).log)

theorem step_records {s s' : Fin P → RankState P α β A} (h : Step (fabric P α β A cap) s s') :
    RecordMove s s' := by
  cases h with
  | @act r l t h =>
    have hrec : t.sent = (s r).sent ∧ t.log = (s r).log := by
      cases l with
      | op => cases opStep_cases h <;> exact ⟨rfl, rfl⟩
      | complete p =>
        obtain ⟨a, rest, -, rfl⟩ := completeStep_cases h
        exact ⟨rfl, rfl⟩
    refine .same (fun q => ?_) fun q => ?_ <;>
    · by_cases hq : q = r
      · subst q
        simp [hrec]
      · simp [hq]
  | comm i j c hij ho hi =>
    simp only [fabric] at ho hi
    cases c with
    | tcp =>
      obtain ⟨b, t, k, hp, rfl, rfl⟩ := outStep_tcp_cases ho
      obtain ⟨b', t', -, -, -, rfl⟩ := inpStep_tcp_cases hi
      refine .same (fun q => ?_) fun q => ?_ <;>
      · by_cases hqj : q = j
        · subst q
          simp
        · by_cases hqi : q = i
          · subst q
            simp [hqj]
          · simp [hqi, hqj]
    | rdma =>
      obtain ⟨wr, rest, -, rfl, rfl⟩ := outStep_rdma_cases ho
      obtain ⟨wr', xs, rwr, rest', hm, -, hcase⟩ := inpStep_rdma_cases hi
      obtain ⟨rfl, -⟩ : wr = wr' ∧ _ = xs := by simpa using hm
      refine .message i j wr rwr (by simp [hij]) ?_ (fun q hq => ?_) fun q hq => ?_
      · obtain ⟨-, -, rfl⟩ | ⟨-, -, rfl⟩ := hcase <;> simp
      · by_cases hqj : q = j
        · subst q
          obtain ⟨-, -, rfl⟩ | ⟨-, -, rfl⟩ := hcase <;> simp
        · simp [hq, hqj]
      · by_cases hqi : q = i
        · subst q
          simp [hq]
        · simp [hq, hqi]

theorem getElem?_of_prefix {X : Type} {xs ys : List X} (h : xs <+: ys) {j : ℕ} {x : X}
    (hx : xs[j]? = some x) : ys[j]? = some x := by
  obtain ⟨rest, rfl⟩ := h
  rw [List.getElem?_append_left (List.getElem?_eq_some_iff.mp hx).1, hx]

theorem fifo {s₀ s : Fin P → RankState P α β A}
    (h₀ : ∀ i j, sentTo j (s₀ i).sent = receivedFrom i (s₀ j).log)
    (h : Reaches (fabric P α β A cap) s₀ s) (i j : Fin P) :
    sentTo j (s i).sent = receivedFrom i (s j).log := by
  induction h generalizing i j with
  | refl => exact h₀ i j
  | tail _ hstep ih =>
    cases step_records hstep with
    | same hsent hlog =>
      rw [hsent, hlog]
      exact ih i j
    | message i' j' wr rwr hi hj hsent hlog =>
      -- the message extends both records of its own link and no other
      by_cases hii : i = i'
      · subst i'
        rw [hi, sentTo_concat]
        by_cases hjj : j = j'
        · subst j'
          rw [hj, receivedFrom_concat, if_pos rfl, if_pos rfl, ih]
        · rw [hlog j hjj, if_neg (Ne.symm hjj), List.append_nil]
          exact ih i j
      · rw [hsent i hii]
        by_cases hjj : j = j'
        · subst j'
          rw [hj, receivedFrom_concat, if_neg (Ne.symm hii), List.append_nil]
          exact ih i j
        · rw [hlog j hjj]
          exact ih i j

/-- The completion that a delivery leaves at the receiver. -/
def completionOf (e : Fin P × Wr × Wr) : Wc :=
  if e.2.1.length ≤ e.2.2.length then ⟨.success, e.2.1.length⟩ else ⟨.locLenErr, 0⟩

theorem length_of_completionOf {e : Fin P × Wr × Wr} {n : ℕ}
    (h : completionOf e = ⟨.success, n⟩) : e.2.1.length = n := by
  unfold completionOf at h
  split_ifs at h
  · exact congrArg Wc.byteLen h
  · cases congrArg Wc.status h

section Histories

variable (I : List (Fin P × Wr) → List Wc → Prop)

/-- With the sends `ps` posted and the completions `ws` polled, the process keeps `I` with every
send it posts, and gets to `Q` if it returns. -/
def Hist (Q : A → List (Fin P × Wr) → List Wc → Prop) :
    Proc P α β A → List (Fin P × Wr) → List Wc → Prop
  | .pure a, ps, ws => Q a ps ws
  | .throw _, _, _ => True
  | .postRecv _ _ k, ps, ws => Hist Q k ps ws
  | .postSend p wr k, ps, ws => I (ps ++ [(p, wr)]) ws ∧ Hist Q k (ps ++ [(p, wr)]) ws
  | .pollSend k, ps, ws => ∀ wc, Hist Q (k wc) ps ws
  | .pollRecv k, ps, ws => ∀ wc, Hist Q (k wc) ps (ws ++ [wc])
  | .upd _ k, ps, ws => Hist Q k ps ws
  | .sendByte _ _ _ k, ps, ws => Hist Q k ps ws
  | .recvByte _ _ k, ps, ws => ∀ b, Hist Q (k b) ps ws

/-- The posted sends are the ones taken and the ones queued; the completions polled and the ones
still in the queue are those of the deliveries. -/
structure Recorded (Q : A → List (Fin P × Wr) → List Wc → Prop) (st : RankState P α β A)
    (ps : List (Fin P × Wr)) (ws : List Wc) : Prop where
  hist : Hist I Q st.proc ps ws
  inv : I ps ws
  posted : ∀ p, sentTo p ps = sentTo p st.sent ++ st.sendQ p
  told : ws ++ st.recvCq = st.log.map completionOf

variable {I} {Q : A → List (Fin P × Wr) → List Wc → Prop}

theorem Recorded.opMove (hI : ∀ ps ws wc, I ps ws → I ps (ws ++ [wc])) {st t : RankState P α β A}
    {ps : List (Fin P × Wr)} {ws : List Wc} (h : Recorded I Q st ps ws) (hm : OpMove st t) :
    ∃ ps' ws', Recorded I Q t ps' ws' := by
  obtain ⟨hist, hinv, hposted, htold⟩ := h
  cases hm with
  | postRecv q wr k hp =>
    rw [hp] at hist
    exact ⟨ps, ws, hist, hinv, hposted, htold⟩
  | postSend q wr k hp =>
    rw [hp] at hist
    refine ⟨ps ++ [(q, wr)], ws, hist.2, hist.1, fun p => ?_, htold⟩
    rw [sentTo_concat, hposted]
    by_cases hqp : q = p
    · subst q
      simp
    · simp [hqp, Ne.symm hqp]
  | pollSend k wc rest hp hc =>
    rw [hp] at hist
    exact ⟨ps, ws, hist wc, hinv, hposted, htold⟩
  | pollRecv k wc rest hp hc =>
    rw [hp] at hist
    refine ⟨ps, ws ++ [wc], hist wc, hI ps ws wc hinv, hposted, ?_⟩
    rw [hc] at htold
    simpa using htold
  | upd f k hp =>
    rw [hp] at hist
    exact ⟨ps, ws, hist, hinv, hposted, htold⟩
  | recvByte q t t' k b rest hp hc =>
    rw [hp] at hist
    exact ⟨ps, ws, hist b, hinv, hposted, htold⟩

theorem recorded_reaches (hI : ∀ ps ws wc, I ps ws → I ps (ws ++ [wc]))
    {s e : Fin P → RankState P α β A} {r : Fin P} (hs : ∃ ps ws, Recorded I Q (s r) ps ws)
    (h : Reaches (fabric P α β A cap) s e) : ∃ ps ws, Recorded I Q (e r) ps ws := by
  refine stable_of_moves (Q := fun st => ∃ ps ws, Recorded I Q st ps ws) ?_ ?_ ?_ hs h
  · rintro st t (_ | p) ⟨ps, ws, hr⟩ h
    · exact hr.opMove hI (opStep_cases h)
    · obtain ⟨a, rest, -, rfl⟩ := completeStep_cases h
      exact ⟨ps, ws, hr.hist, hr.inv, hr.posted, hr.told⟩
  · rintro st p (_ | _) m g ⟨ps, ws, hr⟩ h a
    · obtain ⟨wr, rest, hq, -, rfl⟩ := outStep_rdma_cases h
      refine ⟨ps, ws, hr.hist, hr.inv, fun q => ?_, hr.told⟩
      have hposted := hr.posted q
      rw [sentTo_concat]
      by_cases hqp : q = p
      · subst q
        rw [hq] at hposted
        simpa using hposted
      · simpa [hqp, Ne.symm hqp] using hposted
    · obtain ⟨b, tg, k, hp, -, rfl⟩ := outStep_tcp_cases h
      have hist := hr.hist
      rw [hp] at hist
      exact ⟨ps, ws, hist, hr.inv, hr.posted, hr.told⟩
  · rintro st n p (_ | _) m a t ⟨ps, ws, hr⟩ h
    · obtain ⟨wr, xs, rwr, rest, -, -, ⟨hlen, -, rfl⟩ | ⟨hlen, -, rfl⟩⟩ := inpStep_rdma_cases h <;>
      · refine ⟨ps, ws, hr.hist, hr.inv, hr.posted, ?_⟩
        rw [List.map_append, ← hr.told]
        simp [completionOf, hlen]
    · obtain ⟨b, tg, -, -, -, rfl⟩ := inpStep_tcp_cases h
      exact ⟨ps, ws, hr.hist, hr.inv, hr.posted, hr.told⟩

theorem recorded_start (p : Fin P → Proc P α β A) (l : Fin P → Local α β) (r : Fin P)
    (hp : Hist I Q (p r) [] []) (hinv : I [] []) : Recorded I Q (start p l r) [] [] :=
  ⟨hp, hinv, fun _ => rfl, rfl⟩

theorem Recorded.posted_of_log {s : Fin P → RankState P α β A} {r : Fin P} {e : Fin P × Wr × Wr}
    {ps : List (Fin P × Wr)} {ws : List Wc} (h : Recorded I Q (s e.1) ps ws)
    (hfifo : ∀ i j, sentTo j (s i).sent = receivedFrom i (s j).log) (he : e ∈ (s r).log) :
    (r, e.2.1) ∈ ps := by
  have hmem : e.2.1 ∈ sentTo r (s e.1).sent := by
    rw [hfifo]
    exact List.mem_map.mpr ⟨e, by simp [he], rfl⟩
  have hpost : e.2.1 ∈ sentTo r ps := by
    rw [h.posted r]
    exact List.mem_append_left _ hmem
  obtain ⟨x, hx, hxe⟩ := List.mem_map.mp hpost
  obtain ⟨hx, hxr⟩ := List.mem_filter.mp hx
  rwa [← of_decide_eq_true hxr, ← hxe]

end Histories

structure Turn (P : ℕ) (α β : Type) where
  src : Fin P
  part : RecvPart α β
  dst : Fin P
  wr : Wr

def Turn.xfer (t : Turn P α β) : Xfer P α β := ⟨some (t.src, t.part), some (t.dst, t.wr)⟩

def Turn.post (t : Turn P α β) : Fin P × Wr := (t.dst, t.wr)

/-- The completion that lets the rank go on to the next turn. -/
def Turn.passed (t : Turn P α β) : Wc := ⟨.success, t.part.expected⟩

def turnsProc (ts : List (Turn P α β)) : Proc P α β Unit := ts.forM fun t => t.xfer.proc

/-- A rank that posts the send of a turn has got through all turns before it. -/
def Kept (ts : List (Turn P α β)) (ps : List (Fin P × Wr)) (ws : List Wc) : Prop :=
  ps <+: ts.map Turn.post ∧ (ts.take (ps.length - 1)).map Turn.passed <+: ws

theorem Kept.concat {ts : List (Turn P α β)} {ps : List (Fin P × Wr)} {ws : List Wc} (wc : Wc)
    (h : Kept ts ps ws) : Kept ts ps (ws ++ [wc]) :=
  ⟨h.1, h.2.trans (List.prefix_append _ _)⟩

section Checks

variable {I : List (Fin P × Wr) → List Wc → Prop} {Q : A → List (Fin P × Wr) → List Wc → Prop}
  {ps : List (Fin P × Wr)} {ws : List Wc}

theorem hist_checkWc {wc : Wc} {k : Wc → Proc P α β A}
    (hk : wc.status = .success → Hist I Q (k wc) ps ws) :
    Hist I Q (checkWc wc >>= k) ps ws := by
  unfold checkWc
  split_ifs with hstatus
  · trivial
  · exact hk (not_not.mp hstatus)

theorem hist_finish {wc : Wc} {k : Proc P α β A} (v : RecvPart α β)
    (hk : wc = ⟨.success, v.expected⟩ → Hist I Q k ps ws) :
    Hist I Q (checkWc wc >>= fun wc => v.finish wc >>= fun _ => k) ps ws := by
  apply hist_checkWc
  intro hstatus
  unfold RecvPart.finish
  split_ifs with hlen
  · trivial
  · have hwc : wc = ⟨.success, v.expected⟩ := by
      obtain ⟨status, byteLen⟩ := wc
      rw [← hstatus, ← not_not.mp hlen]
    cases v.reduce with
    | none => exact hk hwc
    | some f => exact hk hwc

end Checks

theorem turnsProc_cons (t : Turn P α β) (ts : List (Turn P α β)) :
    turnsProc (t :: ts) = .postRecv t.src t.part.wr (.postSend t.dst t.wr
      (.pollSend fun wc => checkWc wc >>= fun _ => .pollRecv fun wc => checkWc wc >>= fun wc =>
        t.part.finish wc >>= fun _ => turnsProc ts)) := by
  simp only [turnsProc, Proc.forM_cons, Turn.xfer, Xfer.proc, Xfer.postRecv, Xfer.postSend,
    Xfer.waitSend, Xfer.waitRecv, waitCompletion, bind_assoc, Proc.postRecv_bind,
    Proc.postSend_bind, Proc.pollSend_bind, Proc.pollRecv_bind, Proc.pure_bind']

theorem turns_hist (done rest : List (Turn P α β)) :
    Hist (Kept (done ++ rest)) (fun _ _ ws => (done ++ rest).map Turn.passed <+: ws)
      (turnsProc rest) (done.map Turn.post) (done.map Turn.passed) := by
  induction rest generalizing done with
  | nil =>
    rw [List.append_nil]
    exact List.prefix_rfl
  | cons t rest ih =>
    -- the induction is on the turns to come; those that are done are in the two lists
    have hnext : Hist (Kept (done ++ t :: rest))
        (fun _ _ ws => (done ++ t :: rest).map Turn.passed <+: ws) (turnsProc rest)
        (done.map Turn.post ++ [t.post]) (done.map Turn.passed ++ [t.passed]) := by
      simpa using ih (done ++ [t])
    have hkept : Kept (done ++ t :: rest) (done.map Turn.post ++ [t.post])
        (done.map Turn.passed) := by
      constructor <;> simp
    rw [turnsProc_cons]
    refine ⟨hkept, fun wc => hist_checkWc fun _ wc' => hist_finish t.part fun hwc => ?_⟩
    rw [hwc]
    exact hnext

section Rounds

variable {S : Wr → Prop} {Q : A → List (Fin P × Wr) → List Wc → Prop}
  {ps : List (Fin P × Wr)} {ws : List Wc}

theorem xfer_hist {x : Xfer P α β} (hx : ∀ y ∈ x.send, S y.2) {k : Proc P α β A}
    (hps : ∀ y ∈ ps, S y.2)
    (hk : ∀ ps' ws', (∀ y ∈ ps', S y.2) → ws ⊆ ws' →
      (∀ z ∈ x.recv, (⟨.success, z.2.expected⟩ : Wc) ∈ ws') →
      Hist (fun ps _ => ∀ y ∈ ps, S y.2) Q k ps' ws') :
    Hist (fun ps _ => ∀ y ∈ ps, S y.2) Q (x.proc >>= fun _ => k) ps ws := by
  obtain ⟨rv, sd⟩ := x
  have hpost : ∀ y ∈ sd, ∀ z ∈ ps ++ [y], S z.2 := by
    intro y hy z hz
    rcases List.mem_append.mp hz with hz | hz
    · exact hps z hz
    · rw [List.mem_singleton.mp hz]
      exact hx y hy
  rcases rv with _ | ⟨q, v⟩ <;> rcases sd with _ | ⟨q', wr⟩ <;>
    simp only [Xfer.proc, Xfer.postRecv, Xfer.postSend, Xfer.waitSend, Xfer.waitRecv,
      waitCompletion, Proc.pure_bind', Proc.postRecv_bind, Proc.postSend_bind,
      Proc.pollSend_bind, Proc.pollRecv_bind, bind_assoc]
  · exact hk ps ws hps (List.Subset.refl _) (by simp)
  · refine ⟨hpost _ rfl, fun wc => hist_checkWc fun _ => ?_⟩
    exact hk _ ws (hpost _ rfl) (List.Subset.refl _) (by simp)
  · refine fun wc => hist_finish v fun hwc => ?_
    apply hk ps _ hps (List.subset_append_left _ _)
    simp [hwc]
  · refine ⟨hpost _ rfl, fun wc => hist_checkWc fun _ wc' => hist_finish v fun hwc => ?_⟩
    apply hk _ _ (hpost _ rfl) (List.subset_append_left _ _)
    simp [hwc]

/-- Every run of the rounds, from the beginning of any round: what is sent has `S`, and a rank
that returns has seen all the completions it expected. -/
theorem rounds_hist {r : Fin P} (done rest : List (Round P α β))
    (hsend : ∀ G ∈ rest, ∀ y ∈ (G r).send, S y.2) (hps : ∀ y ∈ ps, S y.2)
    (hws : ∀ G ∈ done, ∀ z ∈ (G r).recv, (⟨.success, z.2.expected⟩ : Wc) ∈ ws) :
    Hist (fun ps _ => ∀ y ∈ ps, S y.2) (fun _ _ ws' => ∀ G ∈ done ++ rest, ∀ z ∈ (G r).recv,
      (⟨.success, z.2.expected⟩ : Wc) ∈ ws') (roundsProc rest r) ps ws := by
  induction rest generalizing done ps ws with
  | nil =>
    rw [List.append_nil]
    exact hws
  | cons G rest ih =>
    rw [roundsProc_cons, List.append_cons]
    apply xfer_hist (hsend G (by simp)) hps
    intro ps' ws' hps' hsub hG
    apply ih (done ++ [G]) (fun G' hG' => hsend G' (by simp [hG'])) hps'
    intro G' hG' z hz
    rcases List.mem_append.mp hG' with hG' | hG'
    · exact hsub (hws G' hG' z hz)
    · rw [List.mem_singleton.mp hG'] at hz
      exact hG z hz

theorem expected_of_returned {Gs : List (Round P α β)} {l : Fin P → Local α β}
    {s : Fin P → RankState P α β Unit} (hsend : ∀ r, ∀ G ∈ Gs, ∀ y ∈ (G r).send, S y.2)
    (hs : Reaches (fabric P α β Unit cap) (start (roundsProc Gs) l) s) {r : Fin P}
    (hr : (s r).proc = .pure ()) {G : Round P α β} (hG : G ∈ Gs) {z : Fin P × RecvPart α β}
    (hz : z ∈ (G r).recv) : ∃ wr, S wr ∧ z.2.expected = wr.length := by
  have hrec : ∀ q, ∃ ps ws, Recorded (fun ps _ => ∀ y ∈ ps, S y.2) (fun _ _ ws => ∀ G ∈ Gs,
      ∀ z ∈ (G q).recv, (⟨.success, z.2.expected⟩ : Wc) ∈ ws) (s q) ps ws := by
    intro q
    refine recorded_reaches (fun ps ws wc h => h) ⟨[], [], ?_⟩ hs
    exact recorded_start _ l q (rounds_hist [] Gs (hsend q) (by simp) (by simp)) (by simp)
  obtain ⟨ps, ws, h⟩ := hrec r
  have hist := h.hist
  rw [hr] at hist
  have hmem : (⟨.success, z.2.expected⟩ : Wc) ∈ (s r).log.map completionOf := by
    rw [← h.told]
    exact List.mem_append_left _ (hist G hG z hz)
  obtain ⟨e, he, hwc⟩ := List.mem_map.mp hmem
  obtain ⟨ps', ws', h'⟩ := hrec e.1
  refine ⟨e.2.1, h'.inv _ (h'.posted_of_log (fifo (fun _ _ => rfl) hs) he), ?_⟩
  exact (length_of_completionOf hwc).symm

end Rounds

end MicroCcl

import MicroCcl.History

namespace MicroCcl
open Network

variable {P : ℕ} {α β A : Type} {cap : Fin P → Fin P → ℕ}

/-- The rank has returned, has thrown, or waits with nothing to take, and offers no message. -/
structure Halted (st : RankState P α β A) : Prop where
  proc : (∃ a, st.proc = .pure a) ∨ (∃ e, st.proc = .throw e) ∨
    ∃ k, st.proc = .pollRecv k ∧ st.recvCq = []
  sendQ : st.sendQ = fun _ => []
  acks : st.acks = fun _ => []

theorem final_of_halted {e : Fin P → RankState P α β A} (h : ∀ r, Halted (e r)) :
    Final (fabric P α β A cap) e := by
  intro s' hstep
  cases hstep with
  | act r lb h' =>
    cases lb with
    | op =>
      rcases (h r).proc with ⟨a, ha⟩ | ⟨x, hx⟩ | ⟨k, hk, hcq⟩
      · simp [fabric, actStep, opStep, ha] at h'
      · simp [fabric, actStep, opStep, hx] at h'
      · simp [fabric, actStep, opStep, hk, hcq] at h'
    | complete p => simp [fabric, actStep, completeStep, (h r).acks] at h'
  | comm i j c hij ho hi =>
    cases c with
    | rdma => simp [fabric, outStep, (h i).sendQ] at ho
    | tcp =>
      rcases (h i).proc with ⟨a, ha⟩ | ⟨x, hx⟩ | ⟨k, hk, -⟩
      · simp [fabric, outStep, ha] at ho
      · simp [fabric, outStep, hx] at ho
      · simp [fabric, outStep, hk] at ho

/-- How the code of a rank ends: it waits forever, returns or throws. -/
def EndsAs : Option (Except Exn A) → RankState P α β A → Prop
  | none, st => ∃ k, st.proc = .pollRecv k ∧ st.recvCq = []
  | some (.ok a), st => st.proc = .pure a
  | some (.error x), st => st.proc = .throw x

theorem EndsAs.halted {o : Option (Except Exn A)} {st : RankState P α β A} (h : EndsAs o st)
    (hq : st.sendQ = fun _ => []) (ha : st.acks = fun _ => []) : Halted st := by
  refine ⟨?_, hq, ha⟩
  match o, h with
  | none, h => exact Or.inr (Or.inr h)
  | some (.ok a), h => exact Or.inl ⟨a, h⟩
  | some (.error x), h => exact Or.inr (Or.inl ⟨x, h⟩)

theorem EndsAs.of_pure {o : Option (Except Exn A)} {st : RankState P α β A} (h : EndsAs o st)
    {a : A} (hst : st.proc = .pure a) : o = some (.ok a) := by
  match o, h with
  | none, ⟨k, hk, _⟩ => simp [hst] at hk
  | some (.ok b), h => simpa [EndsAs, hst, eq_comm] using h
  | some (.error x), h => simp [EndsAs, hst] at h

theorem EndsAs.of_throw {o : Option (Except Exn A)} {st : RankState P α β A} (h : EndsAs o st)
    {x : Exn} (hst : st.proc = .throw x) : o = some (.error x) := by
  match o, h with
  | none, ⟨k, hk, _⟩ => simp [hst] at hk
  | some (.ok b), h => simp [EndsAs, hst] at h
  | some (.error y), h => simpa [EndsAs, hst, eq_comm] using h

section Ends

variable {p : Fin P → Proc P α β A} {l : Fin P → Local α β} {s e : Fin P → RankState P α β A}
  (hp : ∀ r, Disciplined none none (p r)) (he : Reaches (fabric P α β A cap) (start p l) e)
  (hend : ∀ r, Halted (e r)) (hs : Reaches (fabric P α β A cap) (start p l) s)
include hp he hend hs

/-- Whatever was done so far, the same end is still ahead. -/
theorem reaches_end : Reaches (fabric P α β A cap) s e :=
  (fabric_lawful cap).reaches_final (start_orderly hp) he (final_of_halted hend) hs

theorem returned_at_end {r : Fin P} {a : A} (hr : (s r).proc = .pure a) :
    (e r).proc = .pure a ∧ (e r).loc = (s r).loc := by
  have hI := (fabric_lawful cap).reaches_inv (start_orderly hp) hs r
  have hret := (hI.returned hr).reaches (reaches_end hp he hend hs)
  exact ⟨hret.proc, hret.loc⟩

theorem thrown_at_end {r : Fin P} {x : Exn} (hr : (s r).proc = .throw x) :
    (e r).proc = .throw x :=
  throw_reaches hr (reaches_end hp he hend hs)

end Ends

/-- What the sender is told about a message. -/
def sendStatus (wr rwr : Wr) : WcStatus :=
  if wr.length ≤ rwr.length then .success else .remInvReqErr

/-- What the message leaves at the receiver. -/
def deliver (wr rwr : Wr) (l l' : Local α β) : Local α β :=
  if wr.length ≤ rwr.length then { l' with mem := writeRange l'.mem rwr (readRange l.mem wr) }
  else l'

/-- Ranks `i` and `j` in the states `x` and `y`. -/
def two {X : Type} (s : Fin P → X) (i j : Fin P) (x y : X) : Fin P → X :=
  Function.update (Function.update s i x) j y

section Two

variable {X : Type} {s : Fin P → X} {i j : Fin P} {x y : X}

@[simp] theorem two_snd : two s i j x y j = y := Function.update_self _ _ _

theorem two_fst (hij : i ≠ j) : two s i j x y i = x := by
  rw [two, Function.update_of_ne hij, Function.update_self]

theorem two_other {q : Fin P} (hi : q ≠ i) (hj : q ≠ j) : two s i j x y q = s q := by
  rw [two, Function.update_of_ne hj, Function.update_of_ne hi]

theorem two_self : two s i j (s i) (s j) = s := by
  rw [two, Function.update_eq_self, Function.update_eq_self]

theorem two_two (hij : i ≠ j) (x' y' : X) : two (two s i j x y) i j x' y' = two s i j x' y' := by
  rw [two, two, two, Function.update_comm hij.symm, Function.update_idem, Function.update_idem]

theorem two_comm (hij : i ≠ j) : two s i j x y = two s j i y x := Function.update_comm hij _ _ _

end Two

section TwoRanks

variable {s : Fin P → RankState P α β A} {i j : Fin P} (hij : i ≠ j) {x y x' y' : RankState P α β A}
include hij

theorem two_moves (hi : Moves (fabric P α β A cap) i x x')
    (hj : Moves (fabric P α β A cap) j y y') :
    Reaches (fabric P α β A cap) (two s i j x y) (two s i j x' y') := by
  have hfirst := Moves.reaches (N := fabric P α β A cap) (s := two s i j x y) (r := i) (t := x')
    (by rwa [two_fst hij])
  have hsecond := Moves.reaches (N := fabric P α β A cap)
    (s := Function.update (two s i j x y) i x') (r := j) (t := y')
    (by rwa [Function.update_of_ne hij.symm, two_snd])
  have hthen := hfirst.trans hsecond
  rwa [← two, two_two hij] at hthen

/-- The message in the send queue of `i` meets the only receive of `j`. -/
theorem two_deliver {wr rwr : Wr} (hsend : x.sendQ = Function.update (fun _ => []) j [wr])
    (hacks : x.acks = fun _ => []) (hrecv : y.recvQ = Function.update (fun _ => []) i [rwr]) :
    Reaches (fabric P α β A cap) (two s i j x y) (two s i j
      { x with
        sendQ := fun _ => []
        acks := Function.update (fun _ => []) j [sendStatus wr rwr]
        sent := x.sent ++ [(j, wr)] }
      { y with
        recvQ := fun _ => []
        loc := deliver wr rwr x.loc y.loc
        recvCq := y.recvCq ++ [completionOf (i, wr, rwr)]
        log := y.log ++ [(i, wr, rwr)] }) := by
  refine .single (Step.comm_to i j Chan.rdma (m := .data wr (readRange x.loc.mem wr))
    (g := fun a => { x with
      sendQ := fun _ => []
      acks := Function.update (fun _ => []) j [a]
      sent := x.sent ++ [(j, wr)] })
    (a := sendStatus wr rwr) hij ?_ ?_ (two_fst hij) ?_)
  · simp [fabric, outStep, two_fst hij, hsend, hacks]
  · rw [two_snd, two_snd]
    simp only [fabric, inpStep, sendStatus]
    rw [hrecv, Function.update_self]
    by_cases hlen : wr.length ≤ rwr.length <;> simp [deliver, completionOf, hlen]
  · intro q hqi hqj
    rw [two_other hqi hqj, two_other hqi hqj]

theorem two_leads {p : Fin P → Proc P α β A} {l : Fin P → Local α β} {pi pj : Proc P α β A}
    {li lj : Local α β} (h : ∀ s : Fin P → RankState P α β A, (∀ r, Quiet (p r) (l r) (s r)) →
      ∃ x y, Reaches (fabric P α β A cap) (two s i j (s i) (s j)) (two s i j x y) ∧
        Quiet pi li x ∧ Quiet pj lj y) : Leads cap p l (two p i j pi pj) (two l i j li lj) := by
  intro s hs
  obtain ⟨x, y, hreach, hx, hy⟩ := h s hs
  rw [two_self] at hreach
  refine ⟨_, hreach, fun r => ?_⟩
  by_cases hrj : r = j
  · subst r
    simpa using hy
  by_cases hri : r = i
  · subst r
    rwa [two_fst hij, two_fst hij, two_fst hij]
  · rw [two_other hri hrj, two_other hri hrj, two_other hri hrj]
    exact hs r

theorem message_leads {p : Fin P → Proc P α β A} {l : Fin P → Local α β} {wr rwr : Wr}
    {ki kj : Wc → Proc P α β A} (hi : p i = .postSend j wr (.pollSend ki))
    (hj : p j = .postRecv i rwr (.pollRecv kj)) (htag : wr.tag = rwr.tag) :
    Leads cap p l (two p i j (ki ⟨sendStatus wr rwr, 0⟩) (kj (completionOf (i, wr, rwr))))
      (two l i j (l i) (deliver wr rwr (l i) (l j))) := by
  refine two_leads hij fun s hs => ?_
  have hpost : Reaches (fabric P α β A cap) (two s i j (s i) (s j)) (two s i j
      { s i with proc := .pollSend ki, sendQ := Function.update (fun _ => []) j [wr] }
      { s j with proc := .pollRecv kj, recvQ := Function.update (fun _ => []) i [rwr] }) := by
    refine two_moves hij (Moves.one .op ?_) (Moves.one .op ?_)
    · simp [fabric, actStep, opStep, (hs i).proc, hi, (hs i).sendQ]
    · simp [fabric, actStep, opStep, (hs j).proc, hj, (hs j).recvQ]
  have hsend := hpost.trans (two_deliver hij rfl (hs i).acks rfl)
  let x : RankState P α β A := { s i with
    proc := ki ⟨sendStatus wr rwr, 0⟩
    sendQ := fun _ => []
    acks := fun _ => []
    sent := (s i).sent ++ [(j, wr)] }
  let y : RankState P α β A := { s j with
    proc := kj (completionOf (i, wr, rwr))
    recvQ := fun _ => []
    loc := deliver wr rwr (s i).loc (s j).loc
    log := (s j).log ++ [(i, wr, rwr)] }
  refine ⟨x, y, hsend.trans (two_moves hij ((moves_complete i rfl).trans (Moves.one .op ?_))
    (Moves.one .op ?_)), ?_, ?_⟩
  · simp [fabric, actStep, opStep, (hs i).sendCq, x]
  · simp [fabric, actStep, opStep, (hs j).recvCq, y]
  · exact { hs i with proc := rfl, sendQ := rfl, acks := rfl }
  · refine { hs j with proc := rfl, loc := ?_, recvQ := rfl, tags := ?_ }
    · simp only [y, (hs i).loc, (hs j).loc]
    · intro e he
      rcases List.mem_append.mp he with he | he
      · exact (hs j).tags e he
      · rw [List.mem_singleton.mp he]
        exact htag

end TwoRanks

end MicroCcl

import MicroCcl.Traces
import MicroCcl.Programs

namespace MicroCcl
open Network

variable {P : ℕ} {α β A : Type} {cap : Fin P → Fin P → ℕ}

def outstandingSends (st : RankState P α β A) : ℕ :=
  ∑ p, ((st.sendQ p).length + (st.acks p).length) + st.sendCq.length

def outstandingRecvs (st : RankState P α β A) : ℕ :=
  ∑ p, (st.recvQ p).length + st.recvCq.length

theorem sum_length_update {X : Type} (q : Fin P) (x : X) :
    ∑ p, (Function.update (fun _ => []) q [x] p).length = 1 := by
  have hlen : ∀ p, (Function.update (fun _ => []) q [x] p).length = if p = q then 1 else 0 := by
    intro p
    by_cases hp : p = q
    · simp [hp]
    · simp [hp]
  simp only [hlen, Finset.sum_ite_eq', Finset.mem_univ, if_true]

theorem SendSide.outstanding {st : RankState P α β A} {ws : List (Fin P × Wr)}
    {ps : Option (Fin P × Wr)} (h : SendSide st ws ps) :
    outstandingSends st = ps.toList.length := by
  cases h with
  | idle hq ha hc => simp [outstandingSends, hq, ha, hc]
  | queued y hq ha hc => simp [outstandingSends, hq, ha, hc, sum_length_update]
  | taken y a hq ha hc => simp [outstandingSends, hq, ha, hc, sum_length_update]
  | completed y wc hq ha hc => simp [outstandingSends, hq, ha, hc]

theorem RecvSide.outstanding {st : RankState P α β A} {wr : List ((Fin P × Wr) × Wc)}
    {pr : Option (Fin P × Wr)} (h : RecvSide st wr pr) :
    outstandingRecvs st ≤ pr.toList.length := by
  cases h with
  | idle hq hc => simp [outstandingRecvs, hq, hc]
  | queued z hq hc => simp [outstandingRecvs, hq, hc, sum_length_update]
  | filled z wc hq hc => simp [outstandingRecvs, hq, hc]
  | refused z wc hq hc => simp [outstandingRecvs, hq, hc]

/-- The guards of the call let rank `r` through; its count is a `size_t`. -/
def Call.Guards (r : Fin P) : Call P → Prop
  | .allreduceRing a => (a r).count < 2 ^ 64 ∧ RingGuards P (a r)
  | .allreduceRecursiveDoubling a => DoublingGuards P (a r)
  | .allgather a => AllgatherGuard P (a r)
  | .broadcast _ root => 0 ≤ root ∧ root < P
  | .barrier => True

def Call.steps (ops : Ops α) (r : Fin P) (call : ℕ) : Call P → List (Xfer P α β)
  | .allreduceRing a => (ringRounds ops call a).map (· r)
  | .allreduceRecursiveDoubling a => (doublingRounds ops call a (halvings P)).map (· r)
  | .allgather a => (allgatherRounds call a).map (· r)
  | .broadcast a root =>
    if h : 0 ≤ root ∧ root < P then
      (broadcastRounds call a ⟨root.toNat, by omega⟩).map (· r)
    else []
  -- the barrier runs over the sockets of the bootstrap
  | .barrier => []

def programSteps (ops : Ops α) (r : Fin P) : ℕ → List (Call P) → List (Xfer P α β)
  | _, [] => []
  | call, c :: cs => c.steps ops r call ++ programSteps ops r (call + 1) cs

def Xfer.recvWr (x : Xfer P α β) : Option (Fin P × Wr) := x.recv.map fun v => (v.1, v.2.wr)

/-- The receive that a step waits for, with the completion that passes its checks. -/
def Xfer.awaited (x : Xfer P α β) : Option ((Fin P × Wr) × Wc) :=
  x.recv.map fun v => ((v.1, v.2.wr), ⟨.success, v.2.expected⟩)

/-- The rank has done the steps `before` and is at the event `e` of the step `x`. -/
def AtEvent (steps before : List (Xfer P α β)) (x : Xfer P α β) (e : Event P α β)
    (p : Proc P α β A) : Prop :=
  ∃ after past next ps pr, steps = before ++ x :: after ∧ x.events = past ++ e :: next ∧
    Follows (fun _ _ => True) ps pr p (e :: (next ++ after.flatMap Xfer.events))

theorem flatMap_events_split {xs : List (Xfer P α β)} {done todo : List (Event P α β)}
    {e : Event P α β} (h : done ++ e :: todo = xs.flatMap Xfer.events) :
    ∃ before x after past next, xs = before ++ x :: after ∧ x.events = past ++ e :: next ∧
      done = before.flatMap Xfer.events ++ past ∧
      todo = next ++ after.flatMap Xfer.events := by
  induction xs generalizing done with
  | nil => simp at h
  | cons x xs ih =>
    rw [List.flatMap_cons, List.append_eq_append_iff] at h
    rcases h with ⟨c, hx, hc⟩ | ⟨c, rfl, hc⟩
    -- the event is in the first step, or the step ends where `done` does
    · rcases c with _ | ⟨e', c⟩
      · have hc' : [] ++ e :: todo = xs.flatMap Xfer.events := hc
        obtain ⟨before, x', after, past, next, rfl, hx', hpast, htodo⟩ := ih hc'
        refine ⟨x :: before, x', after, past, next, rfl, hx', ?_, htodo⟩
        rw [List.flatMap_cons, List.append_assoc, ← hpast, hx, List.append_nil, List.append_nil]
      · obtain ⟨rfl, rfl⟩ := List.cons.inj hc
        exact ⟨[], x, xs, done, c, rfl, hx, rfl, rfl⟩
    · obtain ⟨before, x', after, past, next, rfl, hx', rfl, htodo⟩ := ih hc.symm
      exact ⟨x :: before, x', after, past, next, rfl, hx', by simp, htodo⟩

theorem eq_some_of_toList {X : Type} {o : Option X} {xs ys : List X} {x : X}
    (h : o.toList = xs ++ x :: ys) : xs = [] ∧ o = some x := by
  cases o with
  | none => simp at h
  | some x' =>
    rw [Option.toList_some] at h
    cases xs with
    | nil => exact ⟨rfl, congrArg some (List.cons.inj h).1⟩
    | cons a as => simp at h

theorem sendWaits_events (x : Xfer P α β) : sendWaits x.events = x.send.toList := by
  rcases x with ⟨_ | ⟨q, v⟩, _ | y⟩ <;> simp [Xfer.events, sendWaits]

theorem recvWaits_events (x : Xfer P α β) : recvWaits x.events = x.awaited.toList := by
  rcases x with ⟨_ | ⟨q, v⟩, _ | y⟩ <;> simp [Xfer.events, recvWaits, Xfer.awaited]

theorem Xfer.map_awaited (x : Xfer P α β) : x.awaited.map Prod.fst = x.recvWr := by
  rw [awaited, Option.map_map]
  rfl

theorem sendWaits_flatMap (xs : List (Xfer P α β)) :
    sendWaits (xs.flatMap Xfer.events) = xs.filterMap (·.send) := by
  induction xs with
  | nil => rfl
  | cons x xs ih =>
    rw [List.flatMap_cons, sendWaits_append, sendWaits_events, ih]
    cases hx : x.send <;> simp [hx]

theorem recvWaits_flatMap (xs : List (Xfer P α β)) :
    recvWaits (xs.flatMap Xfer.events) = xs.filterMap Xfer.awaited := by
  induction xs with
  | nil => rfl
  | cons x xs ih =>
    rw [List.flatMap_cons, recvWaits_append, recvWaits_events, ih]
    cases hx : x.awaited <;> simp [hx]

theorem map_fst_recvWaits (xs : List (Xfer P α β)) :
    (recvWaits (xs.flatMap Xfer.events)).map Prod.fst = xs.filterMap Xfer.recvWr := by
  rw [recvWaits_flatMap, List.map_filterMap]
  simp only [Xfer.map_awaited]

theorem SocketOnly.follows {D : Wr → Wr → Prop} {p : Proc P α β A} (hp : SocketOnly p) :
    Follows D none none p [] := by
  induction hp with
  | pure a => exact ⟨rfl, rfl, rfl⟩
  | throw e => trivial
  | sendByte q b t _ ih => exact ih
  | recvByte q t _ ih => exact ih

theorem roundsEvents_eq (Gs : List (Round P α β)) (r : Fin P) :
    roundsEvents Gs r = (Gs.map (· r)).flatMap Xfer.events := by
  rw [roundsEvents, List.flatMap_map]

theorem rounds_follows_steps (Gs : List (Round P α β)) (r : Fin P) :
    Follows (fun _ _ => True) none none (roundsProc Gs r)
      ((Gs.map (· r)).flatMap Xfer.events) := by
  rw [← roundsEvents_eq]
  exact rounds_follows fun _ _ _ _ _ _ => trivial

theorem Call.Guards.cases {r : Fin P} {c : Call P} (hc : c.Guards r) (ops : Ops α) (call : ℕ) :
    c = .barrier ∨ ∃ Gs : List (Round P α β), c.proc ops r call = roundsProc Gs r ∧
      c.steps ops r call = Gs.map (· r) := by
  cases c with
  | allreduceRing a =>
    refine Or.inr ⟨ringRounds ops call a, ?_, rfl⟩
    rw [Call.proc, allreduceRing_guards ops call a r hc.1, if_pos hc.2]
  | allreduceRecursiveDoubling a =>
    exact Or.inr ⟨_, allreduceRecursiveDoubling_of_guards ops call a r hc, rfl⟩
  | allgather a => exact Or.inr ⟨_, allgather_of_guard call a r hc, rfl⟩
  | broadcast a root =>
    have hroot : root = ((⟨root.toNat, by have := hc.1; have := hc.2; omega⟩ : Fin P).val : ℤ) :=
      (Int.toNat_of_nonneg hc.1).symm
    refine Or.inr ⟨broadcastRounds call a ⟨root.toNat, _⟩, ?_, dif_pos hc⟩
    rw [Call.proc, ← broadcast_eq, ← hroot]
  | barrier => exact Or.inl rfl

theorem Call.Guards.follows {r : Fin P} {c : Call P} (hc : c.Guards r) (ops : Ops α) (call : ℕ) :
    Follows (fun _ _ => True) none none (c.proc ops r call)
      ((c.steps (β := β) ops r call).flatMap Xfer.events) := by
  rcases hc.cases ops call with rfl | ⟨Gs, hproc, hsteps⟩
  · exact (barrier_socketOnly r call).follows
  · rw [hproc, hsteps]
    exact rounds_follows_steps Gs r

theorem program_follows {r : Fin P} {cs : List (Call P)} (hcs : ∀ c ∈ cs, c.Guards r)
    (ops : Ops α) (call : ℕ) : Follows (fun _ _ => True) none none (program ops r call cs)
      ((programSteps (β := β) ops r call cs).flatMap Xfer.events) := by
  induction cs generalizing call with
  | nil => exact ⟨rfl, rfl, rfl⟩
  | cons c cs ih =>
    rw [program, programSteps, List.flatMap_append]
    exact ((hcs c (by simp)).follows ops call).bind fun _ =>
      ih (fun d hd => hcs d (by simp [hd])) (call + 1)

def Proc.Returns : Proc P α β A → Prop
  | .pure _ => True
  | .throw _ => False
  | .postRecv _ _ k | .postSend _ _ k | .upd _ k | .sendByte _ _ _ k => k.Returns
  | .pollSend k | .pollRecv k => ∃ wc, (k wc).Returns
  | .recvByte _ _ k => ∃ b, (k b).Returns

theorem returns_of_reaches {s e : Fin P → RankState P α β A} {r : Fin P}
    (h : Reaches (fabric P α β A cap) s e) {x : A} (he : (e r).proc = .pure x) :
    (s r).proc.Returns := by
  by_contra hs
  have hend : ¬ (e r).proc.Returns := by
    refine stable_of_moves (Q := fun st => ¬ st.proc.Returns) ?_ ?_ ?_ hs h
    · rintro st t (_ | p) hst hm
      · cases opStep_cases hm with
        | postRecv q wr k hp => rwa [hp] at hst
        | postSend q wr k hp => rwa [hp] at hst
        | pollSend k wc rest hp hc =>
          rw [hp] at hst
          exact fun hk => hst ⟨wc, hk⟩
        | pollRecv k wc rest hp hc =>
          rw [hp] at hst
          exact fun hk => hst ⟨wc, hk⟩
        | upd f k hp => rwa [hp] at hst
        | recvByte q t t' k b rest hp hc =>
          rw [hp] at hst
          exact fun hk => hst ⟨b, hk⟩
      · obtain ⟨a, rest, -, rfl⟩ := completeStep_cases hm
        exact hst
    · rintro st p (_ | _) m g hst hm a
      · obtain ⟨wr, rest, -, -, rfl⟩ := outStep_rdma_cases hm
        exact hst
      · obtain ⟨b, tg, k, hp, -, rfl⟩ := outStep_tcp_cases hm
        rwa [hp] at hst
    · rintro st n p (_ | _) m a t hst hm
      · obtain ⟨wr, xs, rwr, rest, -, -, ⟨-, -, rfl⟩ | ⟨-, -, rfl⟩⟩ := inpStep_rdma_cases hm <;>
          exact hst
      · obtain ⟨b, tg, -, -, -, rfl⟩ := inpStep_tcp_cases hm
        exact hst
  rw [he] at hend
  exact hend trivial

theorem Proc.Returns.bind {B : Type} {p : Proc P α β A} {f : A → Proc P α β B} (hp : p.Returns)
    (hf : ∀ a, (f a).Returns) : (p >>= f).Returns := by
  induction p with
  | pure a => exact hf a
  | throw e => exact hp.elim
  | postRecv q wr k ih => exact ih hp
  | postSend q wr k ih => exact ih hp
  | pollSend k ih => exact hp.imp fun wc h => ih wc h
  | pollRecv k ih => exact hp.imp fun wc h => ih wc h
  | upd g k ih => exact ih hp
  | sendByte q b t k ih => exact ih hp
  | recvByte q t k ih => exact hp.imp fun b h => ih b h

theorem Xfer.returns (x : Xfer P α β) : x.proc.Returns := by
  obtain ⟨rv, sd⟩ := x
  have hrecv : (Xfer.postRecv rv).Returns := by
    rcases rv with _ | ⟨q, v⟩ <;> trivial
  have hsend : (Xfer.postSend (α := α) (β := β) sd).Returns := by
    rcases sd with _ | ⟨q, wr⟩ <;> trivial
  have hwaitSend : (Xfer.waitSend (α := α) (β := β) sd).Returns := by
    rcases sd with _ | y
    · trivial
    · exact ⟨⟨.success, 0⟩, trivial⟩
  have hwaitRecv : (Xfer.waitRecv rv).Returns := by
    rcases rv with _ | ⟨q, v⟩
    · trivial
    · refine ⟨⟨.success, v.expected⟩, ?_⟩
      change (v.finish (P := P) ⟨.success, v.expected⟩).Returns
      rw [RecvPart.finish, if_neg (not_not.mpr rfl)]
      cases v.reduce <;> trivial
  exact hrecv.bind fun _ => hsend.bind fun _ => hwaitSend.bind fun _ => hwaitRecv

theorem rounds_return (Gs : List (Round P α β)) (r : Fin P) : (roundsProc Gs r).Returns := by
  induction Gs with
  | nil => trivial
  | cons G Gs ih => exact (Xfer.returns (G r)).bind fun _ => ih

theorem barrier_returns (l : Fin P → Local α β) (r : Fin P) (call : ℕ) :
    (barrier (α := α) (β := β) r call).Returns := by
  have hcap : ∀ i j : Fin P, 0 < (fun _ _ => 1 : Fin P → Fin P → ℕ) i j := fun _ _ => Nat.one_pos
  have hleads := barrier_leads hcap call (fun _ => .pure ()) l
  simp only [Proc.bind_unit] at hleads
  obtain ⟨s, hs, hq⟩ := hleads _ (start_quiet _ l)
  exact returns_of_reaches (r := r) hs (hq r).proc

theorem program_returns {r : Fin P} {cs : List (Call P)} (hcs : ∀ c ∈ cs, c.Guards r)
    (ops : Ops α) (call : ℕ) (l : Fin P → Local α β) :
    (program (β := β) ops r call cs).Returns := by
  induction cs generalizing call with
  | nil => trivial
  | cons c cs ih =>
    have hc : (c.proc (β := β) ops r call).Returns := by
      rcases (hcs c (by simp)).cases (β := β) ops call with rfl | ⟨Gs, hproc, -⟩
      · exact barrier_returns l r call
      · rw [hproc]
        exact rounds_return Gs r
    exact hc.bind fun _ => ih (fun d hd => hcs d (by simp [hd])) (call + 1)

/-- Whether something is outstanding can be read off what a process still does. -/
theorem Follows.isSome_eq {D : Wr → Wr → Prop} {p : Proc P α β A} (hp : p.Returns)
    {ps pr ps' pr' : Option (Fin P × Wr)} {es es' : List (Event P α β)}
    (h : Follows D ps pr p es) (h' : Follows D ps' pr' p es') :
    ps.isSome = ps'.isSome ∧ pr.isSome = pr'.isSome := by
  induction p generalizing ps pr ps' pr' es es' with
  | pure a =>
    obtain ⟨rfl, rfl, -⟩ := h
    obtain ⟨rfl, rfl, -⟩ := h'
    exact ⟨rfl, rfl⟩
  | throw e => exact hp.elim
  | postRecv q wr k ih =>
    obtain ⟨rfl, -, es₁, -, hk⟩ := h
    obtain ⟨rfl, -, es₂, -, hk'⟩ := h'
    exact ⟨(ih hp hk hk').1, rfl⟩
  | postSend q wr k ih =>
    obtain ⟨rfl, -, es₁, -, hk⟩ := h
    obtain ⟨rfl, -, es₂, -, hk'⟩ := h'
    exact ⟨rfl, (ih hp hk hk').2⟩
  | pollSend k ih =>
    obtain ⟨wc, hp⟩ := hp
    obtain ⟨y, es₁, rfl, -, hk⟩ := h
    obtain ⟨y', es₂, rfl, -, hk'⟩ := h'
    exact ⟨rfl, (ih wc hp (hk wc) (hk' wc)).2⟩
  | pollRecv k ih =>
    obtain ⟨wc, hp⟩ := hp
    obtain ⟨z, n, es₁, rfl, -, hk⟩ := h
    obtain ⟨z', n', es₂, rfl, -, hk'⟩ := h'
    have hlive : ¬ ∃ e, k wc = .throw e := by
      rintro ⟨e, he⟩
      rw [he] at hp
      exact hp
    have hk := ((hk wc).resolve_left hlive).2
    have hk' := ((hk' wc).resolve_left hlive).2
    exact ⟨(ih wc hp hk hk').1, rfl⟩
  | upd f k ih =>
    obtain ⟨rfl, rfl, -⟩ := h
    obtain ⟨rfl, rfl, -⟩ := h'
    exact ⟨rfl, rfl⟩
  | sendByte q b t k ih => exact ih hp h h'
  | recvByte q t k ih =>
    obtain ⟨b, hp⟩ := hp
    exact ih b hp (h b) (h' b)

section Runs

variable {st : RankState P α β A} {steps : List (Xfer P α β)}

/-- The completion that a wait for a send takes is that of the send of its own step. -/
theorem Along.takes_own_send (h : Along (fun _ _ => True) (steps.flatMap Xfer.events) st)
    {k : Wc → Proc P α β A} {wc : Wc} {rest : List Wc} (hp : st.proc = .pollSend k)
    (hc : st.sendCq = wc :: rest) :
    rest = [] ∧ ∃ before x y, AtEvent steps before x (.waitSend y) st.proc ∧ x.send = some y ∧
      st.sent = before.filterMap (·.send) ++ [y] := by
  obtain ⟨done, todo, ps, pr, htrace, hcode, hs, -, -, -, -⟩ := h
  obtain ⟨y, rfl, rfl, -, -, hsent⟩ := hs.cq_cons hc
  have hhead : ∃ es, todo = .waitSend y :: es := by
    rw [hp] at hcode
    obtain ⟨y', es, hy, rfl, -⟩ := hcode
    obtain rfl := Option.some.inj hy
    exact ⟨es, rfl⟩
  obtain ⟨es, rfl⟩ := hhead
  obtain ⟨before, x, after, past, next, rfl, hx, rfl, rfl⟩ := flatMap_events_split htrace
  -- the step has one wait for a send
  have hwaits : x.send.toList = sendWaits past ++ y :: sendWaits next := by
    rw [← sendWaits_events, hx, sendWaits_append]
    rfl
  obtain ⟨hpast, hsend⟩ := eq_some_of_toList hwaits
  refine ⟨rfl, before, x, y, ⟨after, past, next, some y, pr, rfl, hx, hcode⟩, hsend, ?_⟩
  rw [hsent, sendWaits_append, sendWaits_flatMap, hpast, List.append_nil]

theorem Along.takes_own_recv (h : Along (fun _ _ => True) (steps.flatMap Xfer.events) st)
    {k : Wc → Proc P α β A} {wc : Wc} {rest : List Wc} (hp : st.proc = .pollRecv k)
    (hc : st.recvCq = wc :: rest) :
    rest = [] ∧ ∃ before x z n, AtEvent steps before x (.waitRecv z n) st.proc ∧
      x.recvWr = some z ∧ ∃ log w, st.log = log ++ [(z.1, w, z.2)] ∧
        wc = completionOf (z.1, w, z.2) ∧
        (log.map fun e => (e.1, e.2.2)) = before.filterMap Xfer.recvWr := by
  obtain ⟨done, todo, ps, pr, htrace, hcode, -, hr, -, -, -⟩ := h
  obtain ⟨z, rfl, rfl, -, hlog⟩ := hr.cq_cons hc
  have hhead : ∃ n es, todo = .waitRecv z n :: es := by
    rw [hp] at hcode
    obtain ⟨z', n, es, hz, rfl, -⟩ := hcode
    obtain rfl := Option.some.inj hz
    exact ⟨n, es, rfl⟩
  obtain ⟨n, es, rfl⟩ := hhead
  obtain ⟨before, x, after, past, next, rfl, hx, rfl, rfl⟩ := flatMap_events_split htrace
  have hwaits : x.recvWr.toList = (recvWaits past).map Prod.fst ++ z ::
      (recvWaits next).map Prod.fst := by
    rw [← x.map_awaited, Option.toList_map, ← recvWaits_events, hx, recvWaits_append,
      List.map_append]
    rfl
  obtain ⟨hpast, hrecv⟩ := eq_some_of_toList hwaits
  rw [recvWaits_append, List.map_eq_nil_iff.mp hpast, List.append_nil,
    List.map_eq_append_iff] at hlog
  obtain ⟨log, last, hsplit, hbefore, hlast⟩ := hlog
  obtain ⟨e, rfl, he⟩ := List.map_eq_singleton_iff.mp hlast
  obtain ⟨q, w, w'⟩ := e
  obtain ⟨rfl, rfl⟩ := Prod.mk.inj he
  refine ⟨rfl, before, x, (q, w'), n, ⟨after, past, next, ps, _, rfl, hx, hcode⟩, hrecv, log, w,
    hsplit, rfl, ?_⟩
  rw [← map_fst_recvWaits, ← hbefore, List.map_map]
  rfl

end Runs

/-- A rank whose calls pass their guards never has more than one send and one receive
outstanding, a wait takes the completion of what its own step has posted, and nothing is left over
when a collective returns. -/
theorem program_completions_own (cap : Fin P → Fin P → ℕ) (ops : Ops α) {cs : List (Call P)}
    {r : Fin P} (hcs : ∀ c ∈ cs, c.Guards r) (x : Fin P → Local α β)
    {s : Fin P → RankState P α β Unit}
    (hs : Reaches (fabric P α β Unit cap) (start (fun r => program ops r 0 cs) x) s) :
    outstandingSends (s r) ≤ 1 ∧ outstandingRecvs (s r) ≤ 1 ∧
    (∀ k wc rest, (s r).proc = .pollSend k → (s r).sendCq = wc :: rest →
      rest = [] ∧ ∃ before x y,
        AtEvent (programSteps ops r 0 cs) before x (.waitSend y) (s r).proc ∧
        x.send = some y ∧ (s r).sent = before.filterMap (·.send) ++ [y]) ∧
    (∀ k wc rest, (s r).proc = .pollRecv k → (s r).recvCq = wc :: rest →
      rest = [] ∧ ∃ before x z n,
        AtEvent (programSteps ops r 0 cs) before x (.waitRecv z n) (s r).proc ∧
        x.recvWr = some z ∧ ∃ log w, (s r).log = log ++ [(z.1, w, z.2)] ∧
          wc = completionOf (z.1, w, z.2) ∧
          (log.map fun e => (e.1, e.2.2)) = before.filterMap Xfer.recvWr) ∧
    ∀ k, (s r).proc = program ops r k (cs.drop k) →
      (s r).sendCq = [] ∧ (s r).recvCq = [] ∧
        outstandingSends (s r) = 0 ∧ outstandingRecvs (s r) = 0 := by
  have halong := Follows.along (p := fun r => program ops r 0 cs) (program_follows hcs ops 0) hs
  have hbound : ∀ o : Option (Fin P × Wr), o.toList.length ≤ 1 := by
    intro o
    cases o <;> simp
  refine ⟨?_, ?_, fun k wc rest => halong.takes_own_send, fun k wc rest => halong.takes_own_recv,
    fun k hproc => ?_⟩
  · obtain ⟨done, todo, ps, pr, -, hprog⟩ := halong
    exact hprog.sends.outstanding.trans_le (hbound ps)
  · obtain ⟨done, todo, ps, pr, -, hprog⟩ := halong
    exact hprog.recvs.outstanding.trans (hbound pr)
  · obtain ⟨done, todo, ps, pr, -, hprog⟩ := halong
    have hdrop : ∀ c ∈ cs.drop k, c.Guards r := fun c hc => hcs c (List.mem_of_mem_drop hc)
    -- the rest of the program starts with nothing outstanding
    have hrest := program_follows (β := β) hdrop ops k
    have hreturns := program_returns hdrop ops k x
    obtain ⟨hps, hpr⟩ := Follows.isSome_eq hreturns (hproc ▸ hprog.code) hrest
    obtain rfl : ps = none := by simpa using hps
    obtain rfl : pr = none := by simpa using hpr
    have hsends : outstandingSends (s r) = 0 := hprog.sends.outstanding
    have hrecvs : outstandingRecvs (s r) = 0 := Nat.le_zero.mp hprog.recvs.outstanding
    refine ⟨?_, ?_, hsends, hrecvs⟩
    · exact List.length_eq_zero_iff.mp (Nat.add_eq_zero_iff.mp hsends).2
    · exact List.length_eq_zero_iff.mp (Nat.add_eq_zero_iff.mp hrecvs).2

theorem sumMeetCopy_guards (r : Fin 2) : ∀ c ∈ sumMeetCopy, c.Guards r := by
  simp only [sumMeetCopy, List.mem_cons, List.not_mem_nil, or_false, forall_eq_or_imp, forall_eq]
  exact ⟨⟨by decide +revert, by decide +revert⟩, trivial, by decide, by decide⟩

/-- Rank 0 finds the completion of its own send, with its receive outstanding. -/
theorem program_completions_own_sumMeetCopy :
    ∃ s k, Reaches (fabric 2 ℕ Unit Unit fun _ _ => 1)
        (start (fun r => program (fun _ _ u v => u + v) r 0 sumMeetCopy)
          fun r => ⟨fun _ i => 10 * r + i, ()⟩) s ∧
      (s 0).proc = .pollSend k ∧ (s 0).sendCq = [⟨.success, 0⟩] ∧ outstandingSends (s 0) = 1 ∧
      outstandingRecvs (s 0) = 1 ∧ ∃ before x y, x.send = some y ∧
        AtEvent (programSteps (fun _ _ u v => u + v) 0 0 sumMeetCopy) before x (.waitSend y)
          (s 0).proc ∧ (s 0).sent = before.filterMap (·.send) ++ [y] := by
  obtain ⟨s, k, hrun, hproc, hcq, hsends, hrecvs⟩ : ∃ s k,
      fireAll (fabric 2 ℕ Unit Unit fun _ _ => 1)
        [.act 0 .op, .act 0 .op, .act 1 .op, .comm 0 1 .rdma, .act 0 (.complete 1)]
        (start (fun r => program (fun _ _ u v => u + v) r 0 sumMeetCopy)
          fun r => ⟨fun _ i => 10 * r + i, ()⟩) = some s ∧
      (s 0).proc = .pollSend k ∧ (s 0).sendCq = [⟨.success, 0⟩] ∧ outstandingSends (s 0) = 1 ∧
      outstandingRecvs (s 0) = 1 := ⟨_, _, rfl, rfl, rfl, rfl, rfl⟩
  have hs := reaches_of_fireAll hrun
  obtain ⟨-, before, x, y, hat, hsend, hsent⟩ :=
    (program_completions_own (fun _ _ => 1) _ (sumMeetCopy_guards 0) _ hs).2.2.1 k _ [] hproc hcq
  exact ⟨s, k, hs, hproc, hcq, hsends, hrecvs, before, x, y, hsend, hat, hsent⟩

end MicroCcl

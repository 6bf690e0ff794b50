import MicroCcl.Runs

namespace MicroCcl
open Network

/-- A receive of a round, with what is checked and done after it. -/
structure RecvPart (α β : Type) where
  wr : Wr
  expected : ℕ
  mismatch : ℕ → Exn
  reduce : Option (Local α β → Local α β)

structure Xfer (P : ℕ) (α β : Type) where
  recv : Option (Fin P × RecvPart α β)
  send : Option (Fin P × Wr)

variable {P : ℕ} {α β A : Type} {cap : Fin P → Fin P → ℕ}

def RecvPart.finish (v : RecvPart α β) (wc : Wc) : Proc P α β Unit :=
  if wc.byteLen ≠ v.expected then .throw (v.mismatch wc.byteLen)
  else
    match v.reduce with
    | some f => .upd f (.pure ())
    | none => .pure ()

theorem RecvPart.finish_def (v : RecvPart α β) : v.finish (P := P) = fun wc =>
    if wc.byteLen ≠ v.expected then .throw (v.mismatch wc.byteLen)
    else
      match v.reduce with
      | some f => .upd f (.pure ())
      | none => .pure () := rfl

def Xfer.postRecv : Option (Fin P × RecvPart α β) → Proc P α β Unit
  | some (q, v) => .postRecv q v.wr (.pure ())
  | none => .pure ()

def Xfer.postSend : Option (Fin P × Wr) → Proc P α β Unit
  | some (q, wr) => .postSend q wr (.pure ())
  | none => .pure ()

def Xfer.waitSend : Option (Fin P × Wr) → Proc P α β Unit
  | some _ => waitCompletion .send >>= fun _ => .pure ()
  | none => .pure ()

def Xfer.waitRecv : Option (Fin P × RecvPart α β) → Proc P α β Unit
  | some (_, v) => waitCompletion .recv >>= v.finish
  | none => .pure ()

def Xfer.proc (x : Xfer P α β) : Proc P α β Unit := do
  Xfer.postRecv x.recv
  Xfer.postSend x.send
  Xfer.waitSend x.send
  Xfer.waitRecv x.recv

/-- What a rank sends in the round is outside of what it receives into. -/
def Xfer.Apart (x : Xfer P α β) : Prop :=
  ∀ y ∈ x.send, ∀ z ∈ x.recv, y.2.Apart z.2.wr

theorem disciplined_checkWc (ps pr : Option (Fin P × Wr)) (wc : Wc) {f : Wc → Proc P α β A}
    (hf : ∀ w, Disciplined ps pr (f w)) : Disciplined ps pr (checkWc wc >>= f) := by
  unfold checkWc
  split_ifs
  · trivial
  · exact hf wc

theorem RecvPart.disciplined_finish (v : RecvPart α β) (wc : Wc) :
    Disciplined none none (v.finish (P := P) wc) := by
  unfold RecvPart.finish
  split_ifs
  · trivial
  · cases v.reduce with
    | none => exact ⟨rfl, rfl⟩
    | some f => exact ⟨rfl, rfl, rfl, rfl⟩

theorem Xfer.disciplined {x : Xfer P α β} (hx : x.Apart) : Disciplined none none x.proc := by
  obtain ⟨rv, sd⟩ := x
  rcases rv with _ | ⟨q, v⟩ <;> rcases sd with _ | ⟨q', wr⟩ <;>
    simp only [Xfer.proc, Xfer.postRecv, Xfer.postSend, Xfer.waitSend, Xfer.waitRecv,
      waitCompletion, Proc.pure_bind', Proc.postRecv_bind, Proc.postSend_bind,
      Proc.pollSend_bind, Proc.pollRecv_bind, bind_assoc]
  · exact ⟨rfl, rfl⟩
  · refine ⟨rfl, by simp, by simp, fun wc => disciplined_checkWc _ _ wc fun _ => ?_⟩
    exact ⟨rfl, rfl⟩
  · refine ⟨rfl, by simp, by simp, fun wc => disciplined_checkWc _ _ wc fun w => ?_⟩
    exact v.disciplined_finish w
  · have hap : wr.Apart v.wr := hx _ rfl _ rfl
    refine ⟨rfl, by simp, rfl, by simpa using hap, by simp, fun wc => ?_⟩
    refine disciplined_checkWc _ _ wc fun _ => ?_
    refine ⟨by simp, fun wc' => disciplined_checkWc _ _ wc' fun w => ?_⟩
    exact v.disciplined_finish w

abbrev Round (P : ℕ) (α β : Type) := Fin P → Xfer P α β

/-- Every send meets a receive of the same length, step and call, and every
receive meets a send. -/
structure Round.Matched (G : Round P α β) : Prop where
  apart : ∀ r, (G r).Apart
  send_recv : ∀ {i j wr}, (G i).send = some (j, wr) → i ≠ j ∧
    ∃ v, (G j).recv = some (i, v) ∧ wr.length = v.wr.length ∧ v.expected = wr.length ∧
      wr.tag = v.wr.tag
  recv_send : ∀ {i j v}, (G j).recv = some (i, v) → ∃ wr, (G i).send = some (j, wr)

/-- `Matched` as far as the requests go, whatever the receivers expect. -/
structure Round.Paired (G : Round P α β) : Prop where
  apart : ∀ r, (G r).Apart
  send_recv : ∀ {i j wr}, (G i).send = some (j, wr) → i ≠ j ∧
    ∃ v, (G j).recv = some (i, v) ∧ wr.length = v.wr.length ∧ wr.tag = v.wr.tag
  recv_send : ∀ {i j v}, (G j).recv = some (i, v) → ∃ wr, (G i).send = some (j, wr)

theorem Round.Paired.matched {G : Round P α β} (hG : G.Paired)
    (hexp : ∀ r, ∀ z ∈ (G r).recv, z.2.expected = z.2.wr.length) : G.Matched where
  apart := hG.apart
  send_recv := by
    intro i j wr h
    obtain ⟨hne, v, hv, hlen, htag⟩ := hG.send_recv h
    exact ⟨hne, v, hv, hlen, (hexp j (i, v) hv).trans hlen.symm, htag⟩
  recv_send := hG.recv_send

/-- The elements a rank puts on the wire in the round. -/
def Round.payload (G : Round P α β) (l : Fin P → Local α β) (r : Fin P) : List α :=
  match (G r).send with
  | some (_, wr) => readRange (l r).mem wr
  | none => []

def RecvPart.store (v : RecvPart α β) (l : Local α β) (xs : List α) : Local α β :=
  { l with mem := writeRange l.mem v.wr xs }

def RecvPart.apply (v : RecvPart α β) (l : Local α β) : Local α β :=
  match v.reduce with
  | some f => f l
  | none => l

/-- The round done by all ranks at once: all messages move, then all ranks reduce. -/
def Round.sync (G : Round P α β) (l : Fin P → Local α β) (r : Fin P) : Local α β :=
  match (G r).recv with
  | some (q, v) => v.apply (v.store (l r) (G.payload l q))
  | none => l r

theorem writeRange_readRange {a b : Wr} (hlen : a.length = b.length) (m m' : Mem α) (buf : Buf)
    (i : ℕ) : writeRange m b (readRange m' a) buf i =
      if buf = b.buf ∧ b.off / 4 ≤ i ∧ i < b.off / 4 + b.length / 4 then
        m' a.buf (a.off / 4 + (i - b.off / 4))
      else m buf i := by
  unfold writeRange readRange
  split_ifs with h
  · rw [List.getD_eq_getElem?_getD, List.getElem?_map, List.getElem?_range (by omega)]
    rfl
  · rfl

def workRequest (mr : MemoryRegion) (buf : Buf) (off len : ℕ) (tag : Tag) : Wr :=
  ⟨mr, buf, off, len % 2 ^ 32, 0, tag⟩

theorem workRequest_move {len n : ℕ} (hlen : len % 2 ^ 32 = n * 4) (m m' : Mem α)
    (mr mr' : MemoryRegion) (buf buf' : Buf) (off off' : ℕ) (tag tag' : Tag) (b : Buf) (i : ℕ) :
    writeRange m (workRequest mr buf off len tag)
        (readRange m' (workRequest mr' buf' off' len tag')) b i =
      if b = buf ∧ off / 4 ≤ i ∧ i < off / 4 + n then m' buf' (off' / 4 + (i - off / 4))
      else m b i := by
  have h := writeRange_readRange (a := workRequest mr' buf' off' len tag')
    (b := workRequest mr buf off len tag) rfl m m' b i
  simpa only [workRequest, hlen, Nat.mul_div_cancel _ (show 0 < 4 by omega)] using h

theorem Round.sync_of_recv (G : Round P α β) {l : Fin P → Local α β} {r q : Fin P}
    {v : RecvPart α β} (hv : (G r).recv = some (q, v)) :
    G.sync l r = v.apply (v.store (l r) (G.payload l q)) := by
  simp only [Round.sync, hv]

theorem Round.sync_of_idle (G : Round P α β) {l : Fin P → Local α β} {r : Fin P}
    (hv : (G r).recv = none) : G.sync l r = l r := by
  simp only [Round.sync, hv]

theorem Round.sync_vars (G : Round P α β) {r : Fin P}
    (h : ∀ z ∈ (G r).recv, ∀ f ∈ z.2.reduce, ∀ l, (f l).vars = l.vars) (l : Fin P → Local α β) :
    (G.sync l r).vars = (l r).vars := by
  rcases hr : (G r).recv with _ | ⟨q, v⟩
  · rw [G.sync_of_idle hr]
  · rw [G.sync_of_recv hr, RecvPart.apply]
    split
    · next f hf => exact h (q, v) hr f hf _
    · rfl

theorem Round.payload_of_send (G : Round P α β) {l : Fin P → Local α β} {r q : Fin P}
    {wr : Wr} (hw : (G r).send = some (q, wr)) : G.payload l r = readRange (l r).mem wr := by
  simp only [Round.payload, hw]

def Round.mid (G : Round P α β) (k : Fin P → Proc P α β A) (l : Fin P → Local α β)
    (sn : Fin P → List (Fin P × Wr)) (lg : Fin P → List (Fin P × Wr × Wr))
    (bl : Fin P → List (Fin P × Tag × Tag)) (r : Fin P) (x y : Bool) : RankState P α β A where
  proc := Xfer.waitSend (G r).send >>= fun _ => Xfer.waitRecv (G r).recv >>= fun _ => k r
  loc :=
    match (G r).recv with
    | some (q, v) => if y then v.store (l r) (G.payload l q) else l r
    | none => l r
  sendQ :=
    match (G r).send with
    | some (q, wr) => if x then fun _ => [] else Function.update (fun _ => []) q [wr]
    | none => fun _ => []
  acks :=
    match (G r).send with
    | some (q, _) => if x then Function.update (fun _ => []) q [.success] else fun _ => []
    | none => fun _ => []
  sendCq := []
  recvQ :=
    match (G r).recv with
    | some (q, v) => if y then fun _ => [] else Function.update (fun _ => []) q [v.wr]
    | none => fun _ => []
  recvCq :=
    match (G r).recv with
    | some (_, v) => if y then [⟨.success, v.expected⟩] else []
    | none => []
  inbox := fun _ => []
  sent :=
    match (G r).send with
    | some (q, wr) => if x then sn r ++ [(q, wr)] else sn r
    | none => sn r
  log :=
    match (G r).recv with
    | some (q, v) => if y then lg r ++ ((G q).send.toList.map fun z => (q, z.2, v.wr)) else lg r
    | none => lg r
  byteLog := bl r

variable {G : Round P α β} {k : Fin P → Proc P α β A} {l : Fin P → Local α β}
  {sn : Fin P → List (Fin P × Wr)} {lg : Fin P → List (Fin P × Wr × Wr)}
  {bl : Fin P → List (Fin P × Tag × Tag)}

theorem Round.moves_post (r : Fin P) :
    Moves (fabric P α β A cap) r (atRest ((G r).proc >>= fun _ => k r) (l r) (sn r) (lg r) (bl r))
      (G.mid k l sn lg bl r false false) := by
  unfold Round.mid Xfer.proc atRest
  rcases (G r).recv with _ | ⟨q, v⟩ <;> rcases (G r).send with _ | ⟨q', wr⟩ <;>
    simp only [Xfer.postRecv, Xfer.postSend, Proc.postRecv_bind, Proc.postSend_bind,
      Proc.pure_bind', bind_assoc]
  · exact .refl
  · exact .head ⟨.op, rfl⟩ .refl
  · exact .head ⟨.op, rfl⟩ .refl
  · exact .head ⟨.op, rfl⟩ (.head ⟨.op, rfl⟩ .refl)

theorem moves_complete {st : RankState P α β A} {p : Fin P} {a : WcStatus} (r : Fin P)
    (h : st.acks = Function.update (fun _ => []) p [a]) :
    Moves (fabric P α β A cap) r st
      { st with acks := fun _ => [], sendCq := st.sendCq ++ [⟨a, 0⟩] } :=
  Moves.one (.complete p) (by simp [fabric, actStep, completeStep, h])

/-- The receive arrived with the expected length, so the rank goes on to reduce. -/
theorem RecvPart.moves_finish (v : RecvPart α β) {st : RankState P α β A} {p : Proc P α β A}
    (r : Fin P)
    (h : st.proc = .pollRecv fun wc => checkWc wc >>= fun wc => v.finish wc >>= fun _ => p)
    (hc : st.recvCq = [⟨.success, v.expected⟩]) :
    Moves (fabric P α β A cap) r st
      { st with proc := p, recvCq := [], loc := v.apply st.loc } := by
  have hfin : (checkWc ⟨.success, v.expected⟩ >>= fun wc => v.finish wc >>= fun _ => p) =
      match v.reduce with
      | some f => Proc.upd f p
      | none => p := by
    change (v.finish ⟨.success, v.expected⟩ >>= fun _ => p) = _
    unfold RecvPart.finish
    rw [if_neg (by simp)]
    cases v.reduce <;> rfl
  have hpoll : Moves (fabric P α β A cap) r st
      { st with
        proc := checkWc ⟨.success, v.expected⟩ >>= fun wc => v.finish wc >>= fun _ => p
        recvCq := [] } :=
    Moves.one .op (by simp [fabric, actStep, opStep, h, hc])
  apply hpoll.trans
  rw [hfin]
  unfold RecvPart.apply
  cases v.reduce with
  | none => exact .refl
  | some f => exact .head ⟨.op, rfl⟩ .refl

theorem moves_waitSend {st : RankState P α β A} {q : Fin P} {p : Proc P α β A} (r : Fin P)
    (h : st.proc = .pollSend fun wc => checkWc wc >>= fun _ => p)
    (ha : st.acks = Function.update (fun _ => []) q [.success]) (hc : st.sendCq = []) :
    Moves (fabric P α β A cap) r st { st with proc := p, acks := fun _ => [], sendCq := [] } := by
  refine (moves_complete r ha).trans (Moves.one .op ?_)
  simp [fabric, actStep, opStep, h, hc, checkWc]

def Round.deliveries (G : Round P α β) (r : Fin P) : List (Fin P × Wr × Wr) :=
  match (G r).recv with
  | some (q, v) => (G q).send.toList.map fun z => (q, z.2, v.wr)
  | none => []

theorem Round.Matched.deliveries_tag (hG : G.Matched) {r : Fin P} {e : Fin P × Wr × Wr}
    (he : e ∈ G.deliveries r) : e.2.1.tag = e.2.2.tag := by
  unfold Round.deliveries at he
  rcases hr : (G r).recv with _ | ⟨q, v⟩
  · simp [hr] at he
  · obtain ⟨wr, hw⟩ := hG.recv_send hr
    obtain ⟨-, v', hv', -, -, htag⟩ := hG.send_recv hw
    rw [hr] at hv'
    obtain ⟨-, rfl⟩ := Prod.mk.inj (Option.some.inj hv')
    simp only [hr, hw, Option.toList, List.map_cons, List.map_nil, List.mem_singleton] at he
    subst he
    exact htag

theorem Round.moves_finish (r : Fin P) :
    Moves (fabric P α β A cap) r
      (G.mid k l sn lg bl r (G r).send.isSome (G r).recv.isSome)
      (atRest (k r) (G.sync l r) (sn r ++ (G r).send.toList) (lg r ++ G.deliveries r) (bl r)) := by
  unfold Round.mid Round.sync atRest Round.deliveries
  rcases (G r).recv with _ | ⟨q, v⟩ <;> rcases (G r).send with _ | ⟨q', wr⟩ <;>
    simp only [Xfer.waitSend, Xfer.waitRecv, Proc.pure_bind', waitCompletion, Proc.pollSend_bind,
      Proc.pollRecv_bind, bind_assoc, Option.isSome, if_true, Option.toList, List.append_nil]
  · exact .refl
  · exact moves_waitSend r rfl rfl rfl
  · exact v.moves_finish r rfl rfl
  · exact (moves_waitSend r rfl rfl rfl).trans (v.moves_finish r rfl rfl)

theorem Round.mid_out (hG : G.Matched) {i j : Fin P} {wr : Wr} (h : (G i).send = some (j, wr))
    (y : Bool) : ∃ g, outStep (G.mid k l sn lg bl i false y) j .rdma =
      some (.data wr (G.payload l i), g) ∧ g .success = G.mid k l sn lg bl i true y := by
  -- the receive may be filled before the send is taken, but not where the send reads
  have hread : readRange (G.mid k l sn lg bl i false y).loc.mem wr = G.payload l i := by
    simp only [Round.mid, Round.payload, h]
    rcases hr : (G i).recv with _ | ⟨q, v⟩
    · rfl
    · have hap : wr.Apart v.wr := hG.apart i _ h _ hr
      cases y with
      | false => rfl
      | true => exact readRange_writeRange _ hap _
  have hq : (G.mid k l sn lg bl i false y).sendQ j = [wr] := by simp [Round.mid, h]
  refine ⟨_, (by simp only [outStep, hq, hread]; rfl), ?_⟩
  simp [Round.mid, h]

theorem Round.mid_inp (hG : G.Matched) {i j : Fin P} {wr : Wr} (h : (G i).send = some (j, wr))
    (n : ℕ) (x : Bool) : inpStep n (G.mid k l sn lg bl j x false) i .rdma
      (.data wr (G.payload l i)) = some (.success, G.mid k l sn lg bl j x true) := by
  obtain ⟨-, v, hv, hlen, hexp, -⟩ := hG.send_recv h
  have hq : (G.mid k l sn lg bl j x false).recvQ i = [v.wr] := by simp [Round.mid, hv]
  simp only [inpStep, hq, if_pos hlen.le]
  simp [Round.mid, hv, h, hexp, RecvPart.store]

theorem Round.reaches_deliver (hG : G.Matched) :
    Reaches (fabric P α β A cap) (fun r => G.mid k l sn lg bl r false false)
      (fun r => G.mid k l sn lg bl r (G r).send.isSome (G r).recv.isSome) := by
  -- the senders of the round; a rank that does not send is its own `dst`
  let S : Finset (Fin P) := Finset.univ.filter fun r => (G r).send.isSome
  let dst : Fin P → Fin P := fun r => ((G r).send.map Prod.fst).getD r
  have hS : ∀ i, i ∈ S ↔ ∃ j wr, (G i).send = some (j, wr) := by
    intro i
    simp [S, Option.isSome_iff_exists]
  have hdst : ∀ {i j wr}, (G i).send = some (j, wr) → dst i = j := by
    intro i j wr h
    simp [dst, h]
  have hrecv : ∀ r, (r ∈ S.image dst) ↔ (G r).recv.isSome := by
    intro r
    rw [Finset.mem_image]
    constructor
    · rintro ⟨i, hi, rfl⟩
      obtain ⟨j, wr, h⟩ := (hS i).mp hi
      obtain ⟨-, v, hv, -⟩ := hG.send_recv h
      simp [hdst h, hv]
    · intro h
      obtain ⟨⟨i, v⟩, hv⟩ := Option.isSome_iff_exists.mp h
      obtain ⟨wr, hw⟩ := hG.recv_send hv
      exact ⟨i, (hS i).mpr ⟨r, wr, hw⟩, hdst hw⟩
  have hsend : ∀ r, (r ∈ S) ↔ (G r).send.isSome := by
    intro r
    simp [S]
  have main := reaches_of_comms (N := fabric P α β A cap) Chan.rdma (G.mid k l sn lg bl) S dst
    ?_ ?_ ?_
  · simpa only [hrecv, hsend, Bool.decide_eq_true] using main
  · intro i hi
    obtain ⟨j, wr, h⟩ := (hS i).mp hi
    rw [hdst h]
    exact (hG.send_recv h).1
  · intro i hi i' hi' he
    obtain ⟨j, wr, h⟩ := (hS i).mp hi
    obtain ⟨j', wr', h'⟩ := (hS i').mp hi'
    rw [hdst h, hdst h'] at he
    subst j'
    obtain ⟨-, v, hv, -⟩ := hG.send_recv h
    obtain ⟨-, v', hv', -⟩ := hG.send_recv h'
    rw [hv] at hv'
    simpa using (Prod.mk.inj (Option.some.inj hv')).1
  · intro i hi x y
    obtain ⟨j, wr, h⟩ := (hS i).mp hi
    rw [hdst h]
    obtain ⟨g, hout, hg⟩ := Round.mid_out hG h y
    exact ⟨_, g, .success, hout, Round.mid_inp hG h (cap j i) x, hg⟩

theorem Round.Matched.leads (hG : G.Matched) (k : Fin P → Proc P α β A) (l : Fin P → Local α β) :
    Leads cap (fun r => (G r).proc >>= fun _ => k r) l k (G.sync l) := by
  intro s hs
  let sn := fun r => (s r).sent
  let lg := fun r => (s r).log
  let bl := fun r => (s r).byteLog
  have hs' : s = fun r => atRest ((G r).proc >>= fun _ => k r) (l r) (sn r) (lg r) (bl r) :=
    funext fun r => (hs r).eq_atRest
  refine ⟨fun r => atRest (k r) (G.sync l r) (sn r ++ (G r).send.toList)
    (lg r ++ G.deliveries r) (bl r), ?_, ?_⟩
  -- post everything, deliver everything, then let everybody finish
  · have hpost : Reaches (fabric P α β A cap) s (fun r => G.mid k l sn lg bl r false false) := by
      rw [hs']
      exact reaches_of_moves fun r => Round.moves_post r
    exact hpost.trans ((Round.reaches_deliver hG).trans
      (reaches_of_moves fun r => Round.moves_finish r))
  · intro r
    refine atRest_quiet ?_ (hs r).byteTags
    intro e he
    rcases List.mem_append.mp he with he | he
    · exact (hs r).tags e he
    · exact hG.deliveries_tag he

def roundsProc (Gs : List (Round P α β)) (r : Fin P) : Proc P α β Unit :=
  Gs.forM fun G => (G r).proc

def syncAll (Gs : List (Round P α β)) (l : Fin P → Local α β) : Fin P → Local α β :=
  Gs.foldl (fun l G => G.sync l) l

theorem roundsProc_cons (G : Round P α β) (Gs : List (Round P α β)) (r : Fin P) :
    roundsProc (G :: Gs) r = (G r).proc >>= fun _ => roundsProc Gs r := rfl

theorem roundsProc_append (Gs Hs : List (Round P α β)) (r : Fin P) :
    roundsProc (Gs ++ Hs) r = roundsProc Gs r >>= fun _ => roundsProc Hs r := by
  induction Gs with
  | nil => rfl
  | cons G Gs ih =>
    rw [List.cons_append, roundsProc_cons, roundsProc_cons, bind_assoc, ih]

theorem forM_eq_roundsProc {S : Type} {F : S → Round P α β} {f : S → Proc P α β Unit} {r : Fin P}
    {ss : List S} (h : ∀ s ∈ ss, f s = (F s r).proc) :
    ss.forM f = roundsProc (ss.map F) r := by
  induction ss with
  | nil => rfl
  | cons s ss ih =>
    rw [List.map_cons, roundsProc_cons, ← ih fun t ht => h t (by simp [ht]), ← h s (by simp)]
    rfl

theorem syncAll_append (Gs Hs : List (Round P α β)) (l : Fin P → Local α β) :
    syncAll (Gs ++ Hs) l = syncAll Hs (syncAll Gs l) := List.foldl_append

theorem syncAll_range_succ (F : ℕ → Round P α β) (n : ℕ) (l : Fin P → Local α β) :
    syncAll ((List.range (n + 1)).map F) l = (F n).sync (syncAll ((List.range n).map F) l) := by
  rw [List.range_succ, List.map_append, syncAll_append]
  rfl

theorem syncAll_frame {X : Type} (f : Local α β → X) {Gs : List (Round P α β)} {r : Fin P}
    (h : ∀ G ∈ Gs, ∀ l, f (G.sync l r) = f (l r)) (l : Fin P → Local α β) :
    f (syncAll Gs l r) = f (l r) := by
  induction Gs generalizing l with
  | nil => rfl
  | cons G Gs ih =>
    exact (ih (fun G' hG' => h G' (by simp [hG'])) (G.sync l)).trans (h G (by simp) l)

theorem rounds_leads {Gs : List (Round P α β)} (hGs : ∀ G ∈ Gs, G.Matched)
    (k : Fin P → Proc P α β A) (l : Fin P → Local α β) :
    Leads cap (fun r => roundsProc Gs r >>= fun _ => k r) l k (syncAll Gs l) := by
  induction Gs generalizing l with
  | nil => exact Leads.refl k l
  | cons G Gs ih =>
    have hfirst : Leads cap (fun r => roundsProc (G :: Gs) r >>= fun _ => k r) l
        (fun r => roundsProc Gs r >>= fun _ => k r) (G.sync l) := by
      simp only [roundsProc_cons, bind_assoc]
      exact (hGs G (by simp)).leads _ l
    exact hfirst.trans (ih (fun G' hG' => hGs G' (by simp [hG'])) (G.sync l))

theorem rounds_disciplined {Gs : List (Round P α β)} (hGs : ∀ G ∈ Gs, ∀ r, (G r).Apart)
    (r : Fin P) : Disciplined none none (roundsProc Gs r) := by
  induction Gs with
  | nil => exact ⟨rfl, rfl⟩
  | cons G Gs ih =>
    exact Disciplined.bind (Xfer.disciplined (hGs G (by simp) r)) fun _ =>
      ih fun G' hG' => hGs G' (by simp [hG'])

end MicroCcl

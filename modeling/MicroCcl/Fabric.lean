import MicroCcl.Network
import MicroCcl.Process

namespace MicroCcl
open Network

/-- The elements a work request covers. -/
def readRange {α : Type} (m : Mem α) (wr : Wr) : List α :=
  (List.range (wr.length / 4)).map fun i => m wr.buf (wr.off / 4 + i)

def writeRange {α : Type} (m : Mem α) (wr : Wr) (xs : List α) : Mem α := fun b i =>
  if b = wr.buf ∧ wr.off / 4 ≤ i ∧ i < wr.off / 4 + wr.length / 4 then
    xs.getD (i - wr.off / 4) (m b i)
  else m b i

inductive Act (P : ℕ) where
  | op
  | complete (peer : Fin P)
  deriving DecidableEq

inductive Chan where
  | rdma
  | tcp
  deriving DecidableEq

inductive Msg (α : Type) where
  | data (wr : Wr) (payload : List α)
  | byte (b : UInt8) (tag : Tag)

/-- `acks` are delivered sends whose completion is not yet in the send queue.
The last three fields only record what happened: the sends the NIC has taken,
the deliveries with the requests of both sides, and the tags of received bytes. -/
structure RankState (P : ℕ) (α β A : Type) where
  proc : Proc P α β A
  loc : Local α β
  sendQ : Fin P → List Wr
  recvQ : Fin P → List Wr
  acks : Fin P → List WcStatus
  sendCq : List Wc
  recvCq : List Wc
  inbox : Fin P → List (UInt8 × Tag)
  sent : List (Fin P × Wr)
  log : List (Fin P × Wr × Wr)
  byteLog : List (Fin P × Tag × Tag)

section Semantics

variable {P : ℕ} {α β A : Type}

/-- The next call of the rank's own code, where it does not block. -/
def opStep (st : RankState P α β A) : Option (RankState P α β A) :=
  match st.proc with
  -- a byte leaves in the step in which the peer's buffer takes it, see `outStep`
  | .pure _ | .throw _ | .sendByte _ _ _ _ => none
  | .postRecv p wr k =>
    some { st with proc := k, recvQ := Function.update st.recvQ p (st.recvQ p ++ [wr]) }
  | .postSend p wr k =>
    some { st with proc := k, sendQ := Function.update st.sendQ p (st.sendQ p ++ [wr]) }
  | .pollSend k =>
    match st.sendCq with
    | [] => none
    | wc :: rest => some { st with proc := k wc, sendCq := rest }
  | .pollRecv k =>
    match st.recvCq with
    | [] => none
    | wc :: rest => some { st with proc := k wc, recvCq := rest }
  | .upd f k => some { st with proc := k, loc := f st.loc }
  | .recvByte p t k =>
    match st.inbox p with
    | [] => none
    | (b, t') :: rest =>
      some { st with
        proc := k b
        inbox := Function.update st.inbox p rest
        byteLog := st.byteLog ++ [(p, t', t)] }

/-- The NIC puts the completion of a delivered send into the send queue. -/
def completeStep (st : RankState P α β A) (p : Fin P) : Option (RankState P α β A) :=
  match st.acks p with
  | [] => none
  | a :: rest =>
    some { st with acks := Function.update st.acks p rest, sendCq := st.sendCq ++ [⟨a, 0⟩] }

def actStep (st : RankState P α β A) : Act P → Option (RankState P α β A)
  | .op => opStep st
  | .complete p => completeStep st p

def outStep (st : RankState P α β A) (p : Fin P) :
    Chan → Option (Msg α × (WcStatus → RankState P α β A))
  | .rdma =>
    match st.sendQ p with
    | [] => none
    | wr :: rest =>
      some (.data wr (readRange st.loc.mem wr), fun a =>
        { st with
          sendQ := Function.update st.sendQ p rest
          acks := Function.update st.acks p (st.acks p ++ [a])
          sent := st.sent ++ [(p, wr)] })
  | .tcp =>
    match st.proc with
    -- `::send` blocks while the peer has no room, so the byte is offered like a message
    | .sendByte q b t k => if q = p then some (.byte b t, fun _ => { st with proc := k }) else none
    | _ => none

/-- A message longer than the receive it meets is refused: the receiver sees a
length error, the sender a remote error. A socket takes a byte while its buffer
has room. -/
def inpStep (cap : ℕ) (st : RankState P α β A) (p : Fin P) :
    Chan → Msg α → Option (WcStatus × RankState P α β A)
  | .rdma, .data wr xs =>
    match st.recvQ p with
    | [] => none
    | rwr :: rest =>
      if wr.length ≤ rwr.length then
        some (.success, { st with
          recvQ := Function.update st.recvQ p rest
          loc := { st.loc with mem := writeRange st.loc.mem rwr xs }
          recvCq := st.recvCq ++ [⟨.success, wr.length⟩]
          log := st.log ++ [(p, wr, rwr)] })
      else
        -- the receive is used up, its buffer is left as it was
        some (.remInvReqErr, { st with
          recvQ := Function.update st.recvQ p rest
          recvCq := st.recvCq ++ [⟨.locLenErr, 0⟩]
          log := st.log ++ [(p, wr, rwr)] })
  | .tcp, .byte b t =>
    if (st.inbox p).length < cap then
      some (.success, { st with inbox := Function.update st.inbox p (st.inbox p ++ [(b, t)]) })
    else none
  | _, _ => none

/-- The network of `P` ranks; `cap r q` is the capacity of the buffer in which
rank `r` receives from rank `q`. No message is buffered: it moves when its receive
is posted, and the NIC reads the send buffer then. Connections do not break. The
states of the queue pairs are never read and there is no limit on retries, so a
message waits for its receive as long as it takes. -/
def fabric (P : ℕ) (α β A : Type) (cap : Fin P → Fin P → ℕ) :
    Net (Fin P) (RankState P α β A) (Msg α) WcStatus (Act P) Chan where
  act _ l st := actStep st l
  out _ p c st := outStep st p c
  inp r p c m st := inpStep (cap r p) st p c m

inductive OpMove (st : RankState P α β A) : RankState P α β A → Prop
  | postRecv (p : Fin P) (wr : Wr) (k : Proc P α β A) (hp : st.proc = .postRecv p wr k) :
      OpMove st { st with proc := k, recvQ := Function.update st.recvQ p (st.recvQ p ++ [wr]) }
  | postSend (p : Fin P) (wr : Wr) (k : Proc P α β A) (hp : st.proc = .postSend p wr k) :
      OpMove st { st with proc := k, sendQ := Function.update st.sendQ p (st.sendQ p ++ [wr]) }
  | pollSend (k : Wc → Proc P α β A) (wc : Wc) (rest : List Wc) (hp : st.proc = .pollSend k)
      (hc : st.sendCq = wc :: rest) : OpMove st { st with proc := k wc, sendCq := rest }
  | pollRecv (k : Wc → Proc P α β A) (wc : Wc) (rest : List Wc) (hp : st.proc = .pollRecv k)
      (hc : st.recvCq = wc :: rest) : OpMove st { st with proc := k wc, recvCq := rest }
  | upd (f : Local α β → Local α β) (k : Proc P α β A) (hp : st.proc = .upd f k) :
      OpMove st { st with proc := k, loc := f st.loc }
  | recvByte (p : Fin P) (t t' : Tag) (k : UInt8 → Proc P α β A) (b : UInt8)
      (rest : List (UInt8 × Tag)) (hp : st.proc = .recvByte p t k)
      (hc : st.inbox p = (b, t') :: rest) :
      OpMove st { st with
        proc := k b
        inbox := Function.update st.inbox p rest
        byteLog := st.byteLog ++ [(p, t', t)] }

theorem opStep_cases {st t : RankState P α β A} (h : opStep st = some t) : OpMove st t := by
  cases hp : st.proc <;> simp only [opStep, hp, reduceCtorEq] at h
  case postRecv p wr k =>
    obtain rfl := Option.some.inj h
    exact .postRecv p wr k hp
  case postSend p wr k =>
    obtain rfl := Option.some.inj h
    exact .postSend p wr k hp
  case pollSend k =>
    cases hc : st.sendCq with
    | nil => simp [hc] at h
    | cons wc rest =>
      rw [hc] at h
      obtain rfl := Option.some.inj h
      exact .pollSend k wc rest hp hc
  case pollRecv k =>
    cases hc : st.recvCq with
    | nil => simp [hc] at h
    | cons wc rest =>
      rw [hc] at h
      obtain rfl := Option.some.inj h
      exact .pollRecv k wc rest hp hc
  case upd f k =>
    obtain rfl := Option.some.inj h
    exact .upd f k hp
  case recvByte p t k =>
    cases hc : st.inbox p with
    | nil => simp [hc] at h
    | cons x rest =>
      rw [hc] at h
      obtain rfl := Option.some.inj h
      exact .recvByte p t x.2 k x.1 rest hp hc

theorem completeStep_cases {st t : RankState P α β A} {p : Fin P}
    (h : completeStep st p = some t) : ∃ a rest, st.acks p = a :: rest ∧
      t = { st with acks := Function.update st.acks p rest, sendCq := st.sendCq ++ [⟨a, 0⟩] } := by
  cases hk : st.acks p with
  | nil => simp [completeStep, hk] at h
  | cons a rest => exact ⟨a, rest, rfl, by simpa [completeStep, hk, eq_comm] using h⟩

theorem outStep_rdma_cases {st : RankState P α β A} {p : Fin P} {m : Msg α}
    {g : WcStatus → RankState P α β A} (h : outStep st p .rdma = some (m, g)) :
    ∃ wr rest, st.sendQ p = wr :: rest ∧ m = .data wr (readRange st.loc.mem wr) ∧
      g = fun a => { st with
        sendQ := Function.update st.sendQ p rest
        acks := Function.update st.acks p (st.acks p ++ [a])
        sent := st.sent ++ [(p, wr)] } := by
  cases hq : st.sendQ p with
  | nil => simp [outStep, hq] at h
  | cons wr rest =>
    simp only [outStep, hq, Option.some.injEq, Prod.mk.injEq] at h
    exact ⟨wr, rest, rfl, h.1.symm, h.2.symm⟩

theorem outStep_tcp_cases {st : RankState P α β A} {p : Fin P} {m : Msg α}
    {g : WcStatus → RankState P α β A} (h : outStep st p .tcp = some (m, g)) :
    ∃ b tg k, st.proc = .sendByte p b tg k ∧ m = .byte b tg ∧
      g = fun _ => { st with proc := k } := by
  cases hp : st.proc with
  | sendByte q b tg k =>
    by_cases hqp : q = p
    · subst q
      simp only [outStep, hp, if_true, Option.some.injEq, Prod.mk.injEq] at h
      exact ⟨b, tg, k, rfl, h.1.symm, h.2.symm⟩
    · simp [outStep, hp, hqp] at h
  | _ => simp [outStep, hp] at h

theorem inpStep_rdma_cases {n : ℕ} {st t : RankState P α β A} {p : Fin P} {m : Msg α}
    {a : WcStatus} (h : inpStep n st p .rdma m = some (a, t)) :
    ∃ wr xs rwr rest, m = .data wr xs ∧ st.recvQ p = rwr :: rest ∧
      (wr.length ≤ rwr.length ∧ a = .success ∧ t = { st with
          recvQ := Function.update st.recvQ p rest
          loc := { st.loc with mem := writeRange st.loc.mem rwr xs }
          recvCq := st.recvCq ++ [⟨.success, wr.length⟩]
          log := st.log ++ [(p, wr, rwr)] } ∨
        ¬ wr.length ≤ rwr.length ∧ a = .remInvReqErr ∧ t = { st with
          recvQ := Function.update st.recvQ p rest
          recvCq := st.recvCq ++ [⟨.locLenErr, 0⟩]
          log := st.log ++ [(p, wr, rwr)] }) := by
  cases m with
  | byte b tg => simp [inpStep] at h
  | data wr xs =>
    cases hq : st.recvQ p with
    | nil => simp [inpStep, hq] at h
    | cons rwr rest =>
      refine ⟨wr, xs, rwr, rest, rfl, rfl, ?_⟩
      simp only [inpStep, hq] at h
      split_ifs at h with hlen <;> simp only [Option.some.injEq, Prod.mk.injEq] at h
      · exact Or.inl ⟨hlen, h.1.symm, h.2.symm⟩
      · exact Or.inr ⟨hlen, h.1.symm, h.2.symm⟩

theorem inpStep_tcp_cases {n : ℕ} {st t : RankState P α β A} {p : Fin P} {m : Msg α}
    {a : WcStatus} (h : inpStep n st p .tcp m = some (a, t)) :
    ∃ b tg, m = .byte b tg ∧ (st.inbox p).length < n ∧ a = .success ∧
      t = { st with inbox := Function.update st.inbox p (st.inbox p ++ [(b, tg)]) } := by
  cases m with
  | data wr xs => simp [inpStep] at h
  | byte b tg =>
    simp only [inpStep] at h
    split_ifs at h with hlen
    simp only [Option.some.injEq, Prod.mk.injEq] at h
    exact ⟨b, tg, rfl, hlen, h.1.symm, h.2.symm⟩

end Semantics

end MicroCcl

import Mathlib.Data.Fin.Basic
import Mathlib.Tactic.Ring

namespace MicroCcl

/-- `size_t` products wrap modulo 2^64. -/
def szMul (a b : ℕ) : ℕ := a * b % 2 ^ 64

def szAdd (a b : ℕ) : ℕ := (a + b) % 2 ^ 64

/-- The buffer that a pointer argument points to the start of. -/
abbrev Buf := ℕ

/-- Element `i` of every buffer. `Float32` and `Int32` are both 4 bytes wide; offsets and lengths
are in bytes, as in the source. -/
abbrev Mem (α : Type) := Buf → ℕ → α

structure Local (α β : Type) where
  mem : Mem α
  vars : β

structure MemoryRegion where
  addr : Buf
  length : ℕ
  deriving DecidableEq, Repr

/-- The call and the step that a work request belongs to. Nothing on the wire carries it and no
process reads it. -/
structure Tag where
  call : ℕ
  step : ℕ
  deriving DecidableEq, Repr

structure Wr where
  mr : MemoryRegion
  buf : Buf
  off : ℕ
  length : ℕ
  wrId : ℕ
  tag : Tag
  deriving DecidableEq, Repr

inductive WcStatus where
  | success
  | locLenErr
  | remInvReqErr
  deriving DecidableEq, Repr

def WcStatus.str : WcStatus → String
  | .success => "success"
  | .locLenErr => "local length error"
  | .remInvReqErr => "remote invalid request error"

structure Wc where
  status : WcStatus
  byteLen : ℕ
  deriving DecidableEq, Repr

inductive Exn where
  | runtimeError (what : String)
  | invalidArgument (what : String)
  | outOfRange (what : String)
  | lengthError (what : String)
  deriving DecidableEq, Repr

/-- The code of one rank: the verbs and socket calls it makes, with the continuation for every
answer. -/
inductive Proc (P : ℕ) (α β A : Type) where
  | pure (a : A)
  | throw (e : Exn)
  | postRecv (peer : Fin P) (wr : Wr) (k : Proc P α β A)
  | postSend (peer : Fin P) (wr : Wr) (k : Proc P α β A)
  | pollSend (k : Wc → Proc P α β A)
  | pollRecv (k : Wc → Proc P α β A)
  | upd (f : Local α β → Local α β) (k : Proc P α β A)
  | sendByte (peer : Fin P) (b : UInt8) (tag : Tag) (k : Proc P α β A)
  | recvByte (peer : Fin P) (tag : Tag) (k : UInt8 → Proc P α β A)

namespace Proc

variable {P : ℕ} {α β A B C : Type}

protected def bind : Proc P α β A → (A → Proc P α β B) → Proc P α β B
  | .pure a, f => f a
  | .throw e, _ => .throw e
  | .postRecv p wr k, f => .postRecv p wr (k.bind f)
  | .postSend p wr k, f => .postSend p wr (k.bind f)
  | .pollSend k, f => .pollSend fun wc => (k wc).bind f
  | .pollRecv k, f => .pollRecv fun wc => (k wc).bind f
  | .upd g k, f => .upd g (k.bind f)
  | .sendByte p b t k, f => .sendByte p b t (k.bind f)
  | .recvByte p t k, f => .recvByte p t fun b => (k b).bind f

instance : Monad (Proc P α β) where
  pure := .pure
  bind := .bind

@[simp] theorem pure_eq (a : A) : (Pure.pure a : Proc P α β A) = .pure a := rfl

@[simp] theorem pure_bind' (a : A) (f : A → Proc P α β B) : (Proc.pure a >>= f) = f a := rfl

@[simp] theorem throw_bind (e : Exn) (f : A → Proc P α β B) :
    (Proc.throw e >>= f) = .throw e := rfl

@[simp] theorem postRecv_bind (p : Fin P) (wr : Wr) (k : Proc P α β A) (f : A → Proc P α β B) :
    (Proc.postRecv p wr k >>= f) = .postRecv p wr (k >>= f) := rfl

@[simp] theorem postSend_bind (p : Fin P) (wr : Wr) (k : Proc P α β A) (f : A → Proc P α β B) :
    (Proc.postSend p wr k >>= f) = .postSend p wr (k >>= f) := rfl

@[simp] theorem pollSend_bind (k : Wc → Proc P α β A) (f : A → Proc P α β B) :
    (Proc.pollSend k >>= f) = .pollSend fun wc => k wc >>= f := rfl

@[simp] theorem pollRecv_bind (k : Wc → Proc P α β A) (f : A → Proc P α β B) :
    (Proc.pollRecv k >>= f) = .pollRecv fun wc => k wc >>= f := rfl

@[simp] theorem upd_bind (g : Local α β → Local α β) (k : Proc P α β A) (f : A → Proc P α β B) :
    (Proc.upd g k >>= f) = .upd g (k >>= f) := rfl

@[simp] theorem sendByte_bind (p : Fin P) (b : UInt8) (t : Tag) (k : Proc P α β A)
    (f : A → Proc P α β B) : (Proc.sendByte p b t k >>= f) = .sendByte p b t (k >>= f) := rfl

@[simp] theorem recvByte_bind (p : Fin P) (t : Tag) (k : UInt8 → Proc P α β A)
    (f : A → Proc P α β B) : (Proc.recvByte p t k >>= f) = .recvByte p t fun b => k b >>= f := rfl

theorem bind_pure' (p : Proc P α β A) : (p >>= Proc.pure) = p := by
  induction p with
  | pure a => rfl
  | throw e => rfl
  | postRecv q wr k ih => simp [ih]
  | postSend q wr k ih => simp [ih]
  | pollSend k ih => simp [ih]
  | pollRecv k ih => simp [ih]
  | upd g k ih => simp [ih]
  | sendByte q b t k ih => simp [ih]
  | recvByte q t k ih => simp [ih]

theorem bind_unit (p : Proc P α β Unit) : (p >>= fun _ => Proc.pure ()) = p := bind_pure' p

theorem bind_assoc' (p : Proc P α β A) (f : A → Proc P α β B) (g : B → Proc P α β C) :
    (p >>= f) >>= g = p >>= fun a => f a >>= g := by
  induction p with
  | pure a => rfl
  | throw e => rfl
  | postRecv q wr k ih => simp [ih]
  | postSend q wr k ih => simp [ih]
  | pollSend k ih => simp [ih]
  | pollRecv k ih => simp [ih]
  | upd g k ih => simp [ih]
  | sendByte q b t k ih => simp [ih]
  | recvByte q t k ih => simp [ih]

instance : LawfulMonad (Proc P α β) :=
  LawfulMonad.mk' _ (fun p => bind_pure' p) (fun _ _ => rfl) bind_assoc'

theorem forM_cons {S : Type} (s : S) (ss : List S) (f : S → Proc P α β Unit) :
    (s :: ss).forM f = f s >>= fun _ => ss.forM f := rfl

end Proc

def Proc.ofExcept {P : ℕ} {α β A : Type} : Except Exn A → Proc P α β A
  | .ok a => .pure a
  | .error e => .throw e

section Transport

variable {P : ℕ} {α β : Type}

def qp (self : Fin P) (peer : ℤ) : Proc P α β (Fin P) :=
  if h : 0 ≤ peer ∧ peer < P ∧ peer ≠ self.val then .pure ⟨peer.toNat, by omega⟩
  else .throw (.outOfRange "unordered_map::at")

theorem qp_eq {self q : Fin P} (h : self ≠ q) : qp (α := α) (β := β) self q.val = .pure q := by
  have hq : (0 : ℤ) ≤ q.val ∧ (q.val : ℤ) < P ∧ (q.val : ℤ) ≠ self.val := by
    refine ⟨by omega, by omega, ?_⟩
    intro he
    exact h (Fin.ext (by omega))
  rw [qp, dif_pos hq]
  rfl

/-- `sge.length` is a `uint32_t`. -/
def postSend (qp : Fin P) (mr : MemoryRegion) (data : Buf) (off len wrId : ℕ) (tag : Tag) :
    Proc P α β Unit :=
  .postSend qp ⟨mr, data, off, len % 2 ^ 32, wrId, tag⟩ (.pure ())

def postRecv (qp : Fin P) (mr : MemoryRegion) (data : Buf) (off len wrId : ℕ) (tag : Tag) :
    Proc P α β Unit :=
  .postRecv qp ⟨mr, data, off, len % 2 ^ 32, wrId, tag⟩ (.pure ())

inductive Cq where
  | send
  | recv

def checkWc (wc : Wc) : Proc P α β Wc :=
  if wc.status ≠ .success then .throw (.runtimeError ("completion error: " ++ wc.status.str))
  else .pure wc

/-- Busy-polling has no effect until an entry is there, so it is one blocking step. -/
def waitCompletion : Cq → Proc P α β Wc
  | .send => .pollSend checkWc
  | .recv => .pollRecv checkWc

def send (qp : Fin P) (mr : MemoryRegion) (data : Buf) (off len : ℕ) (tag : Tag) :
    Proc P α β Unit := do
  postSend qp mr data off len 0 tag
  let _ ← waitCompletion .send

def recv (qp : Fin P) (mr : MemoryRegion) (data : Buf) (off capacity : ℕ) (tag : Tag) :
    Proc P α β ℕ := do
  postRecv qp mr data off capacity 0 tag
  let wc ← waitCompletion .recv
  return wc.byteLen

/-- `send_exact`: a call of `::send` that moves `n` bytes is `n` byte steps in a row. -/
def sendExact (fd : Fin P) (buf : List UInt8) (tag : Tag) : Proc P α β Unit :=
  match buf with
  | [] => .pure ()
  | b :: bs => .sendByte fd b tag (sendExact fd bs tag)

def recvExact (fd : Fin P) (tag : Tag) : ℕ → Proc P α β (List UInt8)
  | 0 => .pure []
  | n + 1 => .recvByte fd tag fun b => recvExact fd tag n >>= fun bs => .pure (b :: bs)

end Transport

end MicroCcl

import MicroCcl.Sockets
import MicroCcl.Bootstrap

namespace MicroCcl
namespace Socket
open Sockets

/-- `send_exact`; `buf` is what is left to send. -/
def sendLoop (wire buf : List UInt8) (script : List Outcome) : Except (Stop Exn) (Unit × Writer) :=
  if buf = [] then .ok ((), ⟨script, wire⟩)
  else
    match script with
    | [] => .error .waiting
    | o :: script =>
      match sendCall buf o with
      | .bytes bs => sendLoop (wire ++ bs) (buf.drop bs.length) script
      -- nothing moved: the loop turns once more
      | .eof | .interrupted => sendLoop wire buf script
      | .failed why => .error (.thrown (.runtimeError ("bootstrap send failed: " ++ why)))
      | .blocked => .error .waiting

def sendExact (buf : List UInt8) : WriteM Exn Unit := fun s => sendLoop s.wire buf s.script

def peerClosed : Exn := .runtimeError "bootstrap peer closed connection mid-message"

/-- `recv_exact`; `got` is what has been read of the `len` bytes. -/
def recvLoop (len : ℕ) (closed : Bool) (got stream : List UInt8) (script : List Outcome) :
    Except (Stop Exn) (List UInt8 × Reader) :=
  if got.length < len then
    match script with
    | [] => .error .waiting
    | o :: script =>
      match recvCall (len - got.length) stream closed o with
      | .bytes bs => recvLoop len closed (got ++ bs) (stream.drop bs.length) script
      | .eof => .error (.thrown peerClosed)
      | .interrupted => recvLoop len closed got stream script
      | .failed why => .error (.thrown (.runtimeError ("bootstrap recv failed: " ++ why)))
      | .blocked => .error .waiting
  else .ok (got, ⟨script, stream, closed⟩)

def recvExact (len : ℕ) : ReadM Exn (List UInt8) := fun s =>
  recvLoop len s.closed [] s.stream s.script

def sendU32 (v : UInt32) : WriteM Exn Unit := sendExact (putU32 v)

def recvU32 : ReadM Exn UInt32 := do
  let be ← recvExact 4
  return (getU32 be).1

def sendEntry (e : Entry) : WriteM Exn Unit := sendExact (encodeEntry e)

def recvEntry : ReadM Exn Entry := do
  let buf ← recvExact entryWireSize
  return decodeEntry buf

def recvEntries : (n : ℕ) → ReadM Exn {es : List Entry // es.length = n}
  | 0 => return ⟨[], rfl⟩
  | n + 1 => do
    let e ← recvEntry
    let es ← recvEntries n
    return ⟨e :: es.val, congrArg (· + 1) es.property⟩

inductive Message where
  | u32 (v : UInt32)
  | table (count : UInt32) (entries : List Entry) (h : entries.length = count.toNat)

/-- What the receiver knows of a message beforehand. -/
inductive Kind where
  | u32
  | table
  deriving DecidableEq, Repr

def Message.kind : Message → Kind
  | .u32 _ => .u32
  | .table _ _ _ => .table

def Message.encode : Message → List UInt8
  | .u32 v => putU32 v
  | .table count entries _ => putU32 count ++ entries.flatMap encodeEntry

def sendMessage : Message → WriteM Exn Unit
  | .u32 v => sendU32 v
  | .table count entries _ => do
    sendU32 count
    entries.forM sendEntry

def recvMessage : Kind → ReadM Exn Message
  | .u32 => do
    let v ← recvU32
    return .u32 v
  | .table => do
    let count ← recvU32
    let es ← recvEntries count.toNat
    return .table count es.val es.property

def recvMessages : List Kind → ReadM Exn (List Message)
  | [] => return []
  | k :: ks => do
    let m ← recvMessage k
    let ms ← recvMessages ks
    return m :: ms

theorem sendExact_puts (buf : List UInt8) : Puts (sendExact buf) buf := by
  intro script wire hs
  change (∃ script', _ ∧ _ ∧ sendLoop wire buf script = _) ∨ _ ∧ sendLoop wire buf script = _
  induction script generalizing wire buf with
  | nil =>
    by_cases hbuf : buf = []
    · subst hbuf
      exact Or.inl ⟨[], List.suffix_rfl, le_rfl, by simp [sendLoop]⟩
    · refine Or.inr ⟨List.length_pos_iff.mpr hbuf, ?_⟩
      rw [sendLoop, if_neg hbuf]
  | cons o script ih =>
    by_cases hbuf : buf = []
    · subst hbuf
      exact Or.inl ⟨o :: script, List.suffix_rfl, le_rfl, by simp [sendLoop]⟩
    rw [sendLoop, if_neg hbuf]
    cases o with
    | moved n =>
      obtain ⟨bs, rest, hbs, rfl, hcall⟩ := sendCall_moved hbuf n
      have hpos : 0 < bs.length := List.length_pos_iff.mpr hbs
      simp only [hcall, List.drop_left, moves_moved, List.length_append]
      rcases ih rest (wire ++ bs) hs.tail with ⟨script', hsuf, hm, hok⟩ | ⟨hm, hwait⟩
      · refine Or.inl ⟨script', hsuf.trans (List.suffix_cons _ _), by omega, ?_⟩
        rw [hok, List.append_assoc]
      · exact Or.inr ⟨by omega, hwait⟩
    | interrupted =>
      simp only [sendCall, moves_interrupted]
      refine (ih buf wire hs.tail).imp ?_ id
      rintro ⟨script', hsuf, hm⟩
      exact ⟨script', hsuf.trans (List.suffix_cons _ _), hm⟩
    | failed why => exact absurd List.mem_cons_self (hs why)

theorem recvLoop_done {len : ℕ} {got : List UInt8} (hlen : got.length = len) (closed : Bool)
    (stream : List UInt8) (script : List Outcome) :
    recvLoop len closed got stream script = .ok (got, ⟨script, stream, closed⟩) := by
  rw [recvLoop.eq_def, if_neg (by omega)]

theorem recvLoop_whole {len : ℕ} (closed : Bool) (tail got bs : List UInt8)
    (hlen : got.length + bs.length = len) {script : List Outcome} (hs : Smooth script) :
    (∃ script', script' <:+ script ∧ moves script ≤ moves script' + bs.length ∧
      recvLoop len closed got (bs ++ tail) script = .ok (got ++ bs, ⟨script', tail, closed⟩)) ∨
    moves script < bs.length ∧ recvLoop len closed got (bs ++ tail) script = .error .waiting := by
  induction script generalizing got bs with
  | nil =>
    by_cases hbs : bs = []
    · subst hbs
      exact Or.inl ⟨[], List.suffix_rfl, le_rfl, by simpa using recvLoop_done hlen closed tail []⟩
    · have hpos : 0 < bs.length := List.length_pos_iff.mpr hbs
      refine Or.inr ⟨hpos, ?_⟩
      rw [recvLoop, if_pos (by omega)]
  | cons o script ih =>
    by_cases hbs : bs = []
    · subst hbs
      refine Or.inl ⟨o :: script, List.suffix_rfl, le_rfl, ?_⟩
      simpa using recvLoop_done hlen closed tail (o :: script)
    have hpos : 0 < bs.length := List.length_pos_iff.mpr hbs
    rw [recvLoop, if_pos (by omega)]
    cases o with
    | moved n =>
      have hstream : bs ++ tail ≠ [] := by simp [hbs]
      obtain ⟨xs, rest, hxs, hsplit, hle, hcall⟩ := recvCall_moved (len - got.length) (by omega)
        hstream closed n
      have hpos' : 0 < xs.length := List.length_pos_iff.mpr hxs
      -- the call asks for nothing behind `bs`
      obtain ⟨bs', rfl⟩ : xs <+: bs := List.prefix_of_prefix_length_le
        (hsplit ▸ List.prefix_append xs rest) (List.prefix_append bs tail) (by omega)
      rw [List.length_append] at hlen hpos
      rw [List.append_assoc] at hcall ⊢
      simp only [hcall, List.drop_left, moves_moved, List.length_append]
      rcases ih (got ++ xs) bs' (by rw [List.length_append]; omega) hs.tail with
        ⟨script', hsuf, hm, hok⟩ | ⟨hm, hwait⟩
      · refine Or.inl ⟨script', hsuf.trans (List.suffix_cons _ _), by omega, ?_⟩
        rw [hok, List.append_assoc]
      · exact Or.inr ⟨by omega, hwait⟩
    | interrupted =>
      simp only [recvCall, moves_interrupted]
      refine (ih got bs hlen hs.tail).imp ?_ id
      rintro ⟨script', hsuf, hm⟩
      exact ⟨script', hsuf.trans (List.suffix_cons _ _), hm⟩
    | failed why => exact absurd List.mem_cons_self (hs why)

theorem recvLoop_cut {len : ℕ} (got stream : List UInt8) (hlen : got.length + stream.length < len)
    {script : List Outcome} (hs : Smooth script) :
    recvLoop len true got stream script = .error (.thrown peerClosed) ∨
    moves script ≤ stream.length ∧ recvLoop len true got stream script = .error .waiting := by
  induction script generalizing got stream with
  | nil =>
    refine Or.inr ⟨Nat.zero_le _, ?_⟩
    rw [recvLoop, if_pos (by omega)]
  | cons o script ih =>
    rw [recvLoop, if_pos (by omega)]
    cases o with
    | moved n =>
      by_cases hstream : stream = []
      · subst hstream
        exact Or.inl rfl
      · obtain ⟨xs, rest, hxs, rfl, -, hcall⟩ := recvCall_moved (len - got.length)
          (by omega) hstream true n
        have hpos : 0 < xs.length := List.length_pos_iff.mpr hxs
        rw [List.length_append] at hlen
        simp only [hcall, List.drop_left, moves_moved, List.length_append]
        refine (ih (got ++ xs) rest (by rw [List.length_append]; omega) hs.tail).imp id fun h => ?_
        exact ⟨by omega, h.2⟩
    | interrupted =>
      simp only [recvCall, moves_interrupted]
      exact ih got stream hlen hs.tail
    | failed why => exact absurd List.mem_cons_self (hs why)

theorem recvExact_takes {len : ℕ} {bs : List UInt8} (hlen : bs.length = len) :
    Takes peerClosed (recvExact len) bs bs where
  whole script tail closed hs := by
    exact recvLoop_whole closed tail [] bs (by simpa using hlen) hs
  cut script pre hs hpre hne := by
    apply recvLoop_cut [] pre _ hs
    have hlt : pre.length ≠ bs.length := fun h => hne (hpre.eq_of_length h)
    have hle := hpre.length_le
    simp only [List.length_nil]
    omega

theorem recvU32_takes (v : UInt32) : Takes peerClosed recvU32 (putU32 v) v := by
  have hlen : (putU32 v).length = 4 := rfl
  have h := (recvExact_takes hlen).map fun be => (getU32 be).1
  have hget : (getU32 (putU32 v)).1 = v := by
    simpa using congrArg Prod.fst (getU32_putU32 v [])
  rwa [hget] at h

theorem recvEntry_takes (e : Entry) : Takes peerClosed recvEntry (encodeEntry e) e := by
  have h := (recvExact_takes (encodeEntry_length e)).map decodeEntry
  rwa [decodeEntry_encode] at h

theorem recvEntries_takes (es : List Entry) {n : ℕ} (hn : es.length = n) :
    Takes peerClosed (recvEntries n) (es.flatMap encodeEntry) ⟨es, hn⟩ := by
  induction es generalizing n with
  | nil =>
    subst hn
    exact Takes.pure _
  | cons e es ih =>
    subst hn
    exact (recvEntry_takes e).bind ((ih rfl).map fun es' : {es' : List Entry // _} =>
      (⟨e :: es'.val, congrArg (· + 1) es'.property⟩ : {l : List Entry // l.length = _}))

theorem recvMessage_takes (m : Message) : Takes peerClosed (recvMessage m.kind) m.encode m := by
  cases m with
  | u32 v => exact (recvU32_takes v).map Message.u32
  | table count entries h =>
    exact (recvU32_takes count).bind ((recvEntries_takes entries h).map fun es =>
      Message.table count es.val es.property)

theorem recvMessages_takes (ms : List Message) :
    Takes peerClosed (recvMessages (ms.map Message.kind)) (ms.flatMap Message.encode) ms := by
  induction ms with
  | nil => exact Takes.pure _
  | cons m ms ih => exact (recvMessage_takes m).bind (ih.map fun ms' => m :: ms')

theorem sendMessage_puts (m : Message) : Puts (sendMessage m) m.encode := by
  cases m with
  | u32 v => exact sendExact_puts (putU32 v)
  | table count entries h =>
    exact (sendExact_puts (putU32 count)).bind
      (Puts.forM (fun e => sendExact_puts (encodeEntry e)) entries)

/-- Whatever the messages and however both ends' calls are cut short or interrupted: what the
sender puts on the wire is the encodings one after the other; the receiver gets the same messages
in the same order and stops where they end; and where the stream ends inside of a message it
throws. Each of them gets there as soon as it has been given a call for every byte. -/
theorem messages_exact (ms : List Message) (script : List Outcome) (hs : Smooth script) :
    (∀ wire, (∃ script', ms.forM sendMessage ⟨script, wire⟩ =
        .ok ((), ⟨script', wire ++ ms.flatMap Message.encode⟩)) ∨
      moves script < (ms.flatMap Message.encode).length ∧
        ms.forM sendMessage ⟨script, wire⟩ = .error .waiting) ∧
    (∀ tail closed, (∃ script', recvMessages (ms.map Message.kind)
        ⟨script, ms.flatMap Message.encode ++ tail, closed⟩ =
          .ok (ms, ⟨script', tail, closed⟩)) ∨
      moves script < (ms.flatMap Message.encode).length ∧
        recvMessages (ms.map Message.kind) ⟨script, ms.flatMap Message.encode ++ tail, closed⟩ =
          .error .waiting) ∧
    ∀ m pre, pre <+: m.encode → pre ≠ m.encode →
      recvMessages ((ms ++ [m]).map Message.kind)
        ⟨script, ms.flatMap Message.encode ++ pre, true⟩ = .error (.thrown peerClosed) ∨
      moves script ≤ (ms.flatMap Message.encode ++ pre).length ∧
        recvMessages ((ms ++ [m]).map Message.kind)
          ⟨script, ms.flatMap Message.encode ++ pre, true⟩ = .error .waiting := by
  refine ⟨fun wire => ?_, fun tail closed => ?_, fun m pre hpre hne => ?_⟩
  · refine (Puts.forM sendMessage_puts ms script wire hs).imp ?_ id
    rintro ⟨script', -, -, hok⟩
    exact ⟨script', hok⟩
  · refine ((recvMessages_takes ms).whole script tail closed hs).imp ?_ id
    rintro ⟨script', -, -, hok⟩
    exact ⟨script', hok⟩
  · have henc : (ms ++ [m]).flatMap Message.encode = ms.flatMap Message.encode ++ m.encode := by
      simp
    apply (recvMessages_takes (ms ++ [m])).cut script _ hs
    · rw [henc]
      exact (List.prefix_append_right_inj _).mpr hpre
    · rw [henc]
      exact fun h => hne (List.append_cancel_left h)

def tableAndNumber : List Message := [.table 1 [(3, { qpNum := 7 })] rfl, .u32 5]

/-- Calls that move two bytes, none and one byte each. -/
def interrupted : List Outcome := .moved 1 :: .interrupted :: List.replicate 64 (.moved 0)

theorem messages_exact_interrupted :
    ∃ script', recvMessages [.table, .u32]
      ⟨interrupted, tableAndNumber.flatMap Message.encode ++ [1], true⟩ =
        .ok (tableAndNumber, ⟨script', [1], true⟩) := by
  have hs : Smooth interrupted := by
    intro why h
    simp [interrupted] at h
  have hlen : (tableAndNumber.flatMap Message.encode).length = 65 := by decide
  have hmoves : moves interrupted = 65 := by decide
  exact ((messages_exact tableAndNumber _ hs).2.1 [1] true).resolve_right fun h =>
    absurd h.1 (by rw [hlen, hmoves]; exact lt_irrefl 65)

section Bytes

variable {P : ℕ} {α β A B : Type}

/-- The process takes bytes as long as it reads. -/
def feed : Proc P α β A → List UInt8 → Proc P α β A × List UInt8
  | .recvByte _ _ k, b :: bs => feed (k b) bs
  | p, bs => (p, bs)

/-- When `p` returns from a stream, `q` returns the same and leaves the same. -/
def Agrees (p : ReadM Exn A) (q : Proc P α β A) : Prop :=
  ∀ s a s', p s = .ok (a, s') → ∀ {B : Type} (k : A → Proc P α β B),
    feed (q >>= k) s.stream = feed (k a) s'.stream

theorem Agrees.pure (a : A) : Agrees (pure a) (.pure a : Proc P α β A) := by
  rintro s b s' h B k
  obtain ⟨rfl, rfl⟩ := Prod.mk.inj (Except.ok.inj h)
  rfl

theorem Agrees.bind {p : ReadM Exn A} {q : Proc P α β A} {f : A → ReadM Exn B}
    {g : A → Proc P α β B} (hp : Agrees p q) (hf : ∀ a, Agrees (f a) (g a)) :
    Agrees (p >>= f) (q >>= g) := by
  intro s b s'' h C k
  cases hps : p s with
  | error e => rw [bind_of_error hps] at h; cases h
  | ok r =>
    obtain ⟨a, s'⟩ := r
    rw [bind_of_ok hps] at h
    rw [bind_assoc, hp s a s' hps, hf a s' b s'' h]

theorem recvLoop_returned {len : ℕ} {closed : Bool} {got stream bs : List UInt8}
    {script : List Outcome} {s' : Reader} (hle : got.length ≤ len)
    (h : recvLoop len closed got stream script = .ok (bs, s')) :
    ∃ xs, bs = got ++ xs ∧ stream = xs ++ s'.stream ∧ bs.length = len := by
  fun_induction recvLoop len closed got stream script with
  | case1 => cases h
  | case2 got stream hlt o script ys hcall ih =>
    obtain ⟨⟨rest, rfl⟩, hlen⟩ := recvCall_bytes hcall
    rw [List.drop_left] at h ih
    obtain ⟨xs, rfl, rfl, hxs⟩ := ih (by rw [List.length_append]; omega) h
    exact ⟨ys ++ xs, List.append_assoc _ _ _, (List.append_assoc _ _ _).symm, hxs⟩
  | case3 => cases h
  | case4 got stream hlt o script hcall ih => exact ih hle h
  | case5 => cases h
  | case6 => cases h
  | case7 got stream script hge =>
    obtain ⟨rfl, rfl⟩ := Prod.mk.inj (Except.ok.inj h)
    exact ⟨[], (List.append_nil _).symm, rfl, by omega⟩

theorem recvExact_feed (fd : Fin P) (tag : Tag) (bs rest : List UInt8)
    (k : List UInt8 → Proc P α β A) :
    feed (MicroCcl.recvExact fd tag bs.length >>= k) (bs ++ rest) = feed (k bs) rest := by
  induction bs generalizing k with
  | nil => rfl
  | cons b bs ih =>
    have hstep : (MicroCcl.recvExact fd tag (b :: bs).length >>= k) =
        .recvByte fd tag fun b => MicroCcl.recvExact fd tag bs.length >>= fun xs =>
          k (b :: xs) := by
      simp only [List.length_cons, MicroCcl.recvExact, Proc.recvByte_bind, bind_assoc,
        Proc.pure_bind']
    rw [hstep]
    exact ih fun xs => k (b :: xs)

theorem recvExact_agrees (fd : Fin P) (tag : Tag) (len : ℕ) :
    Agrees (recvExact len) (MicroCcl.recvExact (α := α) (β := β) fd tag len) := by
  intro s bs s' h B k
  obtain ⟨xs, hbs, hstream, rfl⟩ := recvLoop_returned (Nat.zero_le len) h
  rw [List.nil_append] at hbs
  subst hbs
  rw [hstream]
  exact recvExact_feed fd tag bs s'.stream k

theorem recvU32_agrees (fd : Fin P) (tag : Tag) :
    Agrees recvU32 (MicroCcl.recvU32 (α := α) (β := β) fd tag) :=
  (recvExact_agrees fd tag 4).bind fun be => Agrees.pure (getU32 be).1

theorem recvEntries_agrees (fd : Fin P) (tag : Tag) (n : ℕ) (table : List Entry) :
    Agrees (recvEntries n >>= fun es => pure (table ++ es.val))
      (MicroCcl.recvEntries (α := α) (β := β) fd tag n table) := by
  induction n generalizing table with
  | zero =>
    simp only [recvEntries, pure_bind, List.append_nil]
    exact Agrees.pure table
  | succ n ih =>
    have hentry : Agrees recvEntry (MicroCcl.recvEntry (α := α) (β := β) fd tag) :=
      (recvExact_agrees fd tag entryWireSize).bind fun buf => Agrees.pure (decodeEntry buf)
    have hloop : (recvEntries (n + 1) >>= fun es => pure (table ++ es.val)) =
        recvEntry >>= fun e => recvEntries n >>= fun es => pure ((table ++ [e]) ++ es.val) := by
      simp only [recvEntries, bind_assoc, pure_bind, List.append_assoc, List.singleton_append]
    rw [hloop]
    exact hentry.bind fun e => ih (table ++ [e])

theorem recvTable_agrees (fd : Fin P) (tag : Tag) (table : List Entry) :
    Agrees (recvU32 >>= fun count => recvEntries count.toNat >>= fun es => pure (table ++ es.val))
      (MicroCcl.recvTable (α := α) (β := β) fd tag table) :=
  (recvU32_agrees fd tag).bind fun count => recvEntries_agrees fd tag count.toNat table

end Bytes

end Socket
end MicroCcl

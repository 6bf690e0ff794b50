import Mathlib.Data.List.Basic
import Mathlib.Data.List.Infix
import Mathlib.Tactic.Common

namespace Sockets

variable {E A B : Type}

/-- How a call comes out. A transfer is never empty: `moved n` stands for `n + 1` bytes, or as many
as are asked for and there if these are fewer. -/
inductive Outcome where
  | moved (n : ℕ)
  | interrupted
  | failed (why : String)
  deriving DecidableEq, Repr

/-- What the caller gets to see. -/
inductive Ret where
  | bytes (bs : List UInt8)
  | eof
  | interrupted
  | failed (why : String)
  | blocked
  deriving DecidableEq, Repr

def sendCall (buf : List UInt8) : Outcome → Ret
  | .moved n => .bytes (buf.take (n + 1))
  | .interrupted => .interrupted
  | .failed why => .failed why

/-- `stream` is all that the peer still sends; a call for more blocks unless the peer has closed. -/
def recvCall (asked : ℕ) (stream : List UInt8) (closed : Bool) : Outcome → Ret
  | .moved n =>
    if stream = [] then if closed then .eof else .blocked
    else .bytes (stream.take (min (n + 1) asked))
  | .interrupted => .interrupted
  | .failed why => .failed why

theorem sendCall_moved {buf : List UInt8} (hbuf : buf ≠ []) (n : ℕ) :
    ∃ bs rest, bs ≠ [] ∧ buf = bs ++ rest ∧ sendCall buf (.moved n) = .bytes bs := by
  refine ⟨buf.take (n + 1), buf.drop (n + 1), ?_, (List.take_append_drop _ _).symm, rfl⟩
  simpa [List.take_eq_nil_iff] using hbuf

theorem recvCall_moved (asked : ℕ) (hasked : 0 < asked) {stream : List UInt8}
    (hstream : stream ≠ []) (closed : Bool) (n : ℕ) :
    ∃ bs rest, bs ≠ [] ∧ stream = bs ++ rest ∧ bs.length ≤ asked ∧
      recvCall asked stream closed (.moved n) = .bytes bs := by
  refine ⟨stream.take (min (n + 1) asked), stream.drop (min (n + 1) asked), ?_,
    (List.take_append_drop _ _).symm, ?_, by rw [recvCall, if_neg hstream]⟩
  · rw [Ne, List.take_eq_nil_iff]
    rintro (h | h)
    · omega
    · exact hstream h
  · exact (List.length_take_le _ _).trans (min_le_right _ _)

theorem recvCall_bytes {asked : ℕ} {stream bs : List UInt8} {closed : Bool} {o : Outcome}
    (h : recvCall asked stream closed o = .bytes bs) : bs <+: stream ∧ bs.length ≤ asked := by
  cases o with
  | moved n =>
    rw [recvCall] at h
    split_ifs at h
    obtain rfl := Ret.bytes.inj h
    exact ⟨List.take_prefix _ _, (List.length_take_le _ _).trans (min_le_right _ _)⟩
  | interrupted => cases h
  | failed why => cases h

structure Writer where
  script : List Outcome
  wire : List UInt8
  deriving DecidableEq, Repr

structure Reader where
  script : List Outcome
  stream : List UInt8
  closed : Bool
  deriving DecidableEq, Repr

/-- Why a program has not returned. -/
inductive Stop (E : Type) where
  | thrown (e : E)
  | waiting
  deriving DecidableEq, Repr

abbrev WriteM (E A : Type) := StateT Writer (Except (Stop E)) A

abbrev ReadM (E A : Type) := StateT Reader (Except (Stop E)) A

section Bind

variable {S X : Type} {p : StateT S (Except X) A} {f : A → StateT S (Except X) B} {s s' : S}

theorem bind_of_ok {a : A} (h : p s = .ok (a, s')) : (p >>= f) s = f a s' := by
  simp only [Bind.bind, StateT.bind, h, Except.bind]

theorem bind_of_error {e : X} (h : p s = .error e) : (p >>= f) s = .error e := by
  simp only [Bind.bind, StateT.bind, h, Except.bind]

end Bind

/-- No call fails, other than by an interruption. -/
def Smooth (script : List Outcome) : Prop := ∀ why, .failed why ∉ script

/-- How many calls move something. -/
def moves (script : List Outcome) : ℕ :=
  script.countP fun
    | .moved _ => true
    | _ => false

theorem Smooth.tail {o : Outcome} {script : List Outcome} (h : Smooth (o :: script)) :
    Smooth script := fun why hw => h why (by simp [hw])

theorem Smooth.suffix {script script' : List Outcome} (h : Smooth script)
    (hs : script' <:+ script) : Smooth script' := fun why hw => h why (hs.subset hw)

@[simp] theorem moves_nil : moves [] = 0 := rfl

@[simp] theorem moves_moved (n : ℕ) (script : List Outcome) :
    moves (.moved n :: script) = moves script + 1 := by simp [moves]

@[simp] theorem moves_interrupted (script : List Outcome) :
    moves (.interrupted :: script) = moves script := by simp [moves]

/-- Under every script the program puts `bs` on the wire, unless the calls that move something are
fewer than the bytes. -/
def Puts (p : WriteM E Unit) (bs : List UInt8) : Prop :=
  ∀ script wire, Smooth script →
    (∃ script', script' <:+ script ∧ moves script ≤ moves script' + bs.length ∧
      p ⟨script, wire⟩ = .ok ((), ⟨script', wire ++ bs⟩)) ∨
    moves script < bs.length ∧ p ⟨script, wire⟩ = .error .waiting

theorem Puts.pure : Puts (E := E) (pure ()) [] := fun script wire _ =>
  Or.inl ⟨script, List.suffix_rfl, le_rfl, by rw [List.append_nil]; rfl⟩

theorem Puts.bind {p q : WriteM E Unit} {bs bs' : List UInt8} (hp : Puts p bs) (hq : Puts q bs') :
    Puts (p >>= fun _ => q) (bs ++ bs') := by
  intro script wire hs
  rw [List.length_append]
  rcases hp script wire hs with ⟨script₁, hsuf, hm, hok⟩ | ⟨hm, hwait⟩
  · rw [bind_of_ok hok]
    rcases hq script₁ (wire ++ bs) (hs.suffix hsuf) with ⟨script₂, hsuf', hm', hok'⟩ | ⟨hm', hwait⟩
    · refine Or.inl ⟨script₂, hsuf'.trans hsuf, by omega, ?_⟩
      rw [hok', List.append_assoc]
    · exact Or.inr ⟨by omega, hwait⟩
  · exact Or.inr ⟨by omega, bind_of_error hwait⟩

theorem Puts.forM {X : Type} {f : X → WriteM E Unit} {enc : X → List UInt8}
    (hf : ∀ x, Puts (f x) (enc x)) (xs : List X) : Puts (xs.forM f) (xs.flatMap enc) := by
  induction xs with
  | nil => exact Puts.pure
  | cons x xs ih => exact (hf x).bind ih

/-- Under every script the program takes `bs` off the stream, no byte more or less, and gives `a`;
if the stream ends before, it throws `eof`. -/
structure Takes (eof : E) (p : ReadM E A) (bs : List UInt8) (a : A) : Prop where
  whole : ∀ script tail closed, Smooth script →
    (∃ script', script' <:+ script ∧ moves script ≤ moves script' + bs.length ∧
      p ⟨script, bs ++ tail, closed⟩ = .ok (a, ⟨script', tail, closed⟩)) ∨
    moves script < bs.length ∧ p ⟨script, bs ++ tail, closed⟩ = .error .waiting
  cut : ∀ script pre, Smooth script → pre <+: bs → pre ≠ bs →
    p ⟨script, pre, true⟩ = .error (.thrown eof) ∨
    moves script ≤ pre.length ∧ p ⟨script, pre, true⟩ = .error .waiting

variable {eof : E}

theorem Takes.pure (a : A) : Takes eof (Pure.pure a) [] a where
  whole script _ _ _ := Or.inl ⟨script, List.suffix_rfl, le_rfl, rfl⟩
  cut _ _ _ hpre hne := absurd (List.prefix_nil.mp hpre) hne

theorem cut_behind {p : ReadM E A} {f : A → ReadM E B} {bs bs' : List UInt8} {a : A} {b : B}
    (hp : Takes eof p bs a) (hf : Takes eof (f a) bs' b) (script : List Outcome)
    (pre : List UInt8) (hs : Smooth script) (hpre : pre <+: bs') (hne : pre ≠ bs') :
    (p >>= f) ⟨script, bs ++ pre, true⟩ = .error (.thrown eof) ∨
    moves script ≤ (bs ++ pre).length ∧ (p >>= f) ⟨script, bs ++ pre, true⟩ = .error .waiting := by
  rw [List.length_append]
  rcases hp.whole script pre true hs with ⟨script', hsuf, hm, hok⟩ | ⟨hm, hwait⟩
  · rw [bind_of_ok hok]
    refine (hf.cut script' pre (hs.suffix hsuf) hpre hne).imp id fun h => ⟨?_, h.2⟩
    have hm' := h.1
    omega
  · exact Or.inr ⟨by omega, bind_of_error hwait⟩

theorem Takes.bind {p : ReadM E A} {f : A → ReadM E B} {bs bs' : List UInt8} {a : A} {b : B}
    (hp : Takes eof p bs a) (hf : Takes eof (f a) bs' b) : Takes eof (p >>= f) (bs ++ bs') b where
  whole := by
    intro script tail closed hs
    rw [List.length_append, List.append_assoc]
    rcases hp.whole script (bs' ++ tail) closed hs with ⟨script₁, hsuf, hm, hok⟩ | ⟨hm, hwait⟩
    · rw [bind_of_ok hok]
      rcases hf.whole script₁ tail closed (hs.suffix hsuf) with ⟨script₂, hsuf', hm', hok'⟩ | hwait
      · exact Or.inl ⟨script₂, hsuf'.trans hsuf, by omega, hok'⟩
      · exact Or.inr ⟨by omega, hwait.2⟩
    · exact Or.inr ⟨by omega, bind_of_error hwait⟩
  cut := by
    intro script pre hs hpre hne
    -- the stream ends inside of what `p` reads, or behind it
    rcases List.prefix_or_prefix_of_prefix hpre (List.prefix_append bs bs') with hin | ⟨pre', rfl⟩
    · by_cases heq : pre = bs
      · subst heq
        have hne' : ([] : List UInt8) ≠ bs' := by
          rintro rfl
          exact hne (List.append_nil pre).symm
        simpa using cut_behind hp hf script [] hs List.nil_prefix hne'
      · rcases hp.cut script pre hs hin heq with hthrow | ⟨hm, hwait⟩
        · exact Or.inl (bind_of_error hthrow)
        · exact Or.inr ⟨hm, bind_of_error hwait⟩
    · have hpre' : pre' <+: bs' := (List.prefix_append_right_inj bs).mp hpre
      exact cut_behind hp hf script pre' hs hpre' fun h => hne (by rw [h])

theorem Takes.map {p : ReadM E A} {bs : List UInt8} {a : A} (hp : Takes eof p bs a) (f : A → B) :
    Takes eof (p >>= fun a => Pure.pure (f a)) bs (f a) := by
  have h := hp.bind (Takes.pure (f a)) (f := fun a => Pure.pure (f a))
  rwa [List.append_nil] at h

end Sockets

import Mathlib.Data.List.Basic
import Mathlib.Data.List.Induction
import Mathlib.Data.List.Nodup
import Mathlib.Logic.Function.Basic
import Mathlib.Tactic.Common

namespace Flags

variable {A E F : Type}

/-- What the flags do with their values, and what is thrown where there is no way on. -/
structure Table (A E : Type) where
  setter : String → Option (String → A → Except E A)
  missing : String → E
  unknown : String → E

def spell (ps : List (String × String)) : List String := ps.flatMap fun p => [p.1, p.2]

namespace Table

variable (t : Table A E)

def parse : List String → A → Except E A
  | [], a => .ok a
  | [flag], _ =>
    match t.setter flag with
    | none => .error (t.unknown flag)
    | some _ => .error (t.missing flag)
  | flag :: value :: args, a =>
    match t.setter flag with
    | none => .error (t.unknown flag)
    | some f => f value a >>= parse args

def apply (p : String × String) (a : A) : Except E A :=
  match t.setter p.1 with
  | none => .error (t.unknown p.1)
  | some f => f p.2 a

def run : List (String × String) → A → Except E A
  | [], a => .ok a
  | p :: ps, a => t.apply p a >>= run ps

/-- With the record `a` there is no way on at these arguments. -/
inductive Stops (a : A) : List String → E → Prop
  | unknown {flag : String} (rest : List String) (h : t.setter flag = none) :
      Stops a (flag :: rest) (t.unknown flag)
  | missing {flag : String} {f : String → A → Except E A} (h : t.setter flag = some f) :
      Stops a [flag] (t.missing flag)
  | value {flag value : String} {f : String → A → Except E A} {e : E} (rest : List String)
      (h : t.setter flag = some f) (he : f value a = .error e) : Stops a (flag :: value :: rest) e

variable {t} {args rest : List String} {ps qs : List (String × String)} {a b : A} {e : E}

theorem parse_cons (p : String × String) (args : List String) (a : A) :
    t.parse (p.1 :: p.2 :: args) a = t.apply p a >>= t.parse args := by
  rw [parse, apply]
  cases t.setter p.1 with
  | none => rfl
  | some f => rfl

theorem parse_spell_append (ps : List (String × String)) (rest : List String) (a : A) :
    t.parse (spell ps ++ rest) a = t.run ps a >>= t.parse rest := by
  induction ps generalizing a with
  | nil => rfl
  | cons p ps ih =>
    have hsplit : spell (p :: ps) ++ rest = p.1 :: p.2 :: (spell ps ++ rest) := rfl
    rw [hsplit, parse_cons, run, bind_assoc]
    exact bind_congr ih

theorem parse_spell (ps : List (String × String)) (a : A) : t.parse (spell ps) a = t.run ps a := by
  have h := parse_spell_append (t := t) ps [] a
  rw [List.append_nil] at h
  rw [h]
  cases t.run ps a <;> rfl

/-- All arguments are read as flags with values, or the first that is not stops the program. -/
theorem parse_cases (args : List String) (a : A) :
    (∃ ps b, args = spell ps ∧ t.run ps a = .ok b) ∨
      ∃ ps b rest e, args = spell ps ++ rest ∧ t.run ps a = .ok b ∧ t.Stops b rest e := by
  induction args using List.twoStepInduction generalizing a with
  | nil => exact .inl ⟨[], a, rfl, rfl⟩
  | singleton flag =>
    refine .inr ⟨[], a, [flag], ?_⟩
    cases h : t.setter flag with
    | none => exact ⟨_, rfl, rfl, .unknown [] h⟩
    | some f => exact ⟨_, rfl, rfl, .missing h⟩
  | cons_cons flag value args ih _ =>
    cases h : t.setter flag with
    | none => exact .inr ⟨[], a, _, _, rfl, rfl, .unknown _ h⟩
    | some f =>
      cases hf : f value a with
      | error e => exact .inr ⟨[], a, _, e, rfl, rfl, .value _ h hf⟩
      | ok a' =>
        have hrun : ∀ ps, t.run ((flag, value) :: ps) a = t.run ps a' := by
          intro ps
          rw [run, apply, h]
          simp only [hf]
          rfl
        obtain ⟨ps, b, rfl, hps⟩ | ⟨ps, b, rest, e, rfl, hps, hstop⟩ := ih a'
        · exact .inl ⟨(flag, value) :: ps, b, rfl, (hrun ps).trans hps⟩
        · exact .inr ⟨(flag, value) :: ps, b, rest, e, rfl, (hrun ps).trans hps, hstop⟩

theorem Stops.parse (h : t.Stops a rest e) : t.parse rest a = .error e := by
  cases h with
  | @unknown flag rest h =>
    cases rest with
    | nil => simp only [Table.parse, h]
    | cons value rest => simp only [Table.parse, h]
  | missing h => simp only [Table.parse, h]
  | value rest h he =>
    simp only [Table.parse, h, he]
    rfl

theorem parse_eq_ok_iff : t.parse args a = .ok b ↔ ∃ ps, args = spell ps ∧ t.run ps a = .ok b := by
  constructor
  · intro h
    obtain ⟨ps, b', rfl, hps⟩ | ⟨ps, b', rest, e, rfl, hps, hstop⟩ := parse_cases (t := t) args a
    · exact ⟨ps, rfl, parse_spell (t := t) ps a ▸ h⟩
    · rw [parse_spell_append, hps] at h
      cases hstop.parse.symm.trans h
  · rintro ⟨ps, rfl, hps⟩
    rw [parse_spell, hps]

theorem parse_eq_error_iff : t.parse args a = .error e ↔
    ∃ ps b rest, args = spell ps ++ rest ∧ t.run ps a = .ok b ∧ t.Stops b rest e := by
  constructor
  · intro h
    obtain ⟨ps, b', rfl, hps⟩ | ⟨ps, b', rest, e', rfl, hps, hstop⟩ := parse_cases (t := t) args a
    · rw [parse_spell, hps] at h
      cases h
    · rw [parse_spell_append, hps] at h
      cases hstop.parse.symm.trans h
      exact ⟨ps, b', rest, rfl, hps, hstop⟩
  · rintro ⟨ps, b, rest, rfl, hps, hstop⟩
    rw [parse_spell_append, hps]
    exact hstop.parse

end Table

/-- The value that stands behind the last `flag`. -/
def lastValue (flag : String) : List (String × String) → Option String
  | [] => none
  | p :: ps => (lastValue flag ps).or (if p.1 = flag then some p.2 else none)

section LastValue

variable {flag value : String} {ps qs : List (String × String)}

theorem lastValue_eq_none_iff : lastValue flag ps = none ↔ ∀ p ∈ ps, p.1 ≠ flag := by
  induction ps with
  | nil => simp [lastValue]
  | cons p ps ih => simp [lastValue, ih, and_comm]

theorem mem_of_lastValue (h : lastValue flag ps = some value) : (flag, value) ∈ ps := by
  induction ps with
  | nil => cases h
  | cons p ps ih =>
    rw [lastValue, Option.or_eq_some_iff] at h
    rcases h with h | ⟨-, h⟩
    · exact List.mem_cons_of_mem p (ih h)
    · split_ifs at h with hp
      obtain rfl := Option.some.inj h
      exact List.mem_cons.mpr (.inl (Prod.ext hp.symm rfl))

theorem lastValue_perm (h : ps.Perm qs) (hnd : (ps.map Prod.fst).Nodup) (flag : String) :
    lastValue flag ps = lastValue flag qs := by
  have huniq : ∀ {v w}, (flag, v) ∈ ps → (flag, w) ∈ ps → v = w := by
    intro v w hv hw
    have hinj := List.inj_on_of_nodup_map hnd hv hw rfl
    exact congrArg Prod.snd hinj
  cases hp : lastValue flag ps with
  | none =>
    have hnone := lastValue_eq_none_iff.mp hp
    exact (lastValue_eq_none_iff.mpr fun p hp => hnone p (h.mem_iff.mpr hp)).symm
  | some v =>
    cases hq : lastValue flag qs with
    | none => exact absurd rfl (lastValue_eq_none_iff.mp hq _ (h.mem_iff.mp (mem_of_lastValue hp)))
    | some w =>
      exact congrArg some (huniq (mem_of_lastValue hp) (h.mem_iff.mpr (mem_of_lastValue hq)))

end LastValue

/-- A table whose flags `F` store into fields that do not overlap and make up the record. -/
structure Spec (F A E : Type) extends Table A E where
  flag : F → String
  flag_injective : Function.Injective flag
  Val : F → Type
  get : (f : F) → A → Val f
  put : (f : F) → Val f → A → A
  get_put : ∀ f v a, get f (put f v a) = v
  get_put_of_ne : ∀ {f g} v a, g ≠ f → get g (put f v a) = get g a
  ext : ∀ {a b}, (∀ f, get f a = get f b) → a = b
  decode : (f : F) → String → Except E (Val f)
  setter_flag : ∀ f, setter (flag f) = some fun s a => (decode f s).map fun v => put f v a
  setter_eq_none : ∀ {s}, (∀ f, s ≠ flag f) → setter s = none

namespace Spec

variable (S : Spec F A E)

/-- The field is what the last of its flags says, and as before where there is none. -/
def Holds (ps : List (String × String)) (a b : A) (f : F) : Prop :=
  match lastValue (S.flag f) ps with
  | none => S.get f b = S.get f a
  | some s => S.decode f s = .ok (S.get f b)

def Known (p : String × String) : Prop := ∃ f v, p.1 = S.flag f ∧ S.decode f p.2 = .ok v

variable {S} {ps qs : List (String × String)} {a b : A}

theorem apply_eq_ok_iff {p : String × String} : S.apply p a = .ok b ↔
    ∃ f v, p.1 = S.flag f ∧ S.decode f p.2 = .ok v ∧ b = S.put f v a := by
  rw [Table.apply]
  by_cases h : ∃ f, p.1 = S.flag f
  · obtain ⟨f, hf⟩ := h
    simp only [hf, S.setter_flag]
    constructor
    · intro h
      cases hv : S.decode f p.2 with
      | error e =>
        rw [hv] at h
        cases h
      | ok v =>
        rw [hv] at h
        exact ⟨f, v, rfl, hv, (Except.ok.inj h).symm⟩
    · rintro ⟨g, v, hg, hv, rfl⟩
      obtain rfl := S.flag_injective hg
      rw [hv]
      rfl
  · have hnone := S.setter_eq_none fun f hf => h ⟨f, hf⟩
    simp only [hnone]
    constructor
    · intro h
      cases h
    · rintro ⟨f, -, hf, -⟩
      exact absurd ⟨f, hf⟩ h

theorem holds_cons {p : String × String} {f : F} {v : S.Val f} (hf : p.1 = S.flag f)
    (hv : S.decode f p.2 = .ok v) (g : F) :
    S.Holds (p :: ps) a b g ↔ S.Holds ps (S.put f v a) b g := by
  rw [Holds, Holds, lastValue]
  cases hlast : lastValue (S.flag g) ps with
  | some s => simp only [Option.some_or]
  | none =>
    rw [Option.none_or, hf]
    by_cases hfg : f = g
    · subst hfg
      simp only [if_true, hv, S.get_put, Except.ok.injEq]
      exact eq_comm
    · have hne : ¬ S.flag f = S.flag g := fun h => hfg (S.flag_injective h)
      simp only [hne, if_false, S.get_put_of_ne v a (Ne.symm hfg)]

theorem run_eq_ok_iff : S.run ps a = .ok b ↔
    (∀ p ∈ ps, S.Known p) ∧ ∀ f, S.Holds ps a b f := by
  induction ps generalizing a with
  | nil =>
    constructor
    · intro h
      obtain rfl := Except.ok.inj h
      exact ⟨by simp, fun _ => rfl⟩
    · rintro ⟨-, h⟩
      exact congrArg Except.ok (S.ext fun f => (h f).symm)
  | cons p ps ih =>
    rw [Table.run]
    constructor
    · intro h
      cases ha : S.apply p a with
      | error e =>
        rw [ha] at h
        cases h
      | ok a' =>
        rw [ha] at h
        obtain ⟨f, v, hf, hv, rfl⟩ := apply_eq_ok_iff.mp ha
        obtain ⟨hknown, hholds⟩ := ih.mp h
        refine ⟨?_, fun g => (holds_cons hf hv g).mpr (hholds g)⟩
        exact List.forall_mem_cons.mpr ⟨⟨f, v, hf, hv⟩, hknown⟩
    · rintro ⟨hknown, hholds⟩
      obtain ⟨⟨f, v, hf, hv⟩, hknown⟩ := List.forall_mem_cons.mp hknown
      rw [apply_eq_ok_iff.mpr ⟨f, v, hf, hv, rfl⟩]
      exact ih.mpr ⟨hknown, fun g => (holds_cons hf hv g).mp (hholds g)⟩

theorem run_perm (h : ps.Perm qs) (hnd : (ps.map Prod.fst).Nodup) :
    S.run ps a = .ok b ↔ S.run qs a = .ok b := by
  simp only [run_eq_ok_iff, Holds, lastValue_perm h hnd, h.mem_iff]

def render (S : Spec F A E) (encode : (f : F) → S.Val f → String) (fs : List F) (a : A) :
    List (String × String) := fs.map fun f => (S.flag f, encode f (S.get f a))

/-- The record is read back from its fields, in whatever order and however often they are given;
only fields that are as before may be left out. -/
theorem run_render {encode : (f : F) → S.Val f → String} {fs : List F} {a₀ : A}
    (hdecode : ∀ f ∈ fs, S.decode f (encode f (S.get f a)) = .ok (S.get f a))
    (hfs : ∀ f, f ∉ fs → S.get f a = S.get f a₀) : S.run (S.render encode fs a) a₀ = .ok a := by
  refine run_eq_ok_iff.mpr ⟨fun p hp => ?_, fun f => ?_⟩
  · obtain ⟨f, hf, rfl⟩ := List.mem_map.mp hp
    exact ⟨f, _, rfl, hdecode f hf⟩
  · rw [Holds]
    cases hlast : lastValue (S.flag f) (S.render encode fs a) with
    | none =>
      refine hfs f fun hf => ?_
      exact lastValue_eq_none_iff.mp hlast _ (List.mem_map_of_mem hf) rfl
    | some s =>
      obtain ⟨g, hg, hgs⟩ := List.mem_map.mp (mem_of_lastValue hlast)
      obtain ⟨hflag, rfl⟩ := Prod.mk.inj hgs
      obtain rfl := S.flag_injective hflag
      exact hdecode g hg

end Spec

end Flags

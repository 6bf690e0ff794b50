import MicroCcl.Benchmark
import MicroCcl.Flags
import Mathlib.Data.List.TakeWhile

namespace MicroCcl
open Flags

def isSpace (c : Char) : Bool := c = ' ' || ('\t' ≤ c && c ≤ '\r')

def scanSign : List Char → Bool × List Char
  | '-' :: s => (true, s)
  | '+' :: s => (false, s)
  | s => (false, s)

/-- What `strtol` and `strtoull` read in base 10: blanks, a sign, and all digits that follow. -/
def scanNumber (s : String) : Option (Bool × ℕ) :=
  let signed := scanSign (s.toList.dropWhile isSpace)
  let digits := signed.2.takeWhile Char.isDigit
  if digits = [] then none else some (signed.1, Nat.ofDigitChars 10 digits 0)

def stoi (s : String) : Except Exn ℤ :=
  match scanNumber s with
  | none => .error (.invalidArgument "stoi")
  | some (negative, n) =>
    let value : ℤ := if negative then -n else n
    if -2 ^ 31 ≤ value ∧ value < 2 ^ 31 then .ok value else .error (.outOfRange "stoi")

/-- `std::stoul` and `std::stoull`, which take a sign and wrap. -/
def stoUnsigned (name s : String) : Except Exn ℕ :=
  match scanNumber s with
  | none => .error (.invalidArgument name)
  | some (negative, n) =>
    if n < 2 ^ 64 then .ok (if negative then (2 ^ 64 - n) % 2 ^ 64 else n)
    else .error (.outOfRange name)

theorem scanSign_digit {c : Char} (hc : c.isDigit) (s : List Char) :
    scanSign (c :: s) = (false, c :: s) := by
  have hminus : c ≠ '-' := by
    rintro rfl
    cases hc
  have hplus : c ≠ '+' := by
    rintro rfl
    cases hc
  unfold scanSign
  split
  · rename_i h
    exact absurd (List.cons.inj h).1 hminus
  · rename_i h
    exact absurd (List.cons.inj h).1 hplus
  · rfl

theorem isSpace_digit {c : Char} (hc : c.isDigit) : isSpace c = false := by
  have hrange : 48 ≤ c.val.toNat := (Char.isDigit_iff_toNat.mp hc).1
  simp only [isSpace, Bool.or_eq_false_iff, Bool.and_eq_false_iff, decide_eq_false_iff_not]
  constructor
  · rintro rfl
    cases hc
  · refine Or.inr fun hle => ?_
    have : c.val.toNat ≤ 13 := hle
    omega

/-- What is behind the sign is read up to its end. -/
theorem scanNumber_of_digits {s : String} {negative : Bool} {n : ℕ}
    (hs : scanSign (s.toList.dropWhile isSpace) = (negative, Nat.toDigits 10 n)) :
    scanNumber s = some (negative, n) := by
  have hall : (Nat.toDigits 10 n).takeWhile Char.isDigit = Nat.toDigits 10 n :=
    List.takeWhile_eq_self_iff.mpr fun c hc =>
      Nat.isDigit_of_mem_toDigits (by decide) (by decide) hc
  simp only [scanNumber, hs, hall, if_neg Nat.toDigits_ne_nil, Nat.ofDigitChars_ten_toDigits]

theorem scanNumber_repr (n : ℕ) : scanNumber n.repr = some (false, n) := by
  apply scanNumber_of_digits
  rw [Nat.toList_repr]
  cases hdigits : Nat.toDigits 10 n with
  | nil => exact absurd hdigits Nat.toDigits_ne_nil
  | cons c s =>
    have hc : c.isDigit := by
      refine Nat.isDigit_of_mem_toDigits (b := 10) (n := n) (by decide) (by decide) ?_
      rw [hdigits]
      exact List.mem_cons_self
    rw [List.dropWhile_cons_of_neg (by rw [isSpace_digit hc]; decide), scanSign_digit hc]

theorem scanNumber_neg_repr (n : ℕ) : scanNumber ("-" ++ n.repr) = some (true, n) := by
  apply scanNumber_of_digits
  rw [String.toList_append, Nat.toList_repr]
  rfl

theorem stoi_toString {i : ℤ} (hlow : -2 ^ 31 ≤ i) (hhigh : i < 2 ^ 31) :
    stoi (toString i) = .ok i := by
  rw [Int.toString_eq_repr, Int.repr_eq_if, stoi]
  split_ifs with hi
  · have hvalue : (i.toNat : ℤ) = i := Int.toNat_of_nonneg hi
    simp only [scanNumber_repr, hvalue, Bool.false_eq_true, if_false]
    exact if_pos ⟨hlow, hhigh⟩
  · have hvalue : -((-i).toNat : ℤ) = i := by omega
    simp only [scanNumber_neg_repr, hvalue, if_true]
    exact if_pos ⟨hlow, hhigh⟩

theorem stoUnsigned_toString (name : String) {n : ℕ} (hn : n < 2 ^ 64) :
    stoUnsigned name (toString n) = .ok n := by
  have hscan : scanNumber (toString n) = some (false, n) := scanNumber_repr n
  simp only [stoUnsigned, hscan, if_pos hn, Bool.false_eq_true, if_false]

example : stoi " -12abc" = .ok (-12) := by decide
example : stoUnsigned "stoull" "-1" = .ok (2 ^ 64 - 1) := by decide

def missingValue (flag : String) : Exn := .runtimeError ("missing value for " ++ flag)

def unknownFlag (flag : String) : Exn := .runtimeError ("unknown flag: " ++ flag)

def stoPort (s : String) : Except Exn UInt16 := (stoi s).map UInt16.ofInt

theorem stoPort_toString (port : UInt16) : stoPort (toString (port.toNat : ℤ)) = .ok port := by
  have hlt := port.toNat_lt
  have hmod : ((port.toNat : ℤ) % 2 ^ 16).toNat = port.toNat := by omega
  rw [stoPort, stoi_toString (by omega) (by omega), Except.map, UInt16.ofInt, hmod,
    UInt16.ofNat_toNat]

section Exact

variable {A F : Type}

def checkArgs (rank : ℤ) (rootHost usage : String) (a : A) : Except Exn A :=
  if rank < 0 ∨ rootHost = "" then .error (.runtimeError usage) else .ok a

/-- The arguments give these flags these values, all of them can be read, and `a` is the record that
comes of it. -/
def Spelled (S : Spec F A Exn) (a₀ : A) (argv : List String) (ps : List (String × String)) (a : A) :
    Prop := argv = spell ps ∧ (∀ p ∈ ps, S.Known p) ∧ ∀ f, S.Holds ps a₀ a f

/-- What `parse_args` returns and throws, for every command line. -/
structure ParsesExactly (S : Spec F A Exn) (a₀ : A) (Complete : A → Prop) (usage : String)
    (parse : List String → Except Exn A) : Prop where
  ok_iff : ∀ argv a, parse argv = .ok a ↔ (∃ ps, Spelled S a₀ argv ps a) ∧ Complete a
  error_iff : ∀ argv e, parse argv = .error e ↔
    (∃ ps b read rest, argv = read ++ rest ∧ Spelled S a₀ read ps b ∧ S.Stops b rest e) ∨
      ∃ ps a, Spelled S a₀ argv ps a ∧ ¬ Complete a ∧ e = .runtimeError usage
  perm : ∀ ps qs a, ps.Perm qs → (ps.map Prod.fst).Nodup →
    (parse (spell ps) = .ok a ↔ parse (spell qs) = .ok a)

variable {S : Spec F A Exn} {a₀ : A} {rank : A → ℤ} {rootHost : A → String} {usage : String}

theorem spelled_iff {argv : List String} {ps : List (String × String)} {a : A} :
    Spelled S a₀ argv ps a ↔ argv = spell ps ∧ S.run ps a₀ = .ok a := by
  rw [Spelled, Spec.run_eq_ok_iff]

theorem checkArgs_eq_ok_iff {r : ℤ} {host : String} {a b : A} :
    checkArgs r host usage a = .ok b ↔ a = b ∧ 0 ≤ r ∧ host ≠ "" := by
  rw [checkArgs]
  split_ifs with h
  · refine ⟨by simp, ?_⟩
    rintro ⟨-, hr, hhost⟩
    exact absurd h (not_or.mpr ⟨not_lt.mpr hr, hhost⟩)
  · obtain ⟨hr, hhost⟩ := not_or.mp h
    exact ⟨fun h' => ⟨Except.ok.inj h', not_lt.mp hr, hhost⟩, fun h' => congrArg Except.ok h'.1⟩

theorem checkArgs_eq_error_iff {r : ℤ} {host : String} {a : A} {e : Exn} :
    checkArgs r host usage a = .error e ↔ ¬ (0 ≤ r ∧ host ≠ "") ∧ e = .runtimeError usage := by
  have hbad : (r < 0 ∨ host = "") ↔ ¬ (0 ≤ r ∧ host ≠ "") := by
    rw [not_and_or, not_le, not_not]
  rw [checkArgs, ← hbad]
  split_ifs with h
  · exact ⟨fun h' => ⟨h, (Except.error.inj h').symm⟩, fun h' => congrArg Except.error h'.2.symm⟩
  · exact ⟨by simp, fun h' => absurd h'.1 h⟩

theorem parsesExactly_checkArgs : ParsesExactly S a₀ (fun a => 0 ≤ rank a ∧ rootHost a ≠ "") usage
    fun argv => S.parse argv a₀ >>= fun a => checkArgs (rank a) (rootHost a) usage a := by
  have hok : ∀ argv a, (S.parse argv a₀ >>= fun a => checkArgs (rank a) (rootHost a) usage a) =
      .ok a ↔ S.parse argv a₀ = .ok a ∧ 0 ≤ rank a ∧ rootHost a ≠ "" := by
    intro argv a
    cases S.parse argv a₀ with
    | error e => simp [bind, Except.bind]
    | ok b =>
      refine checkArgs_eq_ok_iff.trans ⟨?_, ?_⟩
      · rintro ⟨rfl, h⟩
        exact ⟨rfl, h⟩
      · rintro ⟨h, hcomplete⟩
        obtain rfl := Except.ok.inj h
        exact ⟨rfl, hcomplete⟩
  refine ⟨fun argv a => ?_, fun argv e => ?_, fun ps qs a h hnd => ?_⟩
  · rw [hok, Table.parse_eq_ok_iff]
    simp only [spelled_iff]
  · simp only [spelled_iff]
    constructor
    · intro h
      cases hparse : S.parse argv a₀ with
      | error e' =>
        rw [hparse] at h
        obtain rfl := Except.error.inj h
        obtain ⟨ps, b, rest, rfl, hrun, hstop⟩ := Table.parse_eq_error_iff.mp hparse
        exact .inl ⟨ps, b, _, rest, rfl, ⟨rfl, hrun⟩, hstop⟩
      | ok a =>
        rw [hparse] at h
        obtain ⟨hcomplete, rfl⟩ := checkArgs_eq_error_iff.mp h
        obtain ⟨ps, rfl, hrun⟩ := Table.parse_eq_ok_iff.mp hparse
        exact .inr ⟨ps, a, ⟨rfl, hrun⟩, hcomplete, rfl⟩
    · rintro (⟨ps, b, read, rest, rfl, ⟨rfl, hrun⟩, hstop⟩ | ⟨ps, a, ⟨rfl, hrun⟩, hcomplete, rfl⟩)
      · rw [Table.parse_eq_error_iff.mpr ⟨ps, b, rest, rfl, hrun, hstop⟩]
        rfl
      · rw [Table.parse_spell, hrun]
        exact checkArgs_eq_error_iff.mpr ⟨hcomplete, rfl⟩
  · rw [hok, hok, Table.parse_spell, Table.parse_spell, Spec.run_perm h hnd]

end Exact

namespace Bench

def table : Table BenchArgs Exn where
  setter flag :=
    if flag = "--rank" then some fun s a => (stoi s).map fun v => { a with rank := v }
    else if flag = "--world-size" then
      some fun s a => (stoi s).map fun v => { a with worldSize := v }
    else if flag = "--root-host" then some fun s a => .ok { a with rootHost := s }
    else if flag = "--root-port" then
      some fun s a => (stoPort s).map fun v => { a with rootPort := v }
    else if flag = "--algo" then some fun s a => .ok { a with algo := s }
    else if flag = "--dtype" then some fun s a => .ok { a with dtypeStr := s }
    else if flag = "--op" then some fun s a => .ok { a with opStr := s }
    else if flag = "--min-size" then
      some fun s a => (stoUnsigned "stoull" s).map fun v => { a with minSize := v }
    else if flag = "--max-size" then
      some fun s a => (stoUnsigned "stoull" s).map fun v => { a with maxSize := v }
    else if flag = "--csv-out" then some fun s a => .ok { a with csvOut := s }
    else none
  missing := missingValue
  unknown := unknownFlag

def usage : String :=
  "usage: bench_allreduce --rank R --world-size N --root-host H " ++
  "[--root-port P] [--algo ring|recdouble|both] " ++
  "[--dtype float32|int32] [--op sum|min|max] " ++
  "[--min-size BYTES] [--max-size BYTES] [--csv-out FILE]"

def parseArgs (argv : List String) : Except Exn BenchArgs := do
  let a ← table.parse argv {}
  checkArgs a.rank a.rootHost usage a

inductive Flag where
  | rank | worldSize | rootHost | rootPort | algo | dtype | op | minSize | maxSize | csvOut
  deriving DecidableEq, Repr

def Flag.text : Flag → String
  | rank => "--rank"
  | worldSize => "--world-size"
  | rootHost => "--root-host"
  | rootPort => "--root-port"
  | algo => "--algo"
  | dtype => "--dtype"
  | op => "--op"
  | minSize => "--min-size"
  | maxSize => "--max-size"
  | csvOut => "--csv-out"

def Flag.Val : Flag → Type
  | rank | worldSize => ℤ
  | rootHost | algo | dtype | op | csvOut => String
  | rootPort => UInt16
  | minSize | maxSize => ℕ

def Flag.get : (f : Flag) → BenchArgs → f.Val
  | rank, a => a.rank
  | worldSize, a => a.worldSize
  | rootHost, a => a.rootHost
  | rootPort, a => a.rootPort
  | algo, a => a.algo
  | dtype, a => a.dtypeStr
  | op, a => a.opStr
  | minSize, a => a.minSize
  | maxSize, a => a.maxSize
  | csvOut, a => a.csvOut

def Flag.put : (f : Flag) → f.Val → BenchArgs → BenchArgs
  | rank, v, a => { a with rank := v }
  | worldSize, v, a => { a with worldSize := v }
  | rootHost, v, a => { a with rootHost := v }
  | rootPort, v, a => { a with rootPort := v }
  | algo, v, a => { a with algo := v }
  | dtype, v, a => { a with dtypeStr := v }
  | op, v, a => { a with opStr := v }
  | minSize, v, a => { a with minSize := v }
  | maxSize, v, a => { a with maxSize := v }
  | csvOut, v, a => { a with csvOut := v }

def Flag.decode : (f : Flag) → String → Except Exn f.Val
  | rank, s | worldSize, s => stoi s
  | rootHost, s | algo, s | dtype, s | op, s | csvOut, s => .ok s
  | rootPort, s => stoPort s
  | minSize, s | maxSize, s => stoUnsigned "stoull" s

def Flag.encode : (f : Flag) → f.Val → String
  | rank, v | worldSize, v => toString (show ℤ from v)
  | rootHost, v | algo, v | dtype, v | op, v | csvOut, v => v
  | rootPort, v => toString ((show UInt16 from v).toNat : ℤ)
  | minSize, v | maxSize, v => toString (show ℕ from v)

/-- The flags store into fields of their own. -/
def spec : Spec Flag BenchArgs Exn where
  toTable := table
  flag := Flag.text
  flag_injective f g h := by
    cases f <;> cases g <;> first | rfl | simp [Flag.text] at h
  Val := Flag.Val
  get := Flag.get
  put := Flag.put
  get_put f v a := by cases f <;> rfl
  get_put_of_ne {f g} v a h := by
    cases f <;> cases g <;> first | rfl | exact absurd rfl h
  ext {a b} h := by
    cases a
    cases b
    rw [BenchArgs.mk.injEq]
    exact ⟨h .rank, h .worldSize, h .rootHost, h .rootPort, h .algo, h .dtype, h .op, h .minSize,
      h .maxSize, h .csvOut⟩
  decode := Flag.decode
  setter_flag f := by
    cases f <;> simp only [table, Flag.text, String.reduceEq, ↓reduceIte] <;> rfl
  setter_eq_none h :=
    (if_neg (h .rank)).trans <| (if_neg (h .worldSize)).trans <| (if_neg (h .rootHost)).trans <|
      (if_neg (h .rootPort)).trans <| (if_neg (h .algo)).trans <| (if_neg (h .dtype)).trans <|
      (if_neg (h .op)).trans <| (if_neg (h .minSize)).trans <| (if_neg (h .maxSize)).trans <|
      if_neg (h .csvOut)

structure InRange (a : BenchArgs) : Prop where
  rank : -2 ^ 31 ≤ a.rank ∧ a.rank < 2 ^ 31
  worldSize : -2 ^ 31 ≤ a.worldSize ∧ a.worldSize < 2 ^ 31
  minSize : a.minSize < 2 ^ 64
  maxSize : a.maxSize < 2 ^ 64

theorem InRange.decode_encode {a : BenchArgs} (h : InRange a) (f : Flag) :
    f.decode (f.encode (f.get a)) = .ok (f.get a) := by
  cases f
  case rank => exact stoi_toString h.rank.1 h.rank.2
  case worldSize => exact stoi_toString h.worldSize.1 h.worldSize.2
  case rootPort => exact stoPort_toString a.rootPort
  case minSize => exact stoUnsigned_toString "stoull" h.minSize
  case maxSize => exact stoUnsigned_toString "stoull" h.maxSize
  all_goals rfl

end Bench

namespace Pingpong

structure Args where
  rank : ℤ := -1
  worldSize : ℤ := 2
  rootHost : String := ""
  rootPort : UInt16 := 20200
  iters : ℤ := 1000
  warmup : ℤ := 100
  msgSize : ℕ := 4096
  deriving DecidableEq, Repr

def table : Table Args Exn where
  setter flag :=
    if flag = "--rank" then some fun s a => (stoi s).map fun v => { a with rank := v }
    else if flag = "--world-size" then
      some fun s a => (stoi s).map fun v => { a with worldSize := v }
    else if flag = "--root-host" then some fun s a => .ok { a with rootHost := s }
    else if flag = "--root-port" then
      some fun s a => (stoPort s).map fun v => { a with rootPort := v }
    else if flag = "--iters" then some fun s a => (stoi s).map fun v => { a with iters := v }
    else if flag = "--warmup" then some fun s a => (stoi s).map fun v => { a with warmup := v }
    else if flag = "--size" then
      some fun s a => (stoUnsigned "stoul" s).map fun v => { a with msgSize := v }
    else none
  missing := missingValue
  unknown := unknownFlag

def usage : String :=
  "usage: pingpong --rank R --world-size N --root-host H " ++
  "[--root-port P] [--iters N] [--warmup N] [--size BYTES]"

def parseArgs (argv : List String) : Except Exn Args := do
  let a ← table.parse argv {}
  checkArgs a.rank a.rootHost usage a

inductive Flag where
  | rank | worldSize | rootHost | rootPort | iters | warmup | size
  deriving DecidableEq, Repr

def Flag.text : Flag → String
  | rank => "--rank"
  | worldSize => "--world-size"
  | rootHost => "--root-host"
  | rootPort => "--root-port"
  | iters => "--iters"
  | warmup => "--warmup"
  | size => "--size"

def Flag.Val : Flag → Type
  | rank | worldSize | iters | warmup => ℤ
  | rootHost => String
  | rootPort => UInt16
  | size => ℕ

def Flag.get : (f : Flag) → Args → f.Val
  | rank, a => a.rank
  | worldSize, a => a.worldSize
  | rootHost, a => a.rootHost
  | rootPort, a => a.rootPort
  | iters, a => a.iters
  | warmup, a => a.warmup
  | size, a => a.msgSize

def Flag.put : (f : Flag) → f.Val → Args → Args
  | rank, v, a => { a with rank := v }
  | worldSize, v, a => { a with worldSize := v }
  | rootHost, v, a => { a with rootHost := v }
  | rootPort, v, a => { a with rootPort := v }
  | iters, v, a => { a with iters := v }
  | warmup, v, a => { a with warmup := v }
  | size, v, a => { a with msgSize := v }

def Flag.decode : (f : Flag) → String → Except Exn f.Val
  | rank, s | worldSize, s | iters, s | warmup, s => stoi s
  | rootHost, s => .ok s
  | rootPort, s => stoPort s
  | size, s => stoUnsigned "stoul" s

def Flag.encode : (f : Flag) → f.Val → String
  | rank, v | worldSize, v | iters, v | warmup, v => toString (show ℤ from v)
  | rootHost, v => v
  | rootPort, v => toString ((show UInt16 from v).toNat : ℤ)
  | size, v => toString (show ℕ from v)

def spec : Spec Flag Args Exn where
  toTable := table
  flag := Flag.text
  flag_injective f g h := by
    cases f <;> cases g <;> first | rfl | simp [Flag.text] at h
  Val := Flag.Val
  get := Flag.get
  put := Flag.put
  get_put f v a := by cases f <;> rfl
  get_put_of_ne {f g} v a h := by
    cases f <;> cases g <;> first | rfl | exact absurd rfl h
  ext {a b} h := by
    cases a
    cases b
    rw [Args.mk.injEq]
    exact ⟨h .rank, h .worldSize, h .rootHost, h .rootPort, h .iters, h .warmup, h .size⟩
  decode := Flag.decode
  setter_flag f := by
    cases f <;> simp only [table, Flag.text, String.reduceEq, ↓reduceIte] <;> rfl
  setter_eq_none h :=
    (if_neg (h .rank)).trans <| (if_neg (h .worldSize)).trans <| (if_neg (h .rootHost)).trans <|
      (if_neg (h .rootPort)).trans <| (if_neg (h .iters)).trans <| (if_neg (h .warmup)).trans <|
      if_neg (h .size)

structure InRange (a : Args) : Prop where
  rank : -2 ^ 31 ≤ a.rank ∧ a.rank < 2 ^ 31
  worldSize : -2 ^ 31 ≤ a.worldSize ∧ a.worldSize < 2 ^ 31
  iters : -2 ^ 31 ≤ a.iters ∧ a.iters < 2 ^ 31
  warmup : -2 ^ 31 ≤ a.warmup ∧ a.warmup < 2 ^ 31
  msgSize : a.msgSize < 2 ^ 64

theorem InRange.decode_encode {a : Args} (h : InRange a) (f : Flag) :
    f.decode (f.encode (f.get a)) = .ok (f.get a) := by
  cases f
  case rank => exact stoi_toString h.rank.1 h.rank.2
  case worldSize => exact stoi_toString h.worldSize.1 h.worldSize.2
  case rootHost => rfl
  case rootPort => exact stoPort_toString a.rootPort
  case iters => exact stoi_toString h.iters.1 h.iters.2
  case warmup => exact stoi_toString h.warmup.1 h.warmup.2
  case size => exact stoUnsigned_toString "stoul" h.msgSize

end Pingpong

/-- For every command line: `parse_args` returns exactly if the arguments are flags with values that
can be read and name a rank and a host; every field is then what the last of its flags says, and
flags given once each can be given in any order. Otherwise it throws what the first argument throws
that is not read, or the usage. -/
theorem parse_args_exact :
    ParsesExactly Bench.spec {} (fun a => 0 ≤ a.rank ∧ a.rootHost ≠ "") Bench.usage
      Bench.parseArgs ∧
    ParsesExactly Pingpong.spec {} (fun a => 0 ≤ a.rank ∧ a.rootHost ≠ "") Pingpong.usage
      Pingpong.parseArgs :=
  ⟨parsesExactly_checkArgs, parsesExactly_checkArgs⟩

/-- The arguments can be told from any command line that gives them, in whatever order and however
often the flags stand there; only what is as in the defaults may be left out. -/
theorem parse_args_round_trip :
    (∀ a : BenchArgs, Bench.InRange a → 0 ≤ a.rank → a.rootHost ≠ "" → ∀ fs,
      (∀ f, f ∉ fs → Bench.spec.get f a = Bench.spec.get f {}) →
        Bench.parseArgs (spell (Bench.spec.render Bench.Flag.encode fs a)) = .ok a) ∧
    ∀ a : Pingpong.Args, Pingpong.InRange a → 0 ≤ a.rank → a.rootHost ≠ "" → ∀ fs,
      (∀ f, f ∉ fs → Pingpong.spec.get f a = Pingpong.spec.get f {}) →
        Pingpong.parseArgs (spell (Pingpong.spec.render Pingpong.Flag.encode fs a)) = .ok a := by
  constructor
  · intro a ha hrank hhost fs hfs
    have hrun := Spec.run_render (fun f _ => ha.decode_encode f) hfs
    exact (parsesExactly_checkArgs.ok_iff _ _).mpr ⟨⟨_, spelled_iff.mpr ⟨rfl, hrun⟩⟩, hrank, hhost⟩
  · intro a ha hrank hhost fs hfs
    have hrun := Spec.run_render (fun f _ => ha.decode_encode f) hfs
    exact (parsesExactly_checkArgs.ok_iff _ _).mpr ⟨⟨_, spelled_iff.mpr ⟨rfl, hrun⟩⟩, hrank, hhost⟩

theorem parse_args_round_trip_up_to_64 :
    Bench.parseArgs ["--rank", "3", "--max-size", "64", "--root-host", "10.0.0.1", "--world-size",
        "4", "--rank", "3"] =
      .ok { rank := 3, worldSize := 4, rootHost := "10.0.0.1", maxSize := 64 } :=
  parse_args_round_trip.1 { rank := 3, worldSize := 4, rootHost := "10.0.0.1", maxSize := 64 }
    (by constructor <;> decide) (by decide) (by decide)
    [.rank, .maxSize, .rootHost, .worldSize, .rank]
    fun f hf => by cases f <;> first | rfl | simp at hf

end MicroCcl

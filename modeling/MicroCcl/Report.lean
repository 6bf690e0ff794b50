import MicroCcl.Arguments
import MicroCcl.Csv
import MicroCcl.Groups
import Mathlib.Data.List.Sort

namespace MicroCcl
open Network

structure Stats (D : Type) where
  minUs : D
  medianUs : D
  p99Us : D

section Stats

variable {D : Type} [LinearOrder D]

def sorted (samples : List D) : List D := samples.mergeSort fun a b => a ≤ b

theorem length_sorted (samples : List D) : (sorted samples).length = samples.length :=
  List.length_mergeSort samples

/-- `static_cast<size_t>(0.99 * (n - 1))`; for fewer than 2^46 samples rounding changes nothing. -/
def p99Index (n : ℕ) : ℕ := 99 * (n - 1) / 100

def computeStats (samples : List D) (hne : 0 < samples.length) : Stats D :=
  have hlen := length_sorted samples
  { minUs := (sorted samples).get ⟨0, hlen ▸ hne⟩
    medianUs := (sorted samples).get ⟨samples.length / 2, by omega⟩
    p99Us := (sorted samples).get ⟨p99Index samples.length, by rw [p99Index]; omega⟩ }

def Ranked (samples : List D) (i : ℕ) (x : D) : Prop :=
  x ∈ samples ∧ i < samples.countP (· ≤ x) ∧ samples.length - i ≤ samples.countP (x ≤ ·)

theorem sorted_pairwise (samples : List D) : (sorted samples).Pairwise (· ≤ ·) :=
  List.pairwise_mergeSort' (· ≤ ·) samples

theorem ranked_get (samples : List D) (i : Fin (sorted samples).length) :
    Ranked samples i ((sorted samples).get i) := by
  have hperm : (sorted samples).Perm samples := List.mergeSort_perm samples _
  have hmono : ∀ a b : Fin (sorted samples).length, a ≤ b →
      (sorted samples).get a ≤ (sorted samples).get b :=
    fun a b hab => (sorted_pairwise samples).rel_get_of_le hab
  refine ⟨hperm.mem_iff.mp (List.get_mem _ i), ?_, ?_⟩
  · rw [← hperm.countP_eq]
    have hall : ∀ x ∈ (sorted samples).take (i + 1), decide (x ≤ (sorted samples).get i) := by
      intro x hx
      obtain ⟨j, hj, rfl⟩ := List.mem_take_iff_getElem.mp hx
      have hle : j ≤ i := by omega
      exact decide_eq_true (hmono ⟨j, by omega⟩ i hle)
    have hcount := List.countP_eq_length.mpr hall
    have hsub := (List.take_sublist (i + 1) (sorted samples)).countP_le (p := fun x =>
      decide (x ≤ (sorted samples).get i))
    have hi := i.isLt
    rw [hcount, List.length_take] at hsub
    omega
  · rw [← hperm.countP_eq, ← hperm.length_eq]
    have hall : ∀ x ∈ (sorted samples).drop i, decide ((sorted samples).get i ≤ x) := by
      intro x hx
      obtain ⟨j, hj, rfl⟩ := List.mem_drop_iff_getElem.mp hx
      have hle : i.val ≤ i + j := Nat.le_add_right _ _
      exact decide_eq_true (hmono i ⟨i + j, by omega⟩ hle)
    have hcount := List.countP_eq_length.mpr hall
    have hsub := (List.drop_sublist i (sorted samples)).countP_le (p := fun x =>
      decide ((sorted samples).get i ≤ x))
    rw [hcount, List.length_drop] at hsub
    exact hsub

/-- What the three numbers are for the samples, in whatever order these come. -/
structure Stats.Describes (stats : Stats D) (samples : List D) : Prop where
  minUs : Ranked samples 0 stats.minUs
  medianUs : Ranked samples (samples.length / 2) stats.medianUs
  p99Us : Ranked samples (p99Index samples.length) stats.p99Us

theorem computeStats_describes {samples : List D} (hne : 0 < samples.length) :
    (computeStats samples hne).Describes samples :=
  ⟨ranked_get samples _, ranked_get samples _, ranked_get samples _⟩

end Stats

structure Row (D : Type) where
  algo : String
  dtype : String
  op : String
  worldSize : ℕ
  sizeBytes : ℕ
  count : ℕ
  iters : ℕ
  stats : Stats D

/-- How doubles are divided, printed by `operator<<` and read by `float`. -/
structure Doubles (D : Type) where
  bandwidthGbps : ℕ → D → D
  text : D → String
  float : String → Option D

section Write

variable {D : Type} (F : Doubles D)

def header : String :=
  "algo,dtype,op,world_size,size_bytes,count,iters,min_us," ++
    "median_us,p99_us,bandwidth_gbps\n"

def Row.fields (r : Row D) : List String :=
  [r.algo, r.dtype, r.op, toString r.worldSize, toString r.sizeBytes, toString r.count,
    toString r.iters, F.text r.stats.minUs, F.text r.stats.medianUs, F.text r.stats.p99Us,
    F.text (F.bandwidthGbps r.sizeBytes r.stats.medianUs)]

def writeRow (r : Row D) : String := ",".intercalate (r.fields F) ++ "\n"

def csvFile (rows : List (Row D)) : List Char :=
  header.toList ++ rows.flatMap fun r => (writeRow F r).toList

end Write

def isPySpace (c : Char) : Bool := isSpace c || ('\x1c' ≤ c && c ≤ '\x1f')

def strip (s : List Char) : List Char :=
  ((s.dropWhile isPySpace).reverse.dropWhile isPySpace).reverse

def pyInt (s : String) : Option ℤ :=
  let signed := scanSign (strip s.toList)
  let groups := signed.2.splitOn '_'
  if groups.all fun g => g ≠ [] && g.all Char.isDigit then
    let n : ℤ := Nat.ofDigitChars 10 groups.flatten 0
    some (if signed.1 then -n else n)
  else none

structure PlotRow (D : Type) where
  algo : Option String
  sizeBytes : ℤ
  medianUs : D
  minUs : D
  p99Us : D
  bandwidthGbps : D

section Read

variable {D : Type} (F : Doubles D)

/-- `none` where an exception ends the script: no such column, no such field, no number. -/
def loadRow (row : String → Option (Option String)) : Option (PlotRow D) := do
  let sizeBytes ← pyInt (← (row "size_bytes").join)
  let medianUs ← F.float (← (row "median_us").join)
  let minUs ← F.float (← (row "min_us").join)
  let p99Us ← F.float (← (row "p99_us").join)
  let bandwidthGbps ← F.float (← (row "bandwidth_gbps").join)
  let algo ← row "algo"
  return ⟨algo, sizeBytes, medianUs, minUs, p99Us, bandwidthGbps⟩

def loadRows (files : List (List Char)) : Option (List (PlotRow D)) := do
  let rows ← files.mapM (Csv.dictReader Csv.excel)
  rows.flatten.mapM (loadRow F)

end Read

def groupByAlgo {D : Type} (rows : List (PlotRow D)) : List (Option String × List (PlotRow D)) :=
  (Groups.groupBy PlotRow.algo rows).map fun g =>
    (g.1, g.2.mergeSort fun r r' => r.sizeBytes ≤ r'.sizeBytes)

section Row

variable {D : Type} {F : Doubles D}

theorem isPySpace_digit {c : Char} (hc : c.isDigit) : isPySpace c = false := by
  have hrange : 48 ≤ c.val.toNat := (Char.isDigit_iff_toNat.mp hc).1
  rw [isPySpace, isSpace_digit hc, Bool.false_or, Bool.and_eq_false_iff]
  refine Or.inr (decide_eq_false fun hle => ?_)
  have : c.val.toNat ≤ 31 := hle
  omega

theorem dropWhile_digits {s : List Char} (hs : ∀ c ∈ s, c.isDigit) :
    s.dropWhile isPySpace = s := by
  cases s with
  | nil => rfl
  | cons c s =>
    have hc := isPySpace_digit (hs c List.mem_cons_self)
    exact List.dropWhile_cons_of_neg (by simp [hc])

theorem strip_digits {s : List Char} (hs : ∀ c ∈ s, c.isDigit) : strip s = s := by
  rw [strip, dropWhile_digits hs, dropWhile_digits fun c hc => hs c (List.mem_reverse.mp hc),
    List.reverse_reverse]

theorem pyInt_toString (n : ℕ) : pyInt (toString n) = some (n : ℤ) := by
  have hdigits : ∀ c ∈ Nat.toDigits 10 n, c.isDigit := fun c hc =>
    Nat.isDigit_of_mem_toDigits (by decide) (by decide) hc
  have hscan : scanSign (strip (toString n).toList) = (false, Nat.toDigits 10 n) := by
    rw [show (toString n).toList = Nat.toDigits 10 n from Nat.toList_repr, strip_digits hdigits]
    cases hs : Nat.toDigits 10 n with
    | nil => exact absurd hs Nat.toDigits_ne_nil
    | cons c s => exact scanSign_digit (hdigits c (hs ▸ List.mem_cons_self)) s
  have hgroups : (Nat.toDigits 10 n).splitOn '_' = [Nat.toDigits 10 n] := by
    refine List.splitOnP_eq_singleton fun c hc => ?_
    have hc := hdigits c hc
    by_contra hne
    obtain rfl : c = '_' := by simpa using hne
    cases hc
  have hall : (Nat.toDigits 10 n).all Char.isDigit = true := List.all_eq_true.mpr hdigits
  simp only [pyInt, hscan, hgroups]
  simp [Nat.toDigits_ne_nil, hall, Nat.ofDigitChars_ten_toDigits]

def columns : List String :=
  ["algo", "dtype", "op", "world_size", "size_bytes", "count", "iters", "min_us", "median_us",
    "p99_us", "bandwidth_gbps"]

theorem header_eq : header.toList = Csv.render Csv.excel columns := by
  decide

theorem render_excel (fs : List String) :
    (",".intercalate fs ++ "\n").toList = Csv.render Csv.excel fs := by
  have hcomma : ",".toList = [Csv.excel.delimiter] := rfl
  have hbreak : "\n".toList = ['\n'] := rfl
  induction fs with
  | nil => rfl
  | cons f fs ih =>
    cases fs with
    | nil => rw [String.intercalate_singleton, String.toList_append, hbreak, Csv.render]
    | cons g fs =>
      rw [String.toList_append] at ih
      rw [String.intercalate_cons_cons, String.toList_append, String.toList_append,
        String.toList_append, List.append_assoc, ih, hcomma, List.append_assoc,
        List.singleton_append, Csv.render]

theorem plain_toString (n : ℕ) : Csv.Plain Csv.excel (toString n) := by
  intro c hc
  rw [show (toString n).toList = Nat.toDigits 10 n from Nat.toList_repr] at hc
  have hdigit := Nat.isDigit_of_mem_toDigits (by decide) (by decide) hc
  refine ⟨?_, ?_, ?_, ?_⟩ <;>
  · rintro rfl
    cases hdigit

/-- What is assumed of doubles: their texts are plain, and are read as `shown` says. -/
structure Doubles.Shows (F : Doubles D) (shown : D → D) : Prop where
  plain : ∀ x, Csv.Plain Csv.excel (F.text x)
  float_text : ∀ x, F.float (F.text x) = some (shown x)

def Row.Plain (r : Row D) : Prop :=
  Csv.Plain Csv.excel r.algo ∧ Csv.Plain Csv.excel r.dtype ∧ Csv.Plain Csv.excel r.op

def Row.plot (F : Doubles D) (shown : D → D) (r : Row D) : PlotRow D where
  algo := r.algo
  sizeBytes := r.sizeBytes
  medianUs := shown r.stats.medianUs
  minUs := shown r.stats.minUs
  p99Us := shown r.stats.p99Us
  bandwidthGbps := shown (F.bandwidthGbps r.sizeBytes r.stats.medianUs)

variable {shown : D → D} (hF : F.Shows shown)
include hF

theorem loadRow_fields (r : Row D) :
    loadRow F (Csv.dict columns (r.fields F)) = some (r.plot F shown) := by
  simp [loadRow, Csv.dict, columns, Row.fields, List.lookup_cons, hF.float_text, Row.plot,
    show pyInt r.sizeBytes.repr = some (r.sizeBytes : ℤ) from pyInt_toString _]

theorem Row.Plain.fields {r : Row D} (hr : r.Plain) : ∀ f ∈ r.fields F, Csv.Plain Csv.excel f := by
  simp only [Row.fields, List.forall_mem_cons]
  exact ⟨hr.1, hr.2.1, hr.2.2, plain_toString _, plain_toString _, plain_toString _,
    plain_toString _, hF.plain _, hF.plain _, hF.plain _, hF.plain _, by simp⟩

theorem dictReader_csvFile {rows : List (Row D)} (hrows : ∀ r ∈ rows, r.Plain) :
    Csv.dictReader Csv.excel (csvFile F rows) =
      some (rows.map fun r => Csv.dict columns (r.fields F)) := by
  have hcolumns : ∀ f ∈ columns, Csv.Plain Csv.excel f := by
    decide
  have hfile : csvFile F rows = Csv.render Csv.excel columns ++
      (rows.map (Row.fields F)).flatMap (Csv.render Csv.excel) := by
    rw [csvFile, header_eq, List.flatMap_map]
    simp only [writeRow, render_excel]
  rw [hfile, Csv.dictReader_render, List.map_map]
  · rfl
  · intro row hrow
    rcases List.mem_cons.mp hrow with rfl | hrow
    · exact hcolumns
    · obtain ⟨r, hr, rfl⟩ := List.mem_map.mp hrow
      exact (hrows r hr).fields hF
  · intro row hrow
    rcases List.mem_cons.mp hrow with rfl | hrow
    · decide
    · obtain ⟨r, -, rfl⟩ := List.mem_map.mp hrow
      simp [Row.fields]

/-- Whatever is written is read again, row by row. -/
theorem loadRows_csvFile {files : List (List (Row D))}
    (hrows : ∀ rows ∈ files, ∀ r ∈ rows, r.Plain) :
    loadRows F (files.map (csvFile F)) = some (files.flatten.map (Row.plot F shown)) := by
  have hdicts : (files.map (csvFile F)).mapM (Csv.dictReader Csv.excel) =
      some (files.map fun rows => rows.map fun r => Csv.dict columns (r.fields F)) := by
    induction files with
    | nil => rfl
    | cons rows files ih =>
      rw [List.map_cons, List.mapM_cons, dictReader_csvFile hF (hrows rows List.mem_cons_self),
        ih fun rows h => hrows rows (List.mem_cons_of_mem _ h)]
      rfl
  have hload : ∀ rows : List (Row D),
      (rows.map fun r => Csv.dict columns (r.fields F)).mapM (loadRow F) =
        some (rows.map (Row.plot F shown)) := by
    intro rows
    induction rows with
    | nil => rfl
    | cons r rows ih =>
      rw [List.map_cons, List.mapM_cons, loadRow_fields hF, ih]
      rfl
  rw [loadRows, hdicts, ← hload, List.map_flatten]
  rfl

end Row

theorem chooseIters_pos (sizeBytes : ℕ) : 0 < chooseIters sizeBytes := by
  unfold chooseIters
  split_ifs <;> decide

structure Times (D : Type) where
  samples : ℕ → String → List D
  length : ∀ sizeBytes algo, (samples sizeBytes algo).length = chooseIters sizeBytes

theorem Times.pos {D : Type} (times : Times D) (sizeBytes : ℕ) (algo : String) :
    0 < (times.samples sizeBytes algo).length := by
  rw [times.length]
  exact chooseIters_pos sizeBytes

section Programs

variable {D : Type} [LinearOrder D] (args : BenchArgs) (worldSize : ℕ) (dtype : Dtype)
  (times : Times D)

def benchRow (sizeBytes : ℕ) (algo : String) : Row D where
  algo := algo
  dtype := args.dtypeStr
  op := args.opStr
  worldSize := worldSize
  sizeBytes := sizeBytes
  count := sizeBytes / dtypeSize dtype
  iters := chooseIters sizeBytes
  stats := computeStats (times.samples sizeBytes algo) (times.pos sizeBytes algo)

def benchRows (sizes : List ℕ) : List (Row D) :=
  sizes.flatMap fun sizeBytes =>
    if sizeBytes / dtypeSize dtype = 0 then []
    else (algos args.algo).flatMap fun algo =>
      if skipped worldSize algo then [] else [benchRow args worldSize dtype times sizeBytes algo]

def mpiRows (sizes : List ℕ) : List (Row D) :=
  sizes.flatMap fun sizeBytes =>
    if sizeBytes / dtypeSize dtype = 0 then []
    else [benchRow args worldSize dtype times sizeBytes "openmpi"]

end Programs

inductive Harness
  | benchAllreduce
  | benchMpiAllreduce

/-- Every allreduce of the sweep returns on all ranks. -/
def Harness.Returns : Harness → BenchArgs → ℕ → List ℕ → Prop
  | .benchAllreduce, args, P, sizes => args.maxSize < 2 ^ 32 ∧ P * (P - 1) < 2 ^ 32 ∧
    (KnownAlgo args.algo ∨ (∃ m, P = 2 ^ m) ∨ ∀ s ∈ sizes, s < 4)
  -- `static_cast<int>(count)`
  | .benchMpiAllreduce, args, _, _ => args.maxSize / 4 < 2 ^ 31

/-- A program, its arguments and what it has measured, once its arguments are accepted and its sweep
is through. -/
structure Report (D : Type) where
  harness : Harness
  args : BenchArgs
  worldSize : ℕ
  dtype : Dtype
  op : ReduceOp
  fuel : ℕ
  sizes : List ℕ
  times : Times D
  dtype_eq : parseDtype args.dtypeStr = .ok dtype
  op_eq : parseOp args.opStr = .ok op
  ranks : 0 < worldSize
  returned : harness.Returns args worldSize sizes
  sweep_eq : sweep fuel args.minSize args.maxSize = some sizes

theorem plain_of_parseDtype {s : String} {dtype : Dtype} (h : parseDtype s = .ok dtype) :
    Csv.Plain Csv.excel s := by
  unfold parseDtype at h
  split_ifs at h with hfloat hint
  · rw [hfloat]
    decide
  · rw [hint]
    decide

theorem plain_of_parseOp {s : String} {op : ReduceOp} (h : parseOp s = .ok op) :
    Csv.Plain Csv.excel s := by
  unfold parseOp at h
  split_ifs at h with hsum hmin hmax
  · rw [hsum]
    decide
  · rw [hmin]
    decide
  · rw [hmax]
    decide

theorem flatMap_filter {X Y : Type} (p : X → Bool) (f : X → List Y) (xs : List X) :
    (xs.filter p).flatMap f = xs.flatMap fun x => if p x then f x else [] := by
  induction xs with
  | nil => rfl
  | cons x xs ih => by_cases hx : p x <;> simp [hx, ih]

namespace Report

section Held

variable {D : Type} (R : Report D)

theorem small : R.args.maxSize < 2 ^ 63 := by
  have h := R.returned
  cases hH : R.harness with
  | benchAllreduce =>
    rw [hH] at h
    exact h.1.trans (by decide)
  | benchMpiAllreduce =>
    rw [hH] at h
    have hcount : R.args.maxSize / 4 < 2 ^ 31 := h
    omega

def held : List ℕ := R.sizes.filter fun sizeBytes => 4 ≤ sizeBytes

theorem mem_held (sizeBytes : ℕ) : sizeBytes ∈ R.held ↔
    4 ≤ sizeBytes ∧ sizeBytes ≤ R.args.maxSize ∧ ∃ k, sizeBytes = R.args.minSize * 2 ^ k := by
  have hpos := sweep_pos R.sweep_eq
  rw [held, List.mem_filter, mem_sweep R.small hpos R.sweep_eq, decide_eq_true_iff]
  constructor
  · rintro ⟨⟨k, hk, hle⟩, hheld⟩
    exact ⟨hheld, hle, k, hk⟩
  · rintro ⟨hheld, hle, k, hk⟩
    exact ⟨⟨k, hk, hle⟩, hheld⟩

theorem held_sorted : R.held.Pairwise (· < ·) :=
  (sweep_sorted R.small (sweep_pos R.sweep_eq) R.sweep_eq).filter _

end Held

variable {D : Type} [LinearOrder D] (R : Report D)

def rows : List (Row D) :=
  match R.harness with
  | .benchAllreduce => benchRows R.args R.worldSize R.dtype R.times R.sizes
  | .benchMpiAllreduce => mpiRows R.args R.worldSize R.dtype R.times R.sizes

def names : List String :=
  match R.harness with
  | .benchAllreduce => (algos R.args.algo).filter fun algo => !skipped R.worldSize algo
  | .benchMpiAllreduce => ["openmpi"]

def row (sizeBytes : ℕ) (algo : String) : Row D :=
  benchRow R.args R.worldSize R.dtype R.times sizeBytes algo

theorem rows_eq : R.rows = R.held.flatMap fun sizeBytes => R.names.map (R.row sizeBytes) := by
  have hheld : ∀ f : ℕ → List (Row D), R.held.flatMap f = R.sizes.flatMap fun sizeBytes =>
      if sizeBytes / dtypeSize R.dtype = 0 then [] else f sizeBytes := by
    intro f
    rw [held, flatMap_filter]
    refine List.flatMap_congr fun sizeBytes _ => ?_
    rw [dtypeSize_eq]
    by_cases hsize : 4 ≤ sizeBytes
    · rw [if_pos (by simpa using hsize), if_neg (by omega)]
    · rw [if_neg (by simpa using hsize), if_pos (by omega)]
  rw [hheld, rows, names]
  cases R.harness with
  | benchAllreduce =>
    have hnames : ∀ f : String → Row D, ((algos R.args.algo).filter fun algo =>
        !skipped R.worldSize algo).map f = (algos R.args.algo).flatMap fun algo =>
          if skipped R.worldSize algo then [] else [f algo] := by
      intro f
      rw [List.map_eq_flatMap, flatMap_filter]
      refine List.flatMap_congr fun algo _ => ?_
      cases skipped R.worldSize algo <;> rfl
    simp only [hnames]
    rfl
  | benchMpiAllreduce => rfl

def curve (F : Doubles D) (shown : D → D) (algo : String) : List (PlotRow D) :=
  R.held.map fun sizeBytes => (R.row sizeBytes algo).plot F shown

variable {R} {F : Doubles D} {shown : D → D}

theorem curve_sorted (algo : String) :
    (R.curve F shown algo).mergeSort (fun r r' => r.sizeBytes ≤ r'.sizeBytes) =
      R.curve F shown algo := by
  refine List.mergeSort_of_pairwise (List.pairwise_map.mpr ?_)
  refine R.held_sorted.imp fun {s s'} hlt => ?_
  simpa [Row.plot, row, benchRow] using hlt.le

theorem plain_row {r : Row D} (hnames : ∀ a ∈ R.names, Csv.Plain Csv.excel a) (hr : r ∈ R.rows) :
    r.Plain := by
  rw [rows_eq] at hr
  obtain ⟨sizeBytes, -, hr⟩ := List.mem_flatMap.mp hr
  obtain ⟨a, ha, rfl⟩ := List.mem_map.mp hr
  exact ⟨hnames a ha, plain_of_parseDtype R.dtype_eq, plain_of_parseOp R.op_eq⟩

theorem algo_of_mem {r : PlotRow D} (hr : r ∈ R.rows.map (Row.plot F shown)) :
    ∃ a ∈ R.names, r.algo = some a := by
  obtain ⟨row, hrow, rfl⟩ := List.mem_map.mp hr
  rw [rows_eq] at hrow
  obtain ⟨sizeBytes, -, hrow⟩ := List.mem_flatMap.mp hrow
  obtain ⟨a, ha, rfl⟩ := List.mem_map.mp hrow
  exact ⟨a, ha, rfl⟩

theorem groupBy_rows (hnd : R.names.Nodup) :
    Groups.groupBy PlotRow.algo (R.rows.map (Row.plot F shown)) =
      if R.held = [] then [] else R.names.map fun a => (some a, R.curve F shown a) := by
  rw [rows_eq, List.map_flatMap]
  simp only [List.map_map]
  split_ifs with hheld
  · rw [hheld]
    rfl
  · have hkey : ∀ sizeBytes a, ((R.row sizeBytes a).plot F shown).algo = some a := fun _ _ => rfl
    exact Groups.groupBy_grid (Option.some_injective String) hkey hnd hheld

end Report

theorem groupByAlgo_reports {D : Type} [LinearOrder D] {F : Doubles D} {shown : D → D}
    {reports : List (Report D)} (hnames : (reports.flatMap Report.names).Nodup) :
    groupByAlgo ((reports.map Report.rows).flatten.map (Row.plot F shown)) =
      (reports.filter fun R => R.held ≠ []).flatMap fun R =>
        R.names.map fun a => (some a, R.curve F shown a) := by
  induction reports with
  | nil => rfl
  | cons R reports ih =>
    rw [List.flatMap_cons] at hnames
    obtain ⟨hR, hrest, hdisjoint⟩ := List.nodup_append.mp hnames
    have hkeys : ∀ r ∈ R.rows.map (Row.plot F shown),
        ∀ r' ∈ (reports.map Report.rows).flatten.map (Row.plot F shown), r.algo ≠ r'.algo := by
      intro r hr r' hr' he
      obtain ⟨a, ha, hra⟩ := Report.algo_of_mem hr
      rw [List.map_flatten, List.mem_flatten] at hr'
      obtain ⟨rows, hrows, hr'⟩ := hr'
      simp only [List.map_map, List.mem_map] at hrows
      obtain ⟨R', hR', rfl⟩ := hrows
      obtain ⟨a', ha', hra'⟩ := Report.algo_of_mem hr'
      have hmem : a' ∈ reports.flatMap Report.names := List.mem_flatMap.mpr ⟨R', hR', ha'⟩
      refine hdisjoint a ha a' hmem (Option.some.inj ?_)
      rw [← hra, ← hra', he]
    have hfirst : (Groups.groupBy PlotRow.algo (R.rows.map (Row.plot F shown))).map
        (fun g => (g.1, g.2.mergeSort fun r r' => r.sizeBytes ≤ r'.sizeBytes)) =
          if R.held = [] then [] else R.names.map fun a => (some a, R.curve F shown a) := by
      rw [Report.groupBy_rows hR]
      split_ifs
      · rfl
      · rw [List.map_map]
        refine List.map_congr_left fun a _ => ?_
        rw [Function.comp_apply, Report.curve_sorted]
    rw [List.map_cons, List.flatten_cons, List.map_append, groupByAlgo, Groups.groupBy_append hkeys,
      List.map_append, hfirst, ← groupByAlgo, ih hrest]
    by_cases hheld : R.held = [] <;> simp [hheld]

/-- Whatever files the two harnesses have written once their sweeps were through, no two of them for
one algorithm, the script reads them all and draws one curve for each algorithm of each file, with
exactly one point for each size of its sweep that holds an element, by size, and the numbers of the
row that was written. With the arguments of these files `bench_allreduce` does get through. -/
theorem plot_results_exact {D : Type} [LinearOrder D] {F : Doubles D} {shown : D → D}
    (hF : F.Shows shown) (reports : List (Report D))
    (hplain : ∀ R ∈ reports, ∀ a ∈ R.names, Csv.Plain Csv.excel a)
    (hnames : (reports.flatMap Report.names).Nodup) :
    (loadRows F (reports.map fun R => csvFile F R.rows)).map groupByAlgo =
      some ((reports.filter fun R => R.held ≠ []).flatMap fun R =>
        R.names.map fun a => (some a, R.curve F shown a)) ∧
    ∀ R ∈ reports, R.held.Pairwise (· < ·) ∧ (∀ sizeBytes, sizeBytes ∈ R.held ↔
      4 ≤ sizeBytes ∧ sizeBytes ≤ R.args.maxSize ∧ ∃ k, sizeBytes = R.args.minSize * 2 ^ k) ∧
      (∀ sizeBytes a, (R.row sizeBytes a).stats.Describes (R.times.samples sizeBytes a)) ∧
      (R.harness = .benchAllreduce → ∀ {α : Type} (E : Setup R.worldSize) (ops : Ops α)
        (word : UInt8 → α) (m : Fin R.worldSize → Mem α)
        (cap : Fin R.worldSize → Fin R.worldSize → ℕ), (∀ i j, 0 < cap i j) → ∀ s,
        Reaches (fabric R.worldSize α (Comm R.worldSize) Unit cap)
          (startBench E ops word R.args R.dtype R.op R.sizes m) s →
        (∀ r e, (s r).proc ≠ .throw e) ∧
        ∃ e, Reaches (fabric R.worldSize α (Comm R.worldSize) Unit cap) s e ∧
          ∀ r, (e r).proc = .pure ()) := by
  have hload : loadRows F (reports.map fun R => csvFile F R.rows) =
      some ((reports.map Report.rows).flatten.map (Row.plot F shown)) := by
    rw [← loadRows_csvFile hF, List.map_map]
    · rfl
    · intro rows hrows r hr
      obtain ⟨R, hR, rfl⟩ := List.mem_map.mp hrows
      exact Report.plain_row (hplain R hR) hr
  rw [hload, Option.map_some, groupByAlgo_reports hnames]
  refine ⟨rfl, fun R _ => ⟨R.held_sorted, R.mem_held, fun sizeBytes a =>
    computeStats_describes (R.times.pos sizeBytes a), fun hH α E ops word m cap hcap s hs => ?_⟩⟩
  obtain ⟨hmax, hlen, halgo⟩ : Harness.Returns .benchAllreduce R.args R.worldSize R.sizes :=
    hH ▸ R.returned
  have hruns := bench_completes R.ranks hlen hmax E ops word m R.sweep_eq halgo cap hcap hs
  exact ⟨hruns.1, hruns.2.1⟩

def wholeNumbers : Doubles ℕ where
  bandwidthGbps sizeBytes medianUs := sizeBytes / medianUs
  text := toString
  float s := (pyInt s).map Int.toNat

theorem wholeNumbers_shows : wholeNumbers.Shows id where
  plain := plain_toString
  float_text n := by
    simp only [wholeNumbers, pyInt_toString, Option.map_some, Int.toNat_natCast, id]

def smallReport (harness : Harness) : Report ℕ where
  harness := harness
  args := smallSweep
  worldSize := 2
  dtype := .float32
  op := .sum
  fuel := 5
  sizes := [8, 16, 32, 64]
  times := ⟨fun sizeBytes _ => List.range (chooseIters sizeBytes), fun _ _ => List.length_range⟩
  dtype_eq := rfl
  op_eq := rfl
  ranks := by decide
  returned := by
    cases harness with
    | benchAllreduce => exact ⟨by decide, by decide, Or.inl (Or.inl rfl)⟩
    | benchMpiAllreduce => exact (by decide : 64 / 4 < 2 ^ 31)
  sweep_eq := rfl

theorem plot_results_exact_small_reports :
    ∃ curves, (loadRows wholeNumbers
        ([smallReport .benchAllreduce, smallReport .benchMpiAllreduce].map fun R =>
          csvFile wholeNumbers R.rows)).map groupByAlgo = some curves ∧
      curves.map Prod.fst = [some "ring", some "recdouble", some "openmpi"] :=
  ⟨_, (plot_results_exact wholeNumbers_shows
    [smallReport .benchAllreduce, smallReport .benchMpiAllreduce] (by decide) (by decide)).1, rfl⟩

end MicroCcl

import MicroCcl.Sessions

namespace MicroCcl
open Network

/-- `Args`. -/
structure BenchArgs where
  rank : ℤ := -1
  worldSize : ℤ := 2
  rootHost : String := ""
  rootPort : UInt16 := 20400
  algo : String := "both"
  dtypeStr : String := "float32"
  opStr : String := "sum"
  minSize : ℕ := 8
  maxSize : ℕ := 256 * 1024 * 1024
  csvOut : String := ""
  deriving DecidableEq, Repr

def parseDtype (s : String) : Except Exn Dtype :=
  if s = "float32" then .ok .float32
  else if s = "int32" then .ok .int32
  else .error (.runtimeError ("unknown dtype: " ++ s))

def parseOp (s : String) : Except Exn ReduceOp :=
  if s = "sum" then .ok .sum
  else if s = "min" then .ok .min
  else if s = "max" then .ok .max
  else .error (.runtimeError ("unknown op: " ++ s))

def chooseIters (sizeBytes : ℕ) : ℕ :=
  if sizeBytes ≤ 64 * 1024 then 200
  else if sizeBytes ≤ 1024 * 1024 then 50
  else if sizeBytes ≤ 16 * 1024 * 1024 then 20
  else 5

def kWarmup : ℕ := 5

/-- The sizes of the loop `size_bytes *= 2`; `none` if it is not through after `fuel` turns. -/
def sweep : ℕ → ℕ → ℕ → Option (List ℕ)
  | 0, _, _ => none
  | fuel + 1, sizeBytes, maxSize =>
    if sizeBytes ≤ maxSize then (sweep fuel (szMul sizeBytes 2) maxSize).map (sizeBytes :: ·)
    else some []

theorem sweep_zero (fuel maxSize : ℕ) : sweep fuel 0 maxSize = none := by
  induction fuel with
  | zero => rfl
  | succ fuel ih => simp [sweep, szMul, ih]

theorem sweep_pos {fuel minSize maxSize : ℕ} {sizes : List ℕ}
    (h : sweep fuel minSize maxSize = some sizes) : 0 < minSize := by
  by_contra h0
  rw [show minSize = 0 by omega, sweep_zero] at h
  cases h

section Sweep

variable {maxSize : ℕ} (hmax : maxSize < 2 ^ 63)
include hmax

theorem szMul_two {sizeBytes : ℕ} (hle : sizeBytes ≤ maxSize) : szMul sizeBytes 2 = sizeBytes * 2 :=
  Nat.mod_eq_of_lt (by omega)

theorem sweep_ends {fuel sizeBytes : ℕ} (hfuel : maxSize < sizeBytes * 2 ^ fuel) :
    ∃ sizes, sweep (fuel + 1) sizeBytes maxSize = some sizes := by
  induction fuel generalizing sizeBytes with
  | zero => exact ⟨[], by rw [sweep, if_neg (by omega)]⟩
  | succ fuel ih =>
    by_cases hle : sizeBytes ≤ maxSize
    · have hdouble : maxSize < szMul sizeBytes 2 * 2 ^ fuel := by
        rwa [szMul_two hmax hle, Nat.mul_assoc, ← Nat.pow_succ']
      obtain ⟨sizes, hsizes⟩ := ih hdouble
      exact ⟨sizeBytes :: sizes, by rw [sweep, if_pos hle, hsizes]; rfl⟩
    · exact ⟨[], by rw [sweep, if_neg hle]⟩

theorem mem_sweep {fuel sizeBytes : ℕ} {sizes : List ℕ} (hpos : 0 < sizeBytes)
    (h : sweep fuel sizeBytes maxSize = some sizes) (s : ℕ) :
    s ∈ sizes ↔ ∃ k, s = sizeBytes * 2 ^ k ∧ s ≤ maxSize := by
  induction fuel generalizing sizeBytes sizes with
  | zero => simp [sweep] at h
  | succ fuel ih =>
    unfold sweep at h
    split_ifs at h with hle
    · rw [szMul_two hmax hle] at h
      obtain ⟨rest, hrest, rfl⟩ := Option.map_eq_some_iff.mp h
      rw [List.mem_cons, ih (by omega) hrest]
      constructor
      · rintro (rfl | ⟨k, rfl, hk⟩)
        · exact ⟨0, by simp, hle⟩
        · exact ⟨k + 1, by rw [Nat.pow_succ', Nat.mul_assoc], hk⟩
      · rintro ⟨_ | k, rfl, hk⟩
        · exact Or.inl (by simp)
        · exact Or.inr ⟨k, by rw [Nat.pow_succ', Nat.mul_assoc], hk⟩
    · obtain rfl := Option.some.inj h
      constructor
      · simp
      · rintro ⟨k, rfl, hk⟩
        have := Nat.le_mul_of_pos_right sizeBytes (Nat.two_pow_pos k)
        omega

theorem sweep_sorted {fuel sizeBytes : ℕ} {sizes : List ℕ} (hpos : 0 < sizeBytes)
    (h : sweep fuel sizeBytes maxSize = some sizes) : sizes.Pairwise (· < ·) := by
  induction fuel generalizing sizeBytes sizes with
  | zero => simp [sweep] at h
  | succ fuel ih =>
    unfold sweep at h
    split_ifs at h with hle
    · rw [szMul_two hmax hle] at h
      obtain ⟨rest, hrest, rfl⟩ := Option.map_eq_some_iff.mp h
      refine List.pairwise_cons.mpr ⟨fun s hs => ?_, ih (by omega) hrest⟩
      obtain ⟨k, rfl, -⟩ := (mem_sweep hmax (by omega) hrest s).mp hs
      have := Nat.le_mul_of_pos_right (sizeBytes * 2) (Nat.two_pow_pos k)
      omega
    · obtain rfl := Option.some.inj h
      exact .nil

theorem sweep_stops {minSize : ℕ} (hpos : 0 < minSize) :
    ∃ sizes, sweep 64 minSize maxSize = some sizes := by
  have hfuel : maxSize < minSize * 2 ^ 63 := hmax.trans_le (Nat.le_mul_of_pos_left _ hpos)
  exact sweep_ends hmax hfuel

end Sweep

/-- The sweep ends if and only if it does not start at 0 bytes. Then it runs through exactly the
sizes `min_size * 2 ^ k` up to `max_size`, in increasing order, in at most 64 turns. -/
theorem sweep_exact {minSize maxSize : ℕ} (hmax : maxSize < 2 ^ 63) :
    ((∃ fuel sizes, sweep fuel minSize maxSize = some sizes) ↔ 0 < minSize) ∧
    (0 < minSize → ∃ sizes, sweep 64 minSize maxSize = some sizes ∧ sizes.Pairwise (· < ·) ∧
      ∀ s, s ∈ sizes ↔ ∃ k, s = minSize * 2 ^ k ∧ s ≤ maxSize) := by
  refine ⟨⟨?_, fun hpos => ⟨64, sweep_stops hmax hpos⟩⟩, fun hpos => ?_⟩
  · rintro ⟨fuel, sizes, h⟩
    exact sweep_pos h
  · obtain ⟨sizes, hsizes⟩ := sweep_stops hmax hpos
    exact ⟨sizes, hsizes, sweep_sorted hmax hpos hsizes, mem_sweep hmax hpos hsizes⟩

theorem sweep_exact_defaults :
    ∃ sizes, sweep 64 8 (256 * 1024 * 1024) = some sizes ∧ 8 * 2 ^ 25 ∈ sizes := by
  have hmax : 256 * 1024 * 1024 < 2 ^ 63 := by decide
  obtain ⟨sizes, hsizes, -, hmem⟩ := (sweep_exact hmax).2 (show 0 < 8 by decide)
  exact ⟨sizes, hsizes, (hmem _).mpr ⟨25, rfl, by decide⟩⟩

section Program

variable {P : ℕ} {α : Type} (word : UInt8 → α) (args : BenchArgs) (dtype : Dtype) (op : ReduceOp)

def algos (algo : String) : List String :=
  if algo = "both" then ["ring", "recdouble"] else [algo]

def skipped (P : ℕ) (algo : String) : Bool := algo == "recdouble" && (P &&& (P - 1)) != 0

/-- Buffer 0 is `data`, buffer 1 is `scratch`, both of `max_size` bytes. -/
def benchArgs (sizeBytes : ℕ) : AllreduceArgs where
  dataMr := ⟨0, args.maxSize⟩
  data := 0
  count := sizeBytes / dtypeSize dtype
  dtype := dtype
  op := op
  scratchMr := ⟨1, args.maxSize⟩
  scratch := 1
  scratchCapacityElems := args.maxSize / dtypeSize dtype

def benchCall (algo : String) (sizeBytes : ℕ) : Call P :=
  if algo = "ring" then .allreduceRing fun _ => benchArgs args dtype op sizeBytes
  else .allreduceRecursiveDoubling fun _ => benchArgs args dtype op sizeBytes

def fillBytes (sizeBytes it : ℕ) (R : Fin P) (m : Mem α) : Mem α := fun b i =>
  if b = 0 ∧ i < sizeBytes / dtypeSize dtype then word (UInt8.ofNat (R + it)) else m b i

def benchPair (sizeBytes : ℕ) (algo : String) : List (Work P α) :=
  .call .barrier :: (List.range (kWarmup + chooseIters sizeBytes)).flatMap fun it =>
    [.touch (fillBytes word dtype sizeBytes it), .call (benchCall args dtype op algo sizeBytes)]

def benchSize (sizeBytes : ℕ) : List (Work P α) :=
  if sizeBytes / dtypeSize dtype = 0 then []
  else (algos args.algo).flatMap fun algo =>
    if skipped P algo then [] else benchPair word args dtype op sizeBytes algo

def benchWorks (sizes : List ℕ) : List (Work P α) :=
  sizes.flatMap (benchSize word args dtype op)

end Program

section Runs

variable {P : ℕ} {α : Type} {args : BenchArgs} {dtype : Dtype} {op : ReduceOp}

/-- The names that the harness tells apart. Any other name runs recursive doubling, for every
world size. -/
def KnownAlgo (algo : String) : Prop := algo = "both" ∨ algo = "ring" ∨ algo = "recdouble"

theorem exists_two_pow_of_not_skipped (hP : 0 < P) (h : (P &&& (P - 1)) = 0) : ∃ m, P = 2 ^ m := by
  apply exists_two_pow_of_isPowerOfTwo
  simp [isPowerOfTwo, hP, h]

theorem benchArgs_ready {sizeBytes largest : ℕ} (hmax : args.maxSize < 2 ^ 32)
    (hsize : sizeBytes ≤ args.maxSize) (hlargest : largest ≤ sizeBytes / 4) :
    Ready (fun _ : Fin P => benchArgs args dtype op sizeBytes) (sizeBytes / 4) dtype op
      largest where
  count_eq _ := by simp only [benchArgs, dtypeSize_eq]
  dtype_eq _ := rfl
  op_eq _ := rfl
  fits _ := (Nat.div_mul_le_self _ _).trans hsize
  size _ := by
    change args.maxSize < 2 ^ 64
    omega
  apart _ := Nat.zero_ne_one
  scratch _ := by
    simp only [benchArgs, dtypeSize_eq]
    omega
  short := by omega

theorem benchCall_ready {algo : String} {sizeBytes : ℕ} (hmax : args.maxSize < 2 ^ 32)
    (hsize : sizeBytes ≤ args.maxSize) (hpow : algo = "ring" ∨ ∃ m, P = 2 ^ m) :
    (benchCall (P := P) args dtype op algo sizeBytes).Ready := by
  unfold benchCall
  split_ifs with hring
  · refine ⟨sizeBytes / 4, dtype, op, benchArgs_ready hmax hsize ?_⟩
    -- a chunk is not larger than the whole
    obtain rfl | hP := Nat.eq_zero_or_pos P
    · simp
    · rw [Nat.div_le_iff_le_mul_add_pred hP]
      have := Nat.le_mul_of_pos_left (sizeBytes / 4) hP
      omega
  · exact ⟨hpow.resolve_left hring, sizeBytes / 4, dtype, op, benchArgs_ready hmax hsize le_rfl⟩

theorem benchPair_ready (word : UInt8 → α) {algo : String} {sizeBytes : ℕ}
    (hmax : args.maxSize < 2 ^ 32) (hsize : sizeBytes ≤ args.maxSize)
    (hpow : algo = "ring" ∨ ∃ m, P = 2 ^ m) :
    ∀ w ∈ benchPair (P := P) word args dtype op sizeBytes algo, w.Ready := by
  intro w hw
  rcases List.mem_cons.mp hw with rfl | hw
  · trivial
  · obtain ⟨it, -, hw⟩ := List.mem_flatMap.mp hw
    simp only [List.mem_cons, List.not_mem_nil, or_false] at hw
    rcases hw with rfl | rfl
    · trivial
    · exact benchCall_ready hmax hsize hpow

theorem benchWorks_ready (hP : 0 < P) (word : UInt8 → α) {sizes : List ℕ}
    (hmax : args.maxSize < 2 ^ 32) (hsizes : ∀ s ∈ sizes, s ≤ args.maxSize)
    (halgo : KnownAlgo args.algo ∨ (∃ m, P = 2 ^ m) ∨ ∀ s ∈ sizes, s < 4) :
    ∀ w ∈ benchWorks (P := P) word args dtype op sizes, w.Ready := by
  intro w hw
  obtain ⟨size, hs, hw⟩ := List.mem_flatMap.mp hw
  unfold benchSize at hw
  split_ifs at hw with hzero
  · simp at hw
  · obtain ⟨algo, hmem, hw⟩ := List.mem_flatMap.mp hw
    split_ifs at hw with hskip
    · simp at hw
    · refine benchPair_ready word hmax (hsizes size hs) ?_ w hw
      rw [dtypeSize_eq] at hzero
      rcases halgo with hknown | hpow | hsmall
      · -- recursive doubling is not skipped for powers of two only
        have hname : algo = "ring" ∨ algo = "recdouble" := by
          unfold algos at hmem
          rcases hknown with h | h | h
          · simpa [h] using hmem
          · exact Or.inl (by simpa [h] using hmem)
          · exact Or.inr (by simpa [h] using hmem)
        rcases hname with rfl | rfl
        · exact Or.inl rfl
        · exact Or.inr (exists_two_pow_of_not_skipped hP (by simpa [skipped] using hskip))
      · exact Or.inr hpow
      · have := hsmall size hs
        omega

theorem benchWorks_meetsFirst (word : UInt8 → α) (sizes : List ℕ) :
    MeetsFirst (benchWorks (P := P) word args dtype op sizes) := by
  have hpairs : ∀ sizeBytes (names : List String) (rest : List (Work P α)), MeetsFirst rest →
      MeetsFirst ((names.flatMap fun algo => if skipped P algo then [] else
        benchPair word args dtype op sizeBytes algo) ++ rest) := by
    intro sizeBytes names rest hrest
    induction names with
    | nil => exact hrest
    | cons algo names ih =>
      rw [List.flatMap_cons]
      split_ifs
      · exact ih
      · exact rfl
  induction sizes with
  | nil => trivial
  | cons size sizes ih =>
    change MeetsFirst (benchSize word args dtype op size ++ benchWorks word args dtype op sizes)
    unfold benchSize
    split_ifs
    · exact ih
    · exact hpairs size _ _ ih

/-- `bench_allreduce` on rank `R`, once its arguments are parsed and its sweep is known. What it
measures is left out. -/
def bench (E : Setup P) (ops : Ops α) (word : UInt8 → α) (args : BenchArgs) (dtype : Dtype)
    (op : ReduceOp) (sizes : List ℕ) (R : Fin P) : Proc P α (Comm P) Unit :=
  session E ops R (benchWorks word args dtype op sizes)

def startBench (E : Setup P) (ops : Ops α) (word : UInt8 → α) (args : BenchArgs) (dtype : Dtype)
    (op : ReduceOp) (sizes : List ℕ) (m : Fin P → Mem α) : Fin P → RankState P α (Comm P) Unit :=
  startSession E ops (benchWorks word args dtype op sizes) m

section Throws

variable {cap : Fin P → Fin P → ℕ} (hcap : ∀ i j, 0 < cap i j) (hlen : P * (P - 1) < 2 ^ 32)
  (E : Setup P) (ops : Ops α) (word : UInt8 → α) {sizes : List ℕ}
  (hknown : ¬ KnownAlgo args.algo) (hpow : ¬ ∃ m, P = 2 ^ m) (hlarge : ∃ s ∈ sizes, 4 ≤ s)
include hcap hlen hknown hpow hlarge

end Throws

theorem sizes_le_maxSize (hmax : args.maxSize < 2 ^ 32) {fuel : ℕ} {sizes : List ℕ}
    (hsweep : sweep fuel args.minSize args.maxSize = some sizes) :
    ∀ s ∈ sizes, s ≤ args.maxSize := by
  intro s hs
  obtain ⟨k, -, hle⟩ := (mem_sweep (by omega) (sweep_pos hsweep) hsweep s).mp hs
  exact hle

theorem bench_completes (hP : 0 < P) (hlen : P * (P - 1) < 2 ^ 32) (hmax : args.maxSize < 2 ^ 32)
    (E : Setup P) (ops : Ops α) (word : UInt8 → α) (m : Fin P → Mem α) {fuel : ℕ} {sizes : List ℕ}
    (hsweep : sweep fuel args.minSize args.maxSize = some sizes)
    (halgo : KnownAlgo args.algo ∨ (∃ m, P = 2 ^ m) ∨ ∀ s ∈ sizes, s < 4)
    (cap : Fin P → Fin P → ℕ) (hcap : ∀ i j, 0 < cap i j)
    {s : Fin P → RankState P α (Comm P) Unit}
    (hs : Reaches (fabric P α (Comm P) Unit cap) (startBench E ops word args dtype op sizes m) s) :
    (∀ r e, (s r).proc ≠ .throw e) ∧
    (∃ e, Reaches (fabric P α (Comm P) Unit cap) s e ∧ ∀ r, (e r).proc = .pure ()) ∧
    ∀ r, (s r).HasPosted → ∀ x q, q ≠ x →
      ∃ qp, (s x).loc.vars.qps q = some qp ∧ qp.state = .rts := by
  have hready : ∀ w ∈ benchWorks (P := P) word args dtype op sizes, w.Ready :=
    benchWorks_ready hP word hmax (sizes_le_maxSize hmax hsweep) halgo
  obtain ⟨x', -, hleads⟩ :=
    session_leads hcap hlen E hready ops fun r => (⟨m r, Comm.empty⟩ : Local α (Comm P))
  have hd := fun r => session_disciplined E hready ops r
  refine ⟨hleads.never_throws hd hs, ?_, fun r hr x q hq => ?_⟩
  · obtain ⟨e, he, hq⟩ := hleads.settles hd hs
    exact ⟨e, he, fun r => (hq r).proc⟩
  · exact session_connected cap hcap hlen E hready (benchWorks_meetsFirst word sizes) ops m hs hr
      x q hq

end Runs

def smallSweep : BenchArgs := { maxSize := 64 }

end MicroCcl

import MicroCcl.SerialReduce
import MicroCcl.Sessions

namespace MicroCcl
open Network

variable {P : ℕ}

def overall (codes : List (BitVec 32)) : BitVec 32 :=
  codes.foldl (fun overall code => if code ≠ 0 then 1 else overall) 0

theorem overall_eq (codes : List (BitVec 32)) :
    overall codes = if ∀ code ∈ codes, code = 0 then 0 else 1 := by
  induction codes using List.reverseRecOn with
  | nil => simp [overall]
  | append_singleton codes code ih =>
    rw [overall] at ih ⊢
    rw [List.foldl_append, List.foldl_cons, List.foldl_nil, ih]
    by_cases hcode : code = 0
    · simp [hcode, or_imp]
    · rw [if_pos hcode, if_neg fun h => hcode (h code (by simp))]

theorem overall_const (hP : 0 < P) {code : BitVec 32} (h : code = 0 ∨ code = 1) :
    overall (List.ofFn fun _ : Fin P => code) = code := by
  have hall : (∀ c ∈ List.ofFn fun _ : Fin P => code, c = 0) ↔ code = 0 := by
    simp only [List.forall_mem_ofFn_iff]
    exact ⟨fun hc => hc ⟨0, hP⟩, fun hc _ => hc⟩
  rw [overall_eq]
  obtain rfl | rfl := h
  · exact if_pos (hall.mpr rfl)
  · exact if_neg fun hc => absurd (hall.mp hc) (by decide)

namespace AllreduceTest

/-- The buffers of `run_rank` are `data`, `scratch`, `rd_scratch` and `gather_buf`, and one for the
code that the rank returns. -/
def codeBuf : Buf := 4

def fillValue (rank i : ℕ) : ℤ := (rank + 1) * 3 - (i % 11 : ℕ)

def fill (count : ℕ) (rank : Fin P) (m : Mem (BitVec 32)) : Mem (BitVec 32) := fun b i =>
  if b = 0 ∧ i < count then BitVec.ofInt 32 (fillValue rank i) else m b i

def expectedSumAt (P i : ℕ) : BitVec 32 :=
  BitVec.ofInt 32 ((List.range P).foldl (fun total r => total + fillValue r i) 0)

def check (P count : ℕ) (m : Mem (BitVec 32)) : Bool :=
  (List.range count).all fun i => m 0 i == expectedSumAt P i

def segmentValue (rank i : ℕ) : BitVec 32 := BitVec.ofNat 32 (rank * 1000 + i)

def fillSegment (sendCount : ℕ) (rank : Fin P) (m : Mem (BitVec 32)) : Mem (BitVec 32) := fun b i =>
  if b = 3 ∧ rank * sendCount ≤ i ∧ i < rank * sendCount + sendCount then
    segmentValue rank (i - rank * sendCount)
  else m b i

def checkSegments (P sendCount : ℕ) (m : Mem (BitVec 32)) : Bool :=
  (List.range P).all fun r => (List.range sendCount).all fun i =>
    m 3 (r * sendCount + i) == segmentValue r i

def verify (passes : Mem (BitVec 32) → Bool) (m : Mem (BitVec 32)) : Mem (BitVec 32) :=
  if passes m then m else Function.update m codeBuf fun _ => 1

def ringArgs (P count : ℕ) : AllreduceArgs :=
  let maxChunk := (count + P - 1) / P
  ⟨⟨0, szMul count 4⟩, 0, count, .int32, .sum, ⟨1, szMul maxChunk 4⟩, 1, maxChunk⟩

def doublingArgs (count : ℕ) : AllreduceArgs :=
  ⟨⟨0, szMul count 4⟩, 0, count, .int32, .sum, ⟨2, szMul count 4⟩, 2, count⟩

def gatherArgs (P sendCount : ℕ) : AllgatherArgs :=
  ⟨⟨3, szMul (szMul sendCount P) 4⟩, 3, sendCount, .int32⟩

def stage (f : Fin P → Mem (BitVec 32) → Mem (BitVec 32)) (c : Call P)
    (passes : Mem (BitVec 32) → Bool) : List (Work P (BitVec 32)) :=
  [.touch f, .call .barrier, .call c, .touch fun _ => verify passes]

/-- The body of `run_rank`, once the communicator is made. -/
def runRankWorks (count sendCount : ℕ) : List (Work P (BitVec 32)) :=
  stage (fill count) (.allreduceRing fun _ => ringArgs P count) (check P count) ++
    stage (fill count) (.allreduceRecursiveDoubling fun _ => doublingArgs count) (check P count) ++
    stage (fillSegment sendCount) (.allgather fun _ => gatherArgs P sendCount)
      (checkSegments P sendCount)

def startRunRank (E : Setup P) (fadd : BitVec 32 → BitVec 32 → BitVec 32) (count sendCount : ℕ) :
    Fin P → RankState P (BitVec 32) (Comm P) Unit :=
  startSession E (machine fadd).combine (runRankWorks count sendCount) fun _ _ _ => 0

def exitCode (st : RankState P (BitVec 32) (Comm P) Unit) : Option (BitVec 32) :=
  match st.proc with
  | .pure _ => some (st.loc.mem codeBuf 0)
  | .throw _ => some 1
  | _ => none

theorem exitCode_cases {st : RankState P (BitVec 32) (Comm P) Unit} {c : BitVec 32}
    (h : exitCode st = some c) :
    (st.proc = .pure () ∧ c = st.loc.mem codeBuf 0) ∨ ∃ e, st.proc = .throw e ∧ c = 1 := by
  unfold exitCode at h
  split at h
  next u hp => exact Or.inl ⟨hp, (Option.some.inj h).symm⟩
  next e hp => exact Or.inr ⟨e, hp, (Option.some.inj h).symm⟩
  next => cases h

theorem ofInt_sum_toInt {X : Type} (v : X → ℤ) (qs : List X) :
    BitVec.ofInt 32 (qs.map fun q => (BitVec.ofInt 32 (v q)).toInt).sum =
      BitVec.ofInt 32 (qs.map v).sum := by
  induction qs with
  | nil => rfl
  | cons q qs ih =>
    rw [List.map_cons, List.map_cons, List.sum_cons, List.sum_cons, BitVec.ofInt_add,
      BitVec.ofInt_add, ih, BitVec.ofInt_toInt]

theorem expectedSumAt_of_serialValue {i : ℕ} {y : BitVec 32}
    (h : SerialValue .sum (fun q : Fin P => BitVec.ofInt 32 (fillValue q i)) y) :
    y = expectedSumAt P i := by
  have hserial : ∑ q : Fin P, (BitVec.ofInt 32 (fillValue q i)).toInt =
      ((List.range P).map fun q => (BitVec.ofInt 32 (fillValue q i)).toInt).sum := by
    rw [← List.map_coe_finRange_eq_range, List.map_map, ← List.sum_ofFn, List.ofFn_eq_map]
    rfl
  have hloop : (List.range P).foldl (fun total r => total + fillValue r i) 0 =
      ((List.range P).map fun r => fillValue r i).sum := by
    rw [List.sum_eq_foldl, List.foldl_map]
  rw [expectedSumAt, hloop, ← ofInt_sum_toInt, ← hserial]
  exact h

/-- The call gives what its check wants and leaves the code alone. -/
def Passes (ops : Ops (BitVec 32)) (f : Fin P → Mem (BitVec 32) → Mem (BitVec 32)) (c : Call P)
    (passes : Mem (BitVec 32) → Bool) : Prop :=
  ∀ l l' : Fin P → Local (BitVec 32) (Comm P),
    c.Spec ops (fun r => leave (enter { l r with mem := f r (l r).mem })) l' → ∀ r,
      passes (l' r).mem = true ∧ (l' r).mem codeBuf 0 = (l r).mem codeBuf 0

theorem stage_code {ops : Ops (BitVec 32)} {f : Fin P → Mem (BitVec 32) → Mem (BitVec 32)}
    {c : Call P} {passes : Mem (BitVec 32) → Bool} (hne : c ≠ .barrier)
    (h : Passes ops f c passes) {l l' : Fin P → Local (BitVec 32) (Comm P)}
    (hspec : worksSpec ops (stage f c passes) l l') (r : Fin P) :
    (l' r).mem codeBuf 0 = (l r).mem codeBuf 0 := by
  obtain ⟨_, rfl, _, rfl, l₁, hcall, _, rfl, rfl⟩ := hspec
  rw [Work.spec_of_ne hne] at hcall
  obtain ⟨hpasses, hcode⟩ := h l l₁ hcall r
  change verify passes (l₁ r).mem codeBuf 0 = _
  rw [verify, if_pos hpasses, hcode]

section Stages

variable {count sendCount : ℕ} {fadd : BitVec 32 → BitVec 32 → BitVec 32}

theorem allreduce_passes {a : Fin P → AllreduceArgs}
    {value : (Fin P → BitVec 32) → ℕ → Fin P → BitVec 32 → Prop}
    {l l' : Fin P → Local (BitVec 32) (Comm P)} (hdata : ∀ r, (a r).data = 0)
    (hcount : ∀ r, (a r).count = count) (hscratch : ∀ r, codeBuf ≠ (a r).scratch)
    (hvalue : ∀ x i r y, i < count → value x i r y → SerialValue .sum x y)
    (hspec : AllreduceSpec a value
      (fun r => leave (enter { l r with mem := fill count r (l r).mem })) l') (r : Fin P) :
    check P count (l' r).mem = true ∧ (l' r).mem codeBuf 0 = (l r).mem codeBuf 0 := by
  obtain ⟨-, hresult, hframe⟩ := hspec r
  refine ⟨?_, ?_⟩
  · rw [check, List.all_eq_true]
    intro i hi
    have hi := List.mem_range.mp hi
    have hserial := hvalue _ _ _ _ hi (hresult i (by rwa [hcount]))
    simp only [leave, enter, hdata, fill, hi, and_self, if_true] at hserial
    exact beq_iff_eq.mpr (expectedSumAt_of_serialValue hserial)
  · rw [hframe codeBuf 0 (hscratch r) (by rw [hdata]; intro h; cases h)]
    change fill count r (l r).mem codeBuf 0 = _
    rw [fill, if_neg (by simp [codeBuf])]

theorem ring_passes : Passes (P := P) (machine fadd).combine (fill count)
    (.allreduceRing fun _ => ringArgs P count) (check P count) := by
  intro l l' hspec r
  rw [Call.Spec] at hspec
  refine allreduce_passes (a := fun _ => ringArgs P count) (fun _ => rfl) (fun _ => rfl)
    (fun _ => by simp [ringArgs, codeBuf]) (fun x i q y hi hvalue => ?_) hspec r
  obtain ⟨c, hc, hin⟩ := exists_inChunk hi r.pos
  rw [hvalue ⟨c, hc⟩ hin]
  exact serialValue_ringFold fadd x .sum ⟨c, hc⟩

theorem doubling_passes {m : ℕ} (hP : P = 2 ^ m) :
    Passes (P := P) (machine fadd).combine (fill count)
      (.allreduceRecursiveDoubling fun _ => doublingArgs count) (check P count) := by
  intro l l' hspec r
  rw [Call.Spec] at hspec
  refine allreduce_passes (a := fun _ => doublingArgs count) (fun _ => rfl) (fun _ => rfl)
    (fun _ => by simp [doublingArgs, codeBuf]) (fun x i q y _ hvalue => ?_) hspec r
  rw [hvalue m hP]
  exact serialValue_xorTree fadd x hP .sum q

theorem gather_passes {ops : Ops (BitVec 32)} : Passes (P := P) ops (fillSegment sendCount)
    (.allgather fun _ => gatherArgs P sendCount) (checkSegments P sendCount) := by
  intro l l' hspec r
  obtain ⟨-, hresult, hframe⟩ := hspec r
  refine ⟨?_, ?_⟩
  · simp only [checkSegments, List.all_eq_true, List.mem_range, beq_iff_eq]
    intro q hq i hi
    have hgot := hresult ⟨q, hq⟩ i hi
    simp only [leave, enter, gatherArgs, fillSegment] at hgot
    rw [hgot, if_pos ⟨trivial, by omega, by omega⟩, Nat.add_sub_cancel_left]
  · rw [hframe codeBuf 0 (by intro h; cases h)]
    change fillSegment sendCount r (l r).mem codeBuf 0 = _
    rw [fillSegment, if_neg (by simp [codeBuf])]

theorem runRankWorks_code {m : ℕ} (hP : P = 2 ^ m) {l l' : Fin P → Local (BitVec 32) (Comm P)}
    (h : worksSpec (machine fadd).combine (runRankWorks count sendCount) l l') (r : Fin P) :
    (l' r).mem codeBuf 0 = (l r).mem codeBuf 0 := by
  obtain ⟨l₂, h₂, h₃⟩ := worksSpec_append.mp h
  obtain ⟨l₁, h₁, h₂⟩ := worksSpec_append.mp h₂
  rw [stage_code (by simp) gather_passes h₃, stage_code (by simp) (doubling_passes hP) h₂,
    stage_code (by simp) ring_passes h₁]

end Stages

section Args

variable {count sendCount : ℕ}

theorem ringArgs_ready (hP : 0 < P) (hcount : count * 4 < 2 ^ 32) :
    Ready (fun _ : Fin P => ringArgs P count) count .int32 .sum ((count + P - 1) / P) where
  count_eq _ := rfl
  dtype_eq _ := rfl
  op_eq _ := rfl
  fits _ := (Nat.mod_eq_of_lt (show count * 4 < 2 ^ 64 by omega)).ge
  size _ := Nat.mod_lt _ (by decide)
  apart _ := Nat.zero_ne_one
  scratch _ := Or.inr le_rfl
  short := by
    have hchunk : (count + P - 1) / P ≤ count := by
      rw [Nat.div_le_iff_le_mul_add_pred hP]
      have := Nat.le_mul_of_pos_left count hP
      omega
    exact Or.inr (by omega)

theorem doublingArgs_ready (hcount : count * 4 < 2 ^ 32) :
    Ready (fun _ : Fin P => doublingArgs count) count .int32 .sum count where
  count_eq _ := rfl
  dtype_eq _ := rfl
  op_eq _ := rfl
  fits _ := (Nat.mod_eq_of_lt (show count * 4 < 2 ^ 64 by omega)).ge
  size _ := Nat.mod_lt _ (by decide)
  apart _ := Nat.zero_ne_add_one 1
  scratch _ := Or.inr le_rfl
  short := Or.inr hcount

theorem gatherArgs_ready (hsend : P * sendCount * 4 < 2 ^ 64) (hshort : sendCount * 4 < 2 ^ 32) :
    AllgatherReady (fun _ : Fin P => gatherArgs P sendCount) sendCount where
  count_eq _ := rfl
  fits _ := by
    simp only [gatherArgs, szMul]
    rw [Nat.mod_mul_mod, Nat.mul_comm sendCount, Nat.mod_eq_of_lt hsend]
  size _ := Nat.mod_lt _ (by decide)
  short := Or.inr hshort

theorem stage_ready {f : Fin P → Mem (BitVec 32) → Mem (BitVec 32)} {c : Call P}
    {passes : Mem (BitVec 32) → Bool} (hc : c.Ready) : ∀ w ∈ stage f c passes, w.Ready := by
  intro w hw
  simp only [stage, List.mem_cons, List.not_mem_nil, or_false] at hw
  rcases hw with rfl | rfl | rfl | rfl
  · trivial
  · trivial
  · exact hc
  · trivial

theorem runRankWorks_ready {m : ℕ} (hP : P = 2 ^ m) (hcount : count * 4 < 2 ^ 32)
    (hsend : P * sendCount * 4 < 2 ^ 64) (hshort : sendCount * 4 < 2 ^ 32) :
    ∀ w ∈ runRankWorks (P := P) count sendCount, w.Ready := by
  have hpos : 0 < P := hP ▸ Nat.two_pow_pos m
  have hring : (Call.allreduceRing fun _ : Fin P => ringArgs P count).Ready :=
    ⟨count, .int32, .sum, ringArgs_ready hpos hcount⟩
  have hdouble : (Call.allreduceRecursiveDoubling fun _ : Fin P => doublingArgs count).Ready :=
    ⟨⟨m, hP⟩, count, .int32, .sum, doublingArgs_ready hcount⟩
  have hgather : (Call.allgather fun _ : Fin P => gatherArgs P sendCount).Ready :=
    ⟨sendCount, gatherArgs_ready hsend hshort⟩
  intro w hw
  rcases List.mem_append.mp hw with hw | hw
  · rcases List.mem_append.mp hw with hw | hw
    · exact stage_ready hring w hw
    · exact stage_ready hdouble w hw
  · exact stage_ready hgather w hw

/-- In a world that is no power of two the second collective is refused. -/
theorem runRankWorks_refused (sendCount : ℕ) (hP : 0 < P) (hcount : count * 4 < 2 ^ 32) :
    ∃ ws vs, runRankWorks (P := P) count sendCount =
      ws ++ .call (.allreduceRecursiveDoubling fun _ => doublingArgs count) :: vs ∧
      ∀ w ∈ ws, w.Ready := by
  have hring : (Call.allreduceRing fun _ : Fin P => ringArgs P count).Ready :=
    ⟨count, .int32, .sum, ringArgs_ready hP hcount⟩
  refine ⟨stage (fill count) (.allreduceRing fun _ => ringArgs P count) (check P count) ++
    [.touch (fill count), .call .barrier], _, rfl, fun w hw => ?_⟩
  rcases List.mem_append.mp hw with hw | hw
  · exact stage_ready hring w hw
  · simp only [List.mem_cons, List.not_mem_nil, or_false] at hw
    rcases hw with rfl | rfl <;> trivial

end Args

/-- In every run all processes exit alike, and the parent with them: with 0 if the number of ranks
is a power of two, whatever the interleaving and however floats are added, and with 1 otherwise. -/
theorem allreduce_test_code (hP : 0 < P) (hlen : P * (P - 1) < 2 ^ 32) {count sendCount : ℕ}
    (hcount : count * 4 < 2 ^ 32) (hsend : P * sendCount * 4 < 2 ^ 64)
    (hshort : sendCount * 4 < 2 ^ 32) (E : Setup P) (fadd : BitVec 32 → BitVec 32 → BitVec 32)
    (cap : Fin P → Fin P → ℕ) (hcap : ∀ i j, 0 < cap i j)
    {s : Fin P → RankState P (BitVec 32) (Comm P) Unit}
    (hs : Reaches (fabric P (BitVec 32) (Comm P) Unit cap) (startRunRank E fadd count sendCount)
      s) :
    (∀ r c, exitCode (s r) = some c → c = if isPowerOfTwo P then 0 else 1) ∧
    ∃ e codes, Reaches (fabric P (BitVec 32) (Comm P) Unit cap) s e ∧
      (∀ r, exitCode (e r) = some (codes r)) ∧
      overall (List.ofFn codes) = if isPowerOfTwo P then 0 else 1 := by
  by_cases hpow : isPowerOfTwo P = true
  · rw [if_pos hpow]
    obtain ⟨m, hm⟩ := exists_two_pow_of_isPowerOfTwo hpow
    have hready := runRankWorks_ready hm hcount hsend hshort
    obtain ⟨x', hspec, hleads⟩ := session_leads hcap hlen E hready (machine fadd).combine
      fun r => (⟨fun _ _ => 0, Comm.empty⟩ : Local (BitVec 32) (Comm P))
    have hd := fun r => session_disciplined E hready (machine fadd).combine r
    have hcode : ∀ r, (x' r).mem codeBuf 0 = 0 := fun r => runRankWorks_code hm hspec r
    refine ⟨fun r c hc => ?_, ?_⟩
    · rcases exitCode_cases hc with ⟨hr, rfl⟩ | ⟨y, hy, -⟩
      · rw [(hleads.result hd hs hr).2, hcode]
      · exact absurd hy (hleads.never_throws hd hs r y)
    · obtain ⟨e, he, hq⟩ := hleads.settles hd hs
      refine ⟨e, fun _ => 0, he, fun r => ?_, overall_const hP (Or.inl rfl)⟩
      rw [exitCode, (hq r).proc, (hq r).loc]
      exact congrArg some (hcode r)
  · rw [if_neg hpow]
    obtain ⟨ws, vs, hworks, hready⟩ :=
      runRankWorks_refused (P := P) sendCount hP hcount
    have hguards : ¬ DoublingGuards P (doublingArgs count) := fun h => hpow h.2.1
    choose x hx using fun r : Fin P => allreduceRecursiveDoubling_refuses (β := Comm P)
      (machine fadd).combine r ws.length (doublingArgs count) hguards
    rw [startRunRank, hworks] at hs
    obtain ⟨hnone, -, e, he, hthrow⟩ := session_refused
      (c := .allreduceRecursiveDoubling fun _ => doublingArgs count) (by simp) hready hx hcap hlen E
      vs _ hs
    refine ⟨fun r c hc => ?_, e, fun _ => 1, he, fun r => ?_, overall_const hP (Or.inr rfl)⟩
    · rcases exitCode_cases hc with ⟨hr, -⟩ | ⟨y, -, hc⟩
      · exact absurd hr (hnone r)
      · exact hc
    · rw [exitCode, hthrow]

def fourPorts : Setup 4 where
  device r := ⟨1, .mtu1024, false, 0, 3, fun _ => UInt8.ofNat r⟩
  qpNum r q := UInt32.ofNat (17 + 4 * r + q)
  psn r _ := UInt32.ofNat (100 + r)
  order r := (List.finRange 4).filter fun q => q ≠ r
  order_perm _ := List.Perm.refl _

theorem allreduce_test_code_four_ranks :
    ∃ e codes, Reaches (fabric 4 (BitVec 32) (Comm 4) Unit fun _ _ => 1)
        (startRunRank fourPorts (fun u _ => u) 4001 64) e ∧
      (∀ r, exitCode (e r) = some (codes r)) ∧ overall (List.ofFn codes) = 0 :=
  (allreduce_test_code (by decide) (by decide) (by decide) (by decide) (by decide) fourPorts
    (fun u _ => u) (fun _ _ => 1) (fun _ _ => Nat.one_pos) .refl).2

end AllreduceTest

namespace ScratchTest

def fill (count : ℕ) (rank : Fin P) (m : Mem (BitVec 32)) : Mem (BitVec 32) := fun b i =>
  if b = 0 ∧ i < count then BitVec.ofNat 32 (rank + 1) else m b i

def ringArgs (count scratch : ℕ) : AllreduceArgs :=
  ⟨⟨0, szMul count 4⟩, 0, count, .int32, .sum, ⟨1, szMul scratch 4⟩, 1, scratch⟩

def startRunRank (E : Setup P) (fadd : BitVec 32 → BitVec 32 → BitVec 32) (count scratch : ℕ) :
    Fin P → RankState P (BitVec 32) (Comm P) Unit :=
  startSession E (machine fadd).combine
    [.touch (fill count), .call (.allreduceRing fun _ => ringArgs count scratch)] fun _ _ _ => 0

def exitCode (st : RankState P (BitVec 32) (Comm P) Unit) : Option (BitVec 32) :=
  match st.proc with
  | .pure _ => some 1
  | .throw _ => some 0
  | _ => none

theorem exitCode_cases {st : RankState P (BitVec 32) (Comm P) Unit} {c : BitVec 32}
    (h : exitCode st = some c) :
    (st.proc = .pure () ∧ c = 1) ∨ ∃ e, st.proc = .throw e ∧ c = 0 := by
  unfold exitCode at h
  split at h
  next u hp => exact Or.inl ⟨hp, (Option.some.inj h).symm⟩
  next e hp => exact Or.inr ⟨e, hp, (Option.some.inj h).symm⟩
  next => cases h

section Runs

variable {count scratch : ℕ} {fadd : BitVec 32 → BitVec 32 → BitVec 32}

theorem ringArgs_ready (hP : P = 1) (hcount : count * 4 < 2 ^ 64) (scratch : ℕ) :
    Ready (fun _ : Fin P => ringArgs count scratch) count .int32 .sum ((count + P - 1) / P) where
  count_eq _ := rfl
  dtype_eq _ := rfl
  op_eq _ := rfl
  fits _ := (Nat.mod_eq_of_lt hcount).ge
  size _ := Nat.mod_lt _ (by decide)
  apart _ := Nat.zero_ne_one
  scratch _ := Or.inl hP
  short := Or.inl hP

end Runs

end ScratchTest

end MicroCcl

import MicroCcl.Process
import Mathlib.Data.Nat.Basic
import Mathlib.Tactic.Ring

namespace MicroCcl

structure ChunkRange where
  offset : ℕ
  count : ℕ
  deriving DecidableEq, Repr, Inhabited

/-- One turn of the loop of `compute_chunks`, on the offset and the chunks so far. -/
def chunkStep (base remainder : ℕ) (acc : ℕ × List ChunkRange) (i : ℕ) : ℕ × List ChunkRange :=
  let count := szAdd base (if i < remainder then 1 else 0)
  (szAdd acc.1 count, acc.2 ++ [⟨acc.1, count⟩])

def computeChunks (totalCount numChunks : ℕ) : Except Exn (List ChunkRange) :=
  if numChunks = 0 then .error (.invalidArgument "compute_chunks: num_chunks must be > 0")
  else
    let base := totalCount / numChunks
    let remainder := totalCount % numChunks
    .ok ((List.range numChunks).foldl (chunkStep base remainder) (0, [])).2

def chunkCount (total n i : ℕ) : ℕ := total / n + if i < total % n then 1 else 0

def chunkOffset (total n i : ℕ) : ℕ := i * (total / n) + min i (total % n)

def chunkAt (total n i : ℕ) : ChunkRange := ⟨chunkOffset total n i, chunkCount total n i⟩

theorem chunkOffset_succ (total n i : ℕ) :
    chunkOffset total n (i + 1) = chunkOffset total n i + chunkCount total n i := by
  unfold chunkOffset chunkCount
  rw [Nat.add_mul, Nat.one_mul]
  split_ifs <;> omega

theorem chunkOffset_end {total n : ℕ} (hn : 0 < n) : chunkOffset total n n = total := by
  unfold chunkOffset
  rw [min_eq_right (Nat.mod_lt _ hn).le]
  exact Nat.div_add_mod total n

theorem chunkOffset_mono (total n : ℕ) : Monotone (chunkOffset total n) :=
  monotone_nat_of_le_succ fun i => by rw [chunkOffset_succ]; omega

theorem chunk_end_le {total n i : ℕ} (hi : i < n) :
    chunkOffset total n i + chunkCount total n i ≤ total := by
  rw [← chunkOffset_succ]
  exact (chunkOffset_mono total n hi).trans_eq (chunkOffset_end (by omega))

theorem chunk_disjoint (total n : ℕ) {i j : ℕ} (hij : i ≠ j) :
    chunkOffset total n i + chunkCount total n i ≤ chunkOffset total n j ∨
      chunkOffset total n j + chunkCount total n j ≤ chunkOffset total n i := by
  rw [← chunkOffset_succ, ← chunkOffset_succ]
  rcases Nat.lt_or_gt_of_ne hij with h | h
  · exact Or.inl (chunkOffset_mono total n h)
  · exact Or.inr (chunkOffset_mono total n h)

theorem chunkCount_le_ceil {total n : ℕ} (hn : 0 < n) (i : ℕ) :
    chunkCount total n i ≤ (total + n - 1) / n := by
  have hd := Nat.div_add_mod total n
  unfold chunkCount
  split_ifs with h
  · rw [Nat.le_div_iff_mul_le hn, Nat.add_mul, Nat.mul_comm]
    omega
  · exact Nat.div_le_div_right (by omega)

theorem chunkCount_zero {total n : ℕ} (hn : 0 < n) :
    chunkCount total n 0 = (total + n - 1) / n := by
  have hd := Nat.div_add_mod total n
  have hm := Nat.mod_lt total hn
  apply le_antisymm (chunkCount_le_ceil hn 0)
  apply Nat.lt_succ_iff.mp
  rw [Nat.div_lt_iff_lt_mul hn, chunkCount, Nat.succ_mul, Nat.add_mul, Nat.mul_comm]
  split_ifs <;> omega

theorem eq_of_chunkCount_eq {total total' n : ℕ} (hn : 0 < n)
    (h : ∀ i < n, chunkCount total n i = chunkCount total' n i) : total = total' := by
  have hoff : ∀ i ≤ n, chunkOffset total n i = chunkOffset total' n i := by
    intro i hi
    induction i with
    | zero => simp [chunkOffset]
    | succ i ih => rw [chunkOffset_succ, chunkOffset_succ, ih (by omega), h i (by omega)]
  calc
    total = chunkOffset total n n := (chunkOffset_end hn).symm
    _ = chunkOffset total' n n := hoff n le_rfl
    _ = total' := chunkOffset_end hn

/-- Element `i` belongs to chunk `c` of a buffer of `total` elements. -/
def InChunk (total n c i : ℕ) : Prop :=
  chunkOffset total n c ≤ i ∧ i < chunkOffset total n c + chunkCount total n c

instance (total n c i : ℕ) : Decidable (InChunk total n c i) :=
  inferInstanceAs (Decidable (_ ∧ _))

theorem InChunk.unique {total n c d i : ℕ} (hc : InChunk total n c i) (hd : InChunk total n d i) :
    c = d := by
  by_contra hcd
  unfold InChunk at hc hd
  obtain h | h := chunk_disjoint total n hcd <;> omega

theorem InChunk.lt {total n c i : ℕ} (h : InChunk total n c i) (hc : c < n) : i < total :=
  h.2.trans_le (chunk_end_le hc)

theorem exists_inChunk {total n i : ℕ} (hi : i < total) (hn : 0 < n) :
    ∃ c < n, InChunk total n c i := by
  have hex : ∃ c, i < chunkOffset total n c := ⟨n, by rwa [chunkOffset_end hn]⟩
  have hspec := Nat.find_spec hex
  have hmin : ∀ m < Nat.find hex, ¬ i < chunkOffset total n m := fun m hm => Nat.find_min hex hm
  obtain ⟨c, hc⟩ : ∃ c, Nat.find hex = c + 1 := by
    refine Nat.exists_eq_succ_of_ne_zero fun h0 => ?_
    rw [h0] at hspec
    simp [chunkOffset] at hspec
  have hle : Nat.find hex ≤ n := Nat.find_min' hex (by rwa [chunkOffset_end hn])
  rw [hc] at hspec hmin hle
  refine ⟨c, by omega, not_lt.mp (hmin c (by omega)), ?_⟩
  rwa [← chunkOffset_succ]

theorem chunkStep_foldl {total n : ℕ} (ht : total < 2 ^ 64) (k : ℕ) (hk : k ≤ n) :
    (List.range k).foldl (chunkStep (total / n) (total % n)) (0, []) =
      (chunkOffset total n k, (List.range k).map (chunkAt total n)) := by
  induction k with
  | zero => simp [chunkOffset]
  | succ k ih =>
    -- no sum wraps, since all of them stay below `total`
    have hle : chunkOffset total n k + chunkCount total n k ≤ total := chunk_end_le (by omega)
    have hcount : szAdd (total / n) (if k < total % n then 1 else 0) = chunkCount total n k :=
      Nat.mod_eq_of_lt (by unfold chunkCount at hle; omega)
    have hoff : szAdd (chunkOffset total n k) (chunkCount total n k) =
        chunkOffset total n (k + 1) := by
      rw [chunkOffset_succ]
      exact Nat.mod_eq_of_lt (by omega)
    rw [List.range_succ, List.foldl_append, ih (by omega)]
    simp only [List.foldl_cons, List.foldl_nil, chunkStep, hcount, hoff, List.map_append,
      List.map_cons, List.map_nil, chunkAt]

theorem computeChunks_eq {total n : ℕ} (ht : total < 2 ^ 64) (hn : 0 < n) :
    computeChunks total n = .ok ((List.range n).map (chunkAt total n)) := by
  simp only [computeChunks, if_neg hn.ne', chunkStep_foldl ht n le_rfl]

/-- Consecutive ranges of `total` elements, as even as they can be and the longer ones in front. -/
structure FrontLoaded (total n : ℕ) (chunks : List ChunkRange) : Prop where
  length_eq : chunks.length = n
  first : ∀ c, chunks[0]? = some c → c.offset = 0
  next : ∀ i c d, chunks[i]? = some c → chunks[i + 1]? = some d → d.offset = c.offset + c.count
  last : ∀ c, chunks[n - 1]? = some c → c.offset + c.count = total
  covers : ∀ j < total, ∃! i : ℕ, ∃ c : ChunkRange, chunks[i]? = some c ∧ c.offset ≤ j ∧
    j < c.offset + c.count
  decreasing : ∀ (i j : ℕ) (c d : ChunkRange), i ≤ j → chunks[i]? = some c → chunks[j]? = some d →
    d.count ≤ c.count ∧ c.count ≤ d.count + 1
  largest : (∃ c ∈ chunks, c.count = (total + n - 1) / n) ∧
    ∀ c ∈ chunks, c.count ≤ (total + n - 1) / n
  offset_eq : ∀ i c, chunks[i]? = some c → c.offset = i * (total / n) + min i (total % n)
  nonempty_iff : total < n → ∀ i c, chunks[i]? = some c → (0 < c.count ↔ i < total)

theorem chunkAt_getElem? {total n i : ℕ} {c : ChunkRange} :
    ((List.range n).map (chunkAt total n))[i]? = some c ↔ i < n ∧ c = chunkAt total n i := by
  rw [List.getElem?_map, Option.map_eq_some_iff]
  constructor
  · rintro ⟨k, hk, rfl⟩
    obtain ⟨hi, rfl⟩ := List.getElem?_eq_some_iff.mp hk
    rw [List.getElem_range]
    exact ⟨by simpa using hi, rfl⟩
  · rintro ⟨hi, rfl⟩
    exact ⟨i, List.getElem?_range hi, rfl⟩

theorem chunkCount_antitone (total n : ℕ) {i j : ℕ} (hij : i ≤ j) :
    chunkCount total n j ≤ chunkCount total n i ∧
      chunkCount total n i ≤ chunkCount total n j + 1 := by
  unfold chunkCount
  split_ifs <;> omega

/-- With fewer elements than chunks each of the first chunks has one element. -/
theorem chunkCount_of_lt {total n : ℕ} (h : total < n) (i : ℕ) :
    chunkCount total n i = if i < total then 1 else 0 := by
  rw [chunkCount, Nat.div_eq_of_lt h, Nat.mod_eq_of_lt h, Nat.zero_add]

theorem frontLoaded_chunks {total n : ℕ} (hn : 0 < n) :
    FrontLoaded total n ((List.range n).map (chunkAt total n)) where
  length_eq := by simp
  first := by
    intro c hc
    obtain ⟨-, rfl⟩ := chunkAt_getElem?.mp hc
    simp [chunkAt, chunkOffset]
  next := by
    intro i c d hc hd
    obtain ⟨-, rfl⟩ := chunkAt_getElem?.mp hc
    obtain ⟨-, rfl⟩ := chunkAt_getElem?.mp hd
    exact chunkOffset_succ total n i
  last := by
    intro c hc
    obtain ⟨-, rfl⟩ := chunkAt_getElem?.mp hc
    change chunkOffset total n (n - 1) + chunkCount total n (n - 1) = total
    rw [← chunkOffset_succ, Nat.sub_add_cancel hn, chunkOffset_end hn]
  covers := by
    intro j hj
    obtain ⟨i, hi, hin⟩ := exists_inChunk hj hn
    refine ⟨i, ⟨chunkAt total n i, chunkAt_getElem?.mpr ⟨hi, rfl⟩, hin⟩, ?_⟩
    rintro k ⟨c, hc, hk⟩
    obtain ⟨-, rfl⟩ := chunkAt_getElem?.mp hc
    exact InChunk.unique hk hin
  decreasing := by
    intro i j c d hij hc hd
    obtain ⟨-, rfl⟩ := chunkAt_getElem?.mp hc
    obtain ⟨-, rfl⟩ := chunkAt_getElem?.mp hd
    exact chunkCount_antitone total n hij
  largest := by
    refine ⟨⟨chunkAt total n 0, ?_, chunkCount_zero hn⟩, fun c hc => ?_⟩
    · exact List.mem_map_of_mem (List.mem_range.mpr hn)
    · obtain ⟨i, -, rfl⟩ := List.mem_map.mp hc
      exact chunkCount_le_ceil hn i
  offset_eq := by
    intro i c hc
    obtain ⟨-, rfl⟩ := chunkAt_getElem?.mp hc
    rfl
  nonempty_iff := by
    intro hlt i c hc
    obtain ⟨-, rfl⟩ := chunkAt_getElem?.mp hc
    change 0 < chunkCount total n i ↔ i < total
    rw [chunkCount_of_lt hlt]
    split_ifs with hi
    · exact iff_of_true Nat.one_pos hi
    · exact iff_of_false (lt_irrefl 0) hi

/-- For all 64-bit arguments `compute_chunks` returns the balanced partition, and no sum of its
loop wraps: neither that of the chunk's count, nor the next offset, nor the next index. -/
theorem computeChunks_front_loaded {total n : ℕ} (ht : total < 2 ^ 64) (hn : 0 < n)
    (hn64 : n < 2 ^ 64) : ∃ chunks, computeChunks total n = .ok chunks ∧
      FrontLoaded total n chunks ∧ ∀ i < n, ∀ offset sofar,
        (List.range i).foldl (chunkStep (total / n) (total % n)) (0, []) = (offset, sofar) →
        total / n + (if i < total % n then 1 else 0) < 2 ^ 64 ∧
        offset + (total / n + if i < total % n then 1 else 0) < 2 ^ 64 ∧ i + 1 < 2 ^ 64 := by
  refine ⟨_, computeChunks_eq ht hn, frontLoaded_chunks hn, ?_⟩
  intro i hi offset sofar hloop
  rw [chunkStep_foldl ht i hi.le] at hloop
  obtain ⟨rfl, -⟩ := Prod.mk.inj hloop
  have hend : chunkOffset total n i + chunkCount total n i ≤ total := chunk_end_le hi
  unfold chunkCount at hend
  refine ⟨?_, ?_, ?_⟩ <;> omega

/-- Ten elements in four chunks. -/
theorem computeChunks_front_loaded_ten_by_four :
    computeChunks 10 4 = .ok [⟨0, 3⟩, ⟨3, 3⟩, ⟨6, 2⟩, ⟨8, 2⟩] ∧
      FrontLoaded 10 4 [⟨0, 3⟩, ⟨3, 3⟩, ⟨6, 2⟩, ⟨8, 2⟩] := by
  have hchunks : computeChunks 10 4 = .ok [⟨0, 3⟩, ⟨3, 3⟩, ⟨6, 2⟩, ⟨8, 2⟩] := rfl
  obtain ⟨chunks, hok, hpart, -⟩ := computeChunks_front_loaded (n := 4) (show 10 < 2 ^ 64 by decide)
    (by decide) (by decide)
  obtain rfl := Except.ok.inj (hchunks.symm.trans hok)
  exact ⟨hchunks, hpart⟩

end MicroCcl

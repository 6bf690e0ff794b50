import MicroCcl.AllreduceRing
import MicroCcl.Completions

namespace MicroCcl
open Network

variable {P : ℕ} {α β A : Type}

/-- All of `0, .., P - 1` but `skipped`, in some order. -/
def AllBut (P skipped : ℕ) (is : List ℕ) : Prop := (skipped :: is).Perm (List.range P)

namespace AllBut

variable {k i : ℕ} {is : List ℕ}

theorem nodup (h : AllBut P k is) : is.Nodup :=
  (List.nodup_cons.mp (h.nodup_iff.mpr List.nodup_range)).2

theorem lt (h : AllBut P k is) : k < P :=
  List.mem_range.mp (List.Perm.subset h List.mem_cons_self)

theorem mem_iff (h : AllBut P k is) : i ∈ is ↔ i < P ∧ i ≠ k := by
  have hk : k ∉ is := (List.nodup_cons.mp (h.nodup_iff.mpr List.nodup_range)).1
  have hmem := List.Perm.mem_iff h (a := i)
  rw [List.mem_cons, List.mem_range] at hmem
  constructor
  · intro hi
    refine ⟨hmem.mp (.inr hi), ?_⟩
    rintro rfl
    exact hk hi
  · rintro ⟨hi, hne⟩
    exact (hmem.mpr hi).resolve_left hne

theorem sum_eq (h : AllBut P k is) (f : ℕ → ℕ) :
    (is.map f).sum + f k = ((List.range P).map f).sum := by
  rw [← (h.map f).sum_eq, List.map_cons, List.sum_cons, Nat.add_comm]

end AllBut

theorem sum_filter_pos (f : ℕ → ℕ) (is : List ℕ) :
    ((is.filter fun i => 0 < f i).map f).sum = (is.map f).sum := by
  induction is with
  | nil => rfl
  | cons i is ih =>
    rw [List.filter_cons]
    split_ifs with hi
    · rw [List.map_cons, List.map_cons, List.sum_cons, List.sum_cons, ih]
    · have h0 : f i = 0 := by simpa using hi
      rw [ih, List.map_cons, List.sum_cons, h0, Nat.zero_add]

theorem sum_chunkCount (total n k : ℕ) :
    ((List.range k).map (chunkCount total n)).sum = chunkOffset total n k := by
  induction k with
  | zero => simp [chunkOffset]
  | succ k ih =>
    rw [List.range_succ, List.map_append, List.sum_append, ih, chunkOffset_succ]
    simp

theorem range_map_back_perm (r : Fin P) : ((List.range P).map (back P r)).Perm (List.range P) := by
  apply (List.perm_ext_iff_of_nodup ?_ List.nodup_range).mpr
  · intro i
    rw [List.mem_map, List.mem_range]
    constructor
    · rintro ⟨s, -, rfl⟩
      exact back_lt r s
    · intro hi
      refine ⟨back P r i, List.mem_range.mpr (back_lt r i), ?_⟩
      exact (back_eq_iff r ⟨i, hi⟩ (back_lt r i)).mpr rfl
  · apply List.Nodup.map_on _ List.nodup_range
    intro s hs s' hs' h
    have hs := (back_eq_iff r ⟨_, back_lt r s'⟩ (List.mem_range.mp hs)).mp h
    have hs' := (back_eq_iff r ⟨_, back_lt r s'⟩ (List.mem_range.mp hs')).mp rfl
    exact hs.trans hs'.symm

theorem back_last (r : Fin P) : back P r (P - 1) = (r + 1) % P := by
  have hr := r.isLt
  rw [back]
  split_ifs with h
  · have hP : r.val + 1 = P := by omega
    rw [hP, Nat.mod_self]
    omega
  · rw [Nat.mod_eq_of_lt (by omega)]
    omega

theorem allBut_back (r : Fin P) : AllBut P ((r + 1) % P) ((List.range (P - 1)).map (back P r)) := by
  have hrange : List.range P = List.range (P - 1) ++ [P - 1] := by
    rw [← List.range_succ, Nat.succ_eq_add_one, Nat.sub_add_cancel r.pos]
  have hmap : (List.range P).map (back P r) =
      (List.range (P - 1)).map (back P r) ++ [(r + 1) % P] := by
    rw [hrange, List.map_append, List.map_singleton, back_last]
  exact (List.perm_append_singleton _ _).symm.trans (hmap ▸ range_map_back_perm r)

theorem allBut_back_succ (r : Fin P) :
    AllBut P r ((List.range (P - 1)).map fun s => back P r (s + 1)) := by
  have hrange : List.range P = 0 :: (List.range (P - 1)).map Nat.succ := by
    rw [← List.range_succ_eq_map, Nat.sub_add_cancel r.pos]
  have hmap : (List.range P).map (back P r) =
      r.val :: (List.range (P - 1)).map fun s => back P r (s + 1) := by
    rw [hrange, List.map_cons, List.map_map]
    rfl
  rw [AllBut, ← hmap]
  exact range_map_back_perm r

theorem val_next (r : Fin P) : (next r).val = (r + 1) % P := by
  have hr := r.isLt
  rw [next]
  dsimp only
  split_ifs with h
  · rw [h, Nat.mod_self]
  · rw [Nat.mod_eq_of_lt (by omega)]

theorem val_next_next (r : Fin P) : (next (next r)).val = (r + 2) % P := by
  rw [val_next, val_next, Nat.mod_add_mod]

theorem allBut_back_next (r : Fin P) :
    AllBut P ((r + 2) % P) ((List.range (P - 1)).map (back P (next r))) := by
  rw [← val_next_next, val_next]
  exact allBut_back (next r)

/-- The chunks `is` are moved in one phase and `js` in the other. One phase leaves out the chunk `k`
and the other the chunk `k'`; `c` are the sizes. -/
structure MovedTwice (P count : ℕ) (c : ℕ → ℕ) (k k' : ℕ) (is js : List ℕ) : Prop where
  exact : ((is ++ js).map c).sum + c k + c k' = 2 * count
  le_double : ((is ++ js).map c).sum ≤ 2 * count
  le_of_floor : ((is ++ js).map c).sum ≤ 2 * (count - count / P)
  ge_of_ceil : 2 * (count - (count + P - 1) / P) ≤ ((is ++ js).map c).sum
  even : P ∣ count → P * ((is ++ js).map c).sum = 2 * (P - 1) * count
  nonempty : ∀ i ∈ is ++ js, i < P ∧ 0 < c i
  once : ∀ i, is.count i ≤ 1 ∧ js.count i ≤ 1 ∧ (is ++ js).count i ≤ 2
  at_least : ∀ i < P, 0 < c i → 1 ≤ (is ++ js).count i

theorem le_chunkCount (total n i : ℕ) : total / n ≤ chunkCount total n i := Nat.le_add_right _ _

theorem chunkCount_mul (hP : 0 < P) (q i : ℕ) : chunkCount (P * q) P i = q := by
  rw [chunkCount, Nat.mul_mod_right, if_neg (Nat.not_lt_zero i), Nat.mul_div_cancel_left q hP,
    Nat.add_zero]

section Moved

variable {count k k' : ℕ} {c : ℕ → ℕ} {is js : List ℕ}
  (hc : ∀ i < P, c i = chunkCount count P i) (h : AllBut P k is) (h' : AllBut P k' js)
include hc h h'

theorem sum_moved : ((is.filter (fun i => 0 < c i) ++ js.filter fun i => 0 < c i).map c).sum +
    c k + c k' = 2 * count := by
  have htotal : ((List.range P).map c).sum = count := by
    rw [List.map_congr_left fun i hi => hc i (List.mem_range.mp hi), sum_chunkCount,
      chunkOffset_end (Nat.zero_lt_of_lt h.lt)]
  have h1 := h.sum_eq c
  have h2 := h'.sum_eq c
  rw [List.map_append, List.sum_append, sum_filter_pos, sum_filter_pos]
  omega

theorem sum_moved_of_dvd (hdvd : P ∣ count) :
    P * ((is.filter (fun i => 0 < c i) ++ js.filter fun i => 0 < c i).map c).sum =
      2 * (P - 1) * count := by
  have hsum := sum_moved hc h h'
  have hP : 0 < P := Nat.zero_lt_of_lt h.lt
  obtain ⟨q, rfl⟩ := hdvd
  rw [hc k h.lt, hc k' h'.lt, chunkCount_mul hP, chunkCount_mul hP] at hsum
  obtain ⟨n, rfl⟩ : ∃ n, P = n + 1 := ⟨P - 1, by omega⟩
  have hmul : (n + 1) * q = n * q + q := Nat.succ_mul n q
  have hrest : ∀ m, m + q + q = 2 * ((n + 1) * q) → m = 2 * (n * q) := by omega
  rw [hrest _ hsum, Nat.add_sub_cancel]
  ring

omit hc h' in
theorem AllBut.count_filter_le (i : ℕ) : (is.filter fun i => 0 < c i).count i ≤ 1 :=
  List.nodup_iff_count_le_one.mp (h.nodup.filter _) i

theorem movedTwice_chunks (hne : k ≠ k') :
    MovedTwice P count c k k' (is.filter fun i => 0 < c i) (js.filter fun i => 0 < c i) where
  exact := sum_moved hc h h'
  le_double := by
    have hsum := sum_moved hc h h'
    omega
  le_of_floor := by
    have hsum := sum_moved hc h h'
    rw [hc k h.lt, hc k' h'.lt] at hsum
    have h1 := le_chunkCount count P k
    have h2 := le_chunkCount count P k'
    omega
  ge_of_ceil := by
    have hsum := sum_moved hc h h'
    rw [hc k h.lt, hc k' h'.lt] at hsum
    have hP : 0 < P := Nat.zero_lt_of_lt h.lt
    have h1 : chunkCount count P k ≤ (count + P - 1) / P := chunkCount_le_ceil hP k
    have h2 : chunkCount count P k' ≤ (count + P - 1) / P := chunkCount_le_ceil hP k'
    omega
  even := sum_moved_of_dvd hc h h'
  nonempty := by
    intro i hi
    rw [List.mem_append, List.mem_filter, List.mem_filter, h.mem_iff, h'.mem_iff] at hi
    simp only [decide_eq_true_eq] at hi
    omega
  once := by
    intro i
    have h1 := h.count_filter_le (c := c) i
    have h2 := h'.count_filter_le (c := c) i
    rw [List.count_append]
    omega
  at_least := by
    intro i hi hpos
    rw [List.one_le_count_iff, List.mem_append, List.mem_filter, List.mem_filter, h.mem_iff,
      h'.mem_iff]
    simp only [decide_eq_true_eq]
    omega

end Moved

section Records

variable (R : Fin P) (a : AllreduceArgs) (call : ℕ) (chunks : List ChunkRange)

def chunkSize (i : ℕ) : ℕ := (chunks.getD i default).count

/-- The request `y` sends chunk `i` in a phase whose steps are numbered from `base` on. -/
def SendsChunk (base i : ℕ) (y : Fin P × Wr) : Prop :=
  ∃ step < P - 1, y = (next R, workRequest a.dataMr a.data
    (szMul (chunks.getD i default).offset 4) (szMul (chunkSize chunks i) 4) ⟨call, base + step⟩)

/-- The delivery `w` brings chunk `i` to `buf`. -/
def BringsChunk (mr : MemoryRegion) (buf : Buf) (off : ℕ → ℕ) (base i : ℕ)
    (w : (Fin P × Wr) × Wc) : Prop :=
  ∃ step < P - 1, w = ((prev R, workRequest mr buf (off i) (szMul (chunkSize chunks i) 4)
    ⟨call, base + step⟩), ⟨.success, szMul (chunkSize chunks i) 4⟩)

/-- What a rank has sent and received: the chunks `out₁` and `in₁` in the first phase and `out₂`
and `in₂` in the second. -/
structure RingTraffic (st : RankState P α β A) (out₁ out₂ in₁ in₂ : List ℕ) : Prop where
  sent : ∃ ys₁ ys₂, st.sent = ys₁ ++ ys₂ ∧ List.Forall₂ (SendsChunk R a call chunks 0) out₁ ys₁ ∧
    List.Forall₂ (SendsChunk R a call chunks (P - 1)) out₂ ys₂
  received : ∃ ws₁ ws₂, st.log.map answer = ws₁ ++ ws₂ ∧
    List.Forall₂ (BringsChunk R call chunks a.scratchMr a.scratch (fun _ => 0) 0) in₁ ws₁ ∧
    List.Forall₂ (BringsChunk R call chunks a.dataMr a.data
      (fun i => szMul (chunks.getD i default).offset 4) (P - 1)) in₂ ws₂

end Records

theorem forall₂_filterMap {X Y S : Type} {T : X → Y → Prop} {p : X → Bool} {f : S → X}
    {g : S → Option Y} {l : List S} (hsome : ∀ s ∈ l, p (f s) → ∃ y, g s = some y ∧ T (f s) y)
    (hnone : ∀ s ∈ l, ¬ p (f s) → g s = none) :
    List.Forall₂ T ((l.map f).filter p) (l.filterMap g) := by
  induction l with
  | nil => exact .nil
  | cons s l ih =>
    have ih := ih (fun s' hs' => hsome s' (List.mem_cons_of_mem _ hs'))
      fun s' hs' => hnone s' (List.mem_cons_of_mem _ hs')
    rw [List.map_cons, List.filter_cons]
    split_ifs with hp
    · obtain ⟨y, hy, hT⟩ := hsome s List.mem_cons_self hp
      rw [List.filterMap_cons_some hy]
      exact .cons hT ih
    · rw [List.filterMap_cons_none (hnone s List.mem_cons_self hp)]
      exact ih

section Rounds

variable (ops : Ops α) (R : Fin P) (a : AllreduceArgs) (call : ℕ)

/-- The chunks `idx 0, .., idx (P - 2)` that are not empty. -/
def movedChunks (chunks : List ChunkRange) (idx : ℕ → ℕ) : List ℕ :=
  ((List.range (P - 1)).map idx).filter fun i => 0 < chunkSize chunks i

theorem getD_chunkAt (n : ℕ) {i : ℕ} (hi : i < P) :
    ((List.range P).map (chunkAt n P)).getD i default = chunkAt n P i := by
  simp [List.getD_eq_getElem?_getD, hi]

theorem chunkSize_chunkAt (n : ℕ) {i : ℕ} (hi : i < P) :
    chunkSize ((List.range P).map (chunkAt n P)) i = chunkCount n P i := by
  rw [chunkSize, getD_chunkAt n hi]
  rfl

theorem chunkSize_le (n i : ℕ) : chunkSize ((List.range P).map (chunkAt n P)) i ≤ n := by
  by_cases hi : i < P
  · rw [chunkSize_chunkAt n hi]
    exact le_of_add_le_right (chunk_end_le hi)
  · rw [chunkSize, List.getD_eq_default _ _ (by simpa using hi)]
    exact Nat.zero_le n

theorem phase_sends {idx : ℕ → ℕ} (hidx : ∀ s, idx s < P) {base : ℕ} {tag : ℕ → Tag}
    (htag : ∀ s, tag s = ⟨call, base + s⟩) {x : ℕ → Xfer P α β} {rc : ℕ → ChunkRange}
    {v : ℕ → RecvPart α β}
    (hx : ∀ s, x s = ringXfer R a (tag s) (chunkAt a.count P (idx s)) (rc s) (v s)) :
    List.Forall₂ (SendsChunk R a call ((List.range P).map (chunkAt a.count P)) base)
      (movedChunks (P := P) ((List.range P).map (chunkAt a.count P)) idx)
      (((List.range (P - 1)).map x).filterMap (·.send)) := by
  rw [List.filterMap_map]
  refine forall₂_filterMap (fun s hs hpos => ?_) fun s hs hpos => ?_
  · rw [decide_eq_true_eq, chunkSize_chunkAt _ (hidx s)] at hpos
    refine ⟨_, ?_, s, List.mem_range.mp hs, rfl⟩
    rw [Function.comp_apply, hx, htag, ringXfer, getD_chunkAt _ (hidx s),
      chunkSize_chunkAt _ (hidx s)]
    exact if_pos hpos
  · rw [decide_eq_true_eq, chunkSize_chunkAt _ (hidx s)] at hpos
    rw [Function.comp_apply, hx, ringXfer]
    exact if_neg hpos

theorem phase_brings {idx : ℕ → ℕ} (hidx : ∀ s, idx s < P) {base : ℕ} {tag : ℕ → Tag}
    (htag : ∀ s, tag s = ⟨call, base + s⟩) {x : ℕ → Xfer P α β} {sc : ℕ → ChunkRange}
    {v : ℕ → RecvPart α β} {mr : MemoryRegion} {buf : Buf} {off : ℕ → ℕ}
    (hx : ∀ s, x s = ringXfer R a (tag s) (sc s) (chunkAt a.count P (idx s)) (v s))
    (hwr : ∀ s, (v s).wr = workRequest mr buf (off (idx s)) (szMul (chunkCount a.count P (idx s)) 4)
      (tag s)) (hexp : ∀ s, (v s).expected = szMul (chunkCount a.count P (idx s)) 4) :
    List.Forall₂ (BringsChunk R call ((List.range P).map (chunkAt a.count P)) mr buf off base)
      (movedChunks (P := P) ((List.range P).map (chunkAt a.count P)) idx)
      (((List.range (P - 1)).map x).filterMap Xfer.awaited) := by
  rw [List.filterMap_map]
  refine forall₂_filterMap (fun s hs hpos => ?_) fun s hs hpos => ?_
  · rw [decide_eq_true_eq, chunkSize_chunkAt _ (hidx s)] at hpos
    refine ⟨_, ?_, s, List.mem_range.mp hs, rfl⟩
    have hrecv : (x s).recv = some (prev R, v s) := by
      rw [hx]
      exact if_pos hpos
    rw [Function.comp_apply, Xfer.awaited, hrecv, chunkSize_chunkAt _ (hidx s), ← htag,
      ← hwr, ← hexp]
    rfl
  · rw [decide_eq_true_eq, chunkSize_chunkAt _ (hidx s)] at hpos
    have hrecv : (x s).recv = none := by
      rw [hx]
      exact if_neg hpos
    rw [Function.comp_apply, Xfer.awaited, hrecv]
    rfl

theorem ringTraffic_of_records {st : RankState P α β A}
    (hsent : st.sent = ((ringRounds ops call fun _ => a).map (· R)).filterMap
      (fun x : Xfer P α β => x.send))
    (hlog : st.log.map answer = ((ringRounds ops call fun _ => a).map (· R)).filterMap
      (Xfer.awaited (α := α) (β := β))) :
    RingTraffic R a call ((List.range P).map (chunkAt a.count P)) st
      (movedChunks (P := P) ((List.range P).map (chunkAt a.count P)) (back P R))
      (movedChunks (P := P) ((List.range P).map (chunkAt a.count P)) (back P (next R)))
      (movedChunks (P := P) ((List.range P).map (chunkAt a.count P)) fun s => back P R (s + 1))
      (movedChunks (P := P) ((List.range P).map (chunkAt a.count P)) (back P R)) := by
  rw [ringRounds, List.map_append, List.filterMap_append, List.map_map, List.map_map] at hsent hlog
  refine ⟨⟨_, _, hsent, ?_, ?_⟩, ⟨_, _, hlog, ?_, ?_⟩⟩
  · exact phase_sends R a call (back_lt R) (fun s => by rw [Nat.zero_add]) fun s => rfl
  · exact phase_sends R a call (back_lt (next R)) (fun s => rfl) fun s => rfl
  · exact phase_brings R a call (fun s => back_lt R (s + 1)) (fun s => by rw [Nat.zero_add])
      (fun s => rfl) (fun s => rfl) fun s => rfl
  · refine phase_brings R a call (back_lt R) (fun s => rfl) (fun s => rfl) (fun s => ?_)
      fun s => rfl
    rw [getD_chunkAt _ (back_lt R s)]
    rfl

end Rounds

theorem forall₂_sum {Y : Type} {T : ℕ → Y → Prop} {f : ℕ → ℕ} {g : Y → ℕ} {is : List ℕ}
    {ys : List Y} (h : List.Forall₂ T is ys) (hfg : ∀ i ∈ is, ∀ y, T i y → g y = 4 * f i) :
    (ys.map g).sum = 4 * (is.map f).sum := by
  induction h with
  | nil => rfl
  | @cons i y is ys hT _ ih =>
    have ih := ih fun j hj => hfg j (List.mem_cons_of_mem _ hj)
    rw [List.map_cons, List.map_cons, List.sum_cons, List.sum_cons, ih,
      hfg i List.mem_cons_self y hT]
    ring

section Bytes

variable {R : Fin P} {a : AllreduceArgs} {call : ℕ} {chunks : List ChunkRange}

theorem BringsChunk.length_eq {mr : MemoryRegion} {buf : Buf} {off : ℕ → ℕ} {base i : ℕ}
    {e : Fin P × Wr × Wr} (h : BringsChunk R call chunks mr buf off base i (answer e)) :
    e.2.1.length = szMul (chunkSize chunks i) 4 ∧ szMul (chunkSize chunks i) 4 < 2 ^ 32 := by
  obtain ⟨step, -, hw⟩ := h
  obtain ⟨hreq, hwc⟩ := Prod.mk.inj hw
  have hlen := length_of_completionOf hwc
  refine ⟨hlen, ?_⟩
  have hwr : e.2.2.length = szMul (chunkSize chunks i) 4 % 2 ^ 32 := by
    rw [(Prod.mk.inj hreq).2]
    rfl
  have hle : e.2.1.length ≤ e.2.2.length := by
    by_contra hlt
    rw [completionOf, if_neg hlt] at hwc
    cases hwc
  have hmod := Nat.mod_lt (szMul (chunkSize chunks i) 4) (show 0 < 2 ^ 32 by decide)
  omega

theorem SendsChunk.length_eq {base i : ℕ} {y : Fin P × Wr}
    (h : SendsChunk R a call chunks base i y) :
    y.2.length = szMul (chunkSize chunks i) 4 % 2 ^ 32 := by
  obtain ⟨step, -, rfl⟩ := h
  rfl

variable {st : RankState P α β A} {out₁ out₂ in₁ in₂ : List ℕ}

theorem RingTraffic.receivedBytes (h : RingTraffic R a call chunks st out₁ out₂ in₁ in₂)
    (hsize : ∀ i, szMul (chunkSize chunks i) 4 = 4 * chunkSize chunks i) :
    (st.log.map fun e => e.2.1.length).sum = 4 * ((in₁ ++ in₂).map (chunkSize chunks)).sum := by
  obtain ⟨ws₁, ws₂, hlog, h₁, h₂⟩ := h.received
  obtain ⟨es₁, es₂, hes, rfl, rfl⟩ := List.map_eq_append_iff.mp hlog
  have hsum₁ := forall₂_sum (g := fun e => e.2.1.length) (List.forall₂_map_right_iff.mp h₁)
    fun i _ e he => he.length_eq.1.trans (hsize i)
  have hsum₂ := forall₂_sum (g := fun e => e.2.1.length) (List.forall₂_map_right_iff.mp h₂)
    fun i _ e he => he.length_eq.1.trans (hsize i)
  rw [hes, List.map_append, List.sum_append, hsum₁, hsum₂, List.map_append, List.sum_append,
    Nat.mul_add]

theorem RingTraffic.short (h : RingTraffic R a call chunks st out₁ out₂ in₁ in₂) :
    ∀ i ∈ in₁ ++ in₂, szMul (chunkSize chunks i) 4 < 2 ^ 32 := by
  obtain ⟨ws₁, ws₂, hlog, h₁, h₂⟩ := h.received
  obtain ⟨es₁, es₂, hes, rfl, rfl⟩ := List.map_eq_append_iff.mp hlog
  have hshort : ∀ {is es mr buf off base}, List.Forall₂
      (BringsChunk R call chunks mr buf off base) is (List.map answer es) →
      ∀ i ∈ is, szMul (chunkSize chunks i) 4 < 2 ^ 32 := by
    intro is es mr buf off base hbrings
    exact ((List.forall₂_and_left _ _).mp
      ((List.forall₂_map_right_iff.mp hbrings).imp fun i e he => ⟨he.length_eq.2, he⟩)).1
  intro i hi
  rcases List.mem_append.mp hi with hi | hi
  · exact hshort h₁ i hi
  · exact hshort h₂ i hi

theorem RingTraffic.sentBytes (h : RingTraffic R a call chunks st out₁ out₂ in₁ in₂)
    (hsize : ∀ i, szMul (chunkSize chunks i) 4 = 4 * chunkSize chunks i)
    (hin : ∀ i ∈ out₁ ++ out₂, i ∈ in₁ ++ in₂) :
    (st.sent.map fun y => y.2.length).sum = 4 * ((out₁ ++ out₂).map (chunkSize chunks)).sum := by
  obtain ⟨ys₁, ys₂, hsent, h₁, h₂⟩ := h.sent
  have hlen : ∀ base, ∀ i ∈ out₁ ++ out₂, ∀ y, SendsChunk R a call chunks base i y →
      y.2.length = 4 * chunkSize chunks i := by
    intro base i hi y hy
    rw [hy.length_eq, Nat.mod_eq_of_lt (h.short i (hin i hi)), hsize]
  have hsum₁ := forall₂_sum (g := fun y => y.2.length) h₁
    fun i hi => hlen 0 i (List.mem_append_left _ hi)
  have hsum₂ := forall₂_sum (g := fun y => y.2.length) h₂
    fun i hi => hlen (P - 1) i (List.mem_append_right _ hi)
  rw [hsent, List.map_append, List.sum_append, hsum₁, hsum₂, List.map_append, List.sum_append,
    Nat.mul_add]

end Bytes

/-- For every number of ranks, every rank and every count, in every run and whatever the other ranks
do: a rank that returns from `allreduce_ring` has sent all the elements twice but for two chunks,
and received all of them twice but for two chunks. Every chunk that is not empty has been sent
once or twice, and not twice in one phase. Where the bytes can be counted in a `size_t` they are
those of the elements. -/
theorem allreduceRing_volume (cap : Fin P → Fin P → ℕ) (hP : 2 ≤ P) (ops : Ops α) (call : ℕ)
    (R : Fin P) {a : AllreduceArgs} (hcount : a.count < 2 ^ 64) {p : Fin P → Proc P α β Unit}
    (hp : p R = allreduceRing ops R call a) (l : Fin P → Local α β)
    {s : Fin P → RankState P α β Unit} (hs : Reaches (fabric P α β Unit cap) (start p l) s)
    (hret : (s R).proc = .pure ()) :
    ∃ chunks, computeChunks a.count P = .ok chunks ∧ ∃ out₁ out₂ in₁ in₂,
      RingTraffic R a call chunks (s R) out₁ out₂ in₁ in₂ ∧
      MovedTwice P a.count (chunkSize chunks) ((R + 1) % P) ((R + 2) % P) out₁ out₂ ∧
      MovedTwice P a.count (chunkSize chunks) R ((R + 1) % P) in₁ in₂ ∧
      (a.count * 4 < 2 ^ 64 →
        ((s R).sent.map fun y => y.2.length).sum =
          4 * ((out₁ ++ out₂).map (chunkSize chunks)).sum ∧
        ((s R).log.map fun e => e.2.1.length).sum =
          4 * ((in₁ ++ in₂).map (chunkSize chunks)).sum) := by
  have hfollows : Follows (fun _ _ => True) none none (p R)
      (((ringRounds ops call fun _ => a).map (· R)).flatMap Xfer.events) := by
    rw [hp, allreduceRing_guards ops call (fun _ => a) R hcount]
    split_ifs
    · exact rounds_follows_steps _ R
    · trivial
  obtain ⟨hsent, hlog⟩ := (Follows.along hfollows hs).returned hret
  rw [sendWaits_flatMap] at hsent
  rw [recvWaits_flatMap] at hlog
  have htraffic := ringTraffic_of_records ops R a call hsent hlog
  have hc : ∀ i < P, chunkSize ((List.range P).map (chunkAt a.count P)) i =
      chunkCount a.count P i := fun i hi => chunkSize_chunkAt _ hi
  have hne : R.val ≠ (R + 1) % P := val_next R ▸ Fin.val_ne_of_ne (next_ne hP R)
  have hne' : (R + 1) % P ≠ (R + 2) % P := by
    rw [← val_next, ← val_next_next]
    exact Fin.val_ne_of_ne (next_ne hP (next R))
  have hout := movedTwice_chunks hc (allBut_back R) (allBut_back_next R) hne'
  have hin := movedTwice_chunks hc (allBut_back_succ R) (allBut_back R) hne
  refine ⟨_, computeChunks_eq hcount (by omega), _, _, _, _, htraffic, hout, hin, fun hbytes => ?_⟩
  have hsize : ∀ i, szMul (chunkSize ((List.range P).map (chunkAt a.count P)) i) 4 =
      4 * chunkSize ((List.range P).map (chunkAt a.count P)) i := by
    intro i
    have hle := chunkSize_le (P := P) a.count i
    rw [szMul, Nat.mod_eq_of_lt (by omega), Nat.mul_comm]
  refine ⟨htraffic.sentBytes hsize ?_, htraffic.receivedBytes hsize⟩
  intro i hi
  obtain ⟨hlt, hpos⟩ := hout.nonempty i hi
  exact List.one_le_count_iff.mp (hin.at_least i hlt hpos)

/-- Three ranks and five elements, in chunks of two, two and one: rank 0 sends seven elements and
receives six. -/
theorem allreduceRing_volume_five_by_three :
    ∃ s, Reaches (fabric 3 ℕ Unit Unit fun _ _ => 1)
      (start (fun r => allreduceRing (fun _ _ u v => u + v) r 0
        ⟨⟨0, 20⟩, 0, 5, .int32, .sum, ⟨1, 8⟩, 1, 2⟩) fun r => ⟨fun _ i => 10 * r + i, ()⟩) s ∧
      (s 0).proc = .pure () ∧ ((s 0).sent.map fun y => y.2.length).sum = 4 * 7 ∧
      ((s 0).log.map fun e => e.2.1.length).sum = 4 * 6 := by
  have hready : Ready (P := 3) (fun _ => ⟨⟨0, 20⟩, 0, 5, .int32, .sum, ⟨1, 8⟩, 1, 2⟩) 5 .int32 .sum
      2 := by
    constructor <;> simp
  obtain ⟨s, hs, hret⟩ := allreduceRing_settles (fun _ _ => 1) (fun _ _ u v => u + v) 0 hready
    (fun r => ⟨fun _ i => 10 * r + i, ()⟩) .refl
  obtain ⟨chunks, hchunks, out₁, out₂, in₁, in₂, -, hout, hin, hbytes⟩ := allreduceRing_volume
    (fun _ _ => 1) (by decide) (fun _ _ u v => u + v) 0 0 (by decide) rfl _ hs (hret 0)
  have hfive : computeChunks 5 3 = .ok [⟨0, 2⟩, ⟨2, 2⟩, ⟨4, 1⟩] := rfl
  obtain rfl := Except.ok.inj (hfive.symm.trans hchunks)
  obtain ⟨hsent, hreceived⟩ := hbytes (by decide)
  refine ⟨s, hs, hret 0, hsent.trans (congrArg (4 * ·) ?_),
    hreceived.trans (congrArg (4 * ·) ?_)⟩
  · exact Nat.add_right_cancel (Nat.add_right_cancel hout.exact)
  · exact Nat.add_right_cancel (Nat.add_right_cancel hin.exact)

end MicroCcl

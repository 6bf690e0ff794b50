import MicroCcl.SerialReduce
import MicroCcl.Updates
import Mathlib.Algebra.Order.BigOperators.Group.Finset

namespace MicroCcl
open Network

variable {P : ℕ} {α β : Type}

section Sums

variable {ι : Type*} {w : ℕ} {x : ι → BitVec w} {A B : Finset ι} {u v : BitVec w}

/-- The value is the exact sum of the values of `A`. -/
def SumOver (x : ι → BitVec w) (A : Finset ι) (u : BitVec w) : Prop :=
  u.toInt = ∑ q ∈ A, (x q).toInt

theorem sumOver_singleton (x : ι → BitVec w) (q : ι) : SumOver x {q} (x q) :=
  (Finset.sum_singleton (fun q => (x q).toInt) q).symm

variable [Fintype ι] (hx : ∑ q, |(x q).toInt| < 2 ^ (w - 1))
include hx

theorem abs_sum_lt (A : Finset ι) : |∑ q ∈ A, (x q).toInt| < 2 ^ (w - 1) := by
  calc |∑ q ∈ A, (x q).toInt|
      ≤ ∑ q ∈ A, |(x q).toInt| := Finset.abs_sum_le_sum_abs _ _
    _ ≤ ∑ q, |(x q).toInt| :=
        Finset.sum_le_sum_of_subset_of_nonneg (Finset.subset_univ A) fun q _ _ => abs_nonneg _
    _ < 2 ^ (w - 1) := hx

variable [DecidableEq ι] (hAB : Disjoint A B) (hu : SumOver x A u) (hv : SumOver x B v)
include hAB hu hv

theorem SumOver.not_saddOverflow : u.saddOverflow v = false := by
  have hlt := abs_lt.mp (abs_sum_lt hx (A ∪ B))
  rw [Finset.sum_union hAB, ← hu, ← hv] at hlt
  simp only [BitVec.saddOverflow, Bool.or_eq_false_iff, decide_eq_false_iff_not]
  omega

theorem SumOver.add : SumOver x (A ∪ B) (u + v) := by
  have hno := hu.not_saddOverflow hx hAB hv
  rw [SumOver, BitVec.toInt_add_of_not_saddOverflow (by simp [hno]), hu, hv,
    Finset.sum_union hAB]

end Sums

section Partial

variable {w : ℕ} {x : Fin P → BitVec w} (hx : ∑ q, |(x q).toInt| < 2 ^ (w - 1))
include hx

theorem sumOver_ringFold (c : Fin P) {j : ℕ} (hj : j < P) :
    SumOver x (Finset.univ.filter fun q : Fin P => back P q c ≤ j)
      (ringFold (fun u v => u + v) x c j) := by
  induction j with
  | zero =>
    have hself : (Finset.univ.filter fun q : Fin P => back P q c ≤ 0) = {c} := by
      ext q
      simp [back_eq_zero]
    rw [hself]
    exact sumOver_singleton x c
  | succ j ih =>
    obtain ⟨r, hr⟩ : ∃ r : Fin P, back P r c = j + 1 :=
      ⟨⟨(c + (j + 1)) % P, Nat.mod_lt _ c.pos⟩, back_add_mod c hj⟩
    have hsplit : (Finset.univ.filter fun q : Fin P => back P q c ≤ j + 1) =
        {r} ∪ Finset.univ.filter fun q : Fin P => back P q c ≤ j := by
      ext q
      have hq : q = r ↔ back P q c = j + 1 := by
        rw [← hr]
        refine ⟨fun h => h ▸ rfl, fun h => Fin.ext ?_⟩
        rw [← add_back_mod q c, h, add_back_mod]
      simp only [Finset.mem_filter, Finset.mem_univ, true_and, Finset.mem_union,
        Finset.mem_singleton, hq]
      omega
    rw [hsplit, ringFold_back _ _ r c hr]
    refine SumOver.add hx ?_ (sumOver_singleton x r) (ih (by omega))
    simp [hr]

theorem sumOver_xorTree {m k : ℕ} (hP : P = 2 ^ m) (hk : k ≤ m) (r : Fin P) :
    SumOver x (Finset.univ.filter (SameBlock k r)) (xorTree (fun u v => u + v) x k r) := by
  induction k generalizing r with
  | zero =>
    have hself : Finset.univ.filter (SameBlock 0 r) = {r} := by
      ext q
      simp [sameBlock_zero_iff, eq_comm]
    rw [hself]
    exact sumOver_singleton x r
  | succ k ih =>
    rw [filter_sameBlock_succ hP hk r]
    exact (ih (by omega) r).add hx (disjoint_sameBlock hP hk r) (ih (by omega) (partner k r))

end Partial

section Ring

variable {cap : Fin P → Fin P → ℕ} {ops : Ops α} {call count : ℕ} {dtype : Dtype} {op : ReduceOp}
  {a : Fin P → AllreduceArgs} (h : Alike a count dtype op)
include h

theorem reduceScatterRound_expected {step : ℕ} {r : Fin P}
    (hshort : chunkCount count P (back P r (step + 1)) * 4 < 2 ^ 32) :
    ∀ z ∈ (reduceScatterRound (β := β) ops call a step r).recv, z.2.expected = z.2.wr.length := by
  intro z hz
  simp only [reduceScatterRound, ringXfer, h.count_eq, Option.mem_def] at hz
  split_ifs at hz
  obtain rfl := Option.some.inj hz
  exact (szMul_eq_mod_iff (n := chunkCount count P (back P r (step + 1))) (by omega)).mpr hshort

theorem reduceScatterRound_fit_sync {step : ℕ} (hs : step < P - 1) {c i : ℕ}
    (hshort : chunkCount count P c * 4 < 2 ^ 32) (hi : InChunk count P c i)
    (l : Fin P → Local α β) (r : Fin P) :
    ((reduceScatterRound ops call a step).fit.sync l r).mem (a r).data i =
      if InChunk count P (back P r (step + 1)) i then
        ops dtype op ((l r).mem (a r).data i) ((l (prev r)).mem (a (prev r)).data i)
      else (l r).mem (a r).data i := by
  by_cases hlt : chunkCount count P (back P r (step + 1)) * 4 < 2 ^ 32
  · rw [Round.fit_sync (reduceScatterRound_expected h hlt),
      reduceScatterRound_sync h ops call hs l r hlt (h.apart r)]
    exact if_congr (and_iff_right rfl) rfl rfl
  · have hother : ¬ InChunk count P (back P r (step + 1)) i := by
      intro hin
      rw [hin.unique hi] at hlt
      exact hlt hshort
    have hend : chunkOffset count P (back P r (step + 1)) + chunkCount count P (back P r (step + 1))
      ≤ count := chunk_end_le (back_lt r _)
    have hbytes := h.bytes_lt
    have htrunc : szMul (chunkCount count P (back P r (step + 1))) 4 ≠
        szMul (chunkCount count P (back P r (step + 1))) 4 % 2 ^ 32 :=
      fun he => hlt ((szMul_eq_mod_iff (by omega)).mp he)
    rw [if_neg hother, Round.fit_sync_truncated
      (reduceScatterRound_recv h ops call step (by omega)) htrunc]
    exact if_neg fun hb => h.apart r hb.1

theorem reduceScatter_fit_syncAll {c : Fin P} {i : ℕ} (hshort : chunkCount count P c * 4 < 2 ^ 32)
    (hi : InChunk count P c i) (x : Fin P → Local α β) {t : ℕ} (ht : t ≤ P - 1) (r : Fin P) :
    (syncAll ((List.range t).map fun step => (reduceScatterRound ops call a step).fit) x r).mem
        (a r).data i =
      if back P r c ≤ t then
        ringFold (ops dtype op) (fun q => (x q).mem (a q).data i) c (back P r c)
      else (x r).mem (a r).data i := by
  refine ringFold_syncAll c hi (fun step hs l q => ?_) x ht r
  exact reduceScatterRound_fit_sync h hs hshort hi l q

omit h in
theorem ringRounds_reduces {t : ℕ} {G : Round P α β} (hG : (ringRounds ops call a)[t]? = some G)
    {r q : Fin P} {v : RecvPart α β} (hv : (G r).recv = some (q, v)) {f : Local α β → Local α β}
    (hf : v.reduce = some f) : t < P - 1 ∧ G = reduceScatterRound ops call a t ∧
      ((ringRounds ops call a).take t).map Round.fit =
        (List.range t).map fun step => (reduceScatterRound (β := β) ops call a step).fit := by
  by_cases ht : t < P - 1
  · rw [ringRounds, List.getElem?_append_left (by simpa using ht), List.getElem?_map,
      List.getElem?_range ht] at hG
    refine ⟨ht, (Option.some.inj hG).symm, ?_⟩
    rw [ringRounds, List.take_append_of_le_length (by simpa using ht.le), ← List.map_take,
      List.take_range, min_eq_left ht.le, List.map_map]
    rfl
  · rw [ringRounds, List.getElem?_append_right (by simpa using ht)] at hG
    obtain ⟨step, -, rfl⟩ := List.mem_map.mp (List.mem_of_getElem? hG)
    simp only [ringAllgatherRound, ringXfer] at hv
    split_ifs at hv
    obtain ⟨-, rfl⟩ := Prod.mk.inj (Option.some.inj hv)
    cases hf

omit h in
theorem ringRounds_length {G : Round P α β} (hG : G ∈ ringRounds ops call a) (q : Fin P) :
    ∀ z ∈ (G q).recv, z.2.wr.length = z.2.expected % 2 ^ 32 := by
  intro z hz
  obtain ⟨step, he | he⟩ := ringRounds_recv hG hz
  · rw [he]
    rfl
  · rw [he]
    rfl

theorem allreduceRing_rounds_or_throw (ops : Ops α) (call : ℕ) (r : Fin P) :
    allreduceRing ops r call (a r) = roundsProc (ringRounds (β := β) ops call a) r ∨
      ∃ e, allreduceRing (β := β) ops r call (a r) = .throw e := by
  have hcount := h.count_eq r
  have hbytes := h.bytes_lt
  rw [allreduceRing_guards ops call a r (by omega)]
  split_ifs
  · exact Or.inl rfl
  · exact Or.inr ⟨_, rfl⟩

/-- When a rank reduces in `allreduce_ring`, it still has its own values in the chunk, and scratch
holds the fold that started at the rank with the number of the chunk. -/
theorem allreduceRing_operands (hP : 2 ≤ P) {x : Fin P → Local α β}
    {s : Fin P → RankState P α β Unit}
    (hs : Reaches (fabric P α β Unit cap) (start (fun r => allreduceRing ops r call (a r)) x) s)
    {r : Fin P} {f : Local α β → Local α β} {k : Proc P α β Unit} (hf : (s r).proc = .upd f k) :
    ∃ c : Fin P, r ≠ c ∧
      f = (a r).reduce ops (chunkOffset count P c * 4) (chunkCount count P c) ∧
      ∀ i, InChunk count P c i → (s r).loc.mem (a r).data i = (x r).mem (a r).data i ∧
        (s r).loc.mem (a r).scratch (i - chunkOffset count P c) =
          ringFold (ops dtype op) (fun q => (x q).mem (a q).data i) c (back P r c - 1) := by
  have hbytes := h.bytes_lt
  obtain ⟨t, G, hG, q, v, hv, hexp, hred, hmem⟩ :=
    update_found (allreduceRing_rounds_or_throw h ops call) (ringRounds_paired h hP ops call)
      (fun G hG => ringRounds_length hG) hs hf
  obtain ⟨ht, rfl, htake⟩ := ringRounds_reduces hG hv hred
  simp only [htake] at hmem
  simp only [reduceScatterRound, ringXfer, h.count_eq] at hv
  split_ifs at hv with hc
  obtain ⟨rfl, rfl⟩ := Prod.mk.inj (Option.some.inj hv)
  let c : Fin P := ⟨back P r (t + 1), back_lt r _⟩
  have hback : t + 1 = back P r c := (back_eq_iff r c (by omega)).mp rfl
  have hend : chunkOffset count P c + chunkCount count P c ≤ count := chunk_end_le c.isLt
  have hshort : chunkCount count P c * 4 < 2 ^ 32 := (szMul_eq_mod_iff (by omega)).mp hexp
  have hstore := reduceScatterRound_store h ops call ht
    (syncAll ((List.range t).map fun step => (reduceScatterRound ops call a step).fit) x) hc hshort
  refine ⟨c, ?_, ?_, fun i hi => ⟨?_, ?_⟩⟩
  · intro hrc
    have := back_eq_zero.mpr hrc
    omega
  · rw [← h.chunk_off c.isLt]
    exact (Option.some.inj hred).symm
  · rw [hmem, hstore, if_neg fun hb => h.apart r hb.1,
      reduceScatter_fit_syncAll h hshort hi x ht.le, if_neg (by omega)]
  · have hprev : back P (prev r) c = t := by
      rw [back_prev_left, if_neg (by omega)]
      omega
    have hlt : i - chunkOffset count P c < chunkCount count P c := by
      obtain ⟨h1, h2⟩ := hi
      omega
    rw [hmem, hstore, if_pos ⟨rfl, hlt⟩, Nat.add_sub_cancel' hi.1,
      reduceScatter_fit_syncAll h hshort hi x ht.le, hprev, if_pos le_rfl, ← hback,
      Nat.add_sub_cancel]

end Ring

section Doubling

variable {cap : Fin P → Fin P → ℕ} {ops : Ops α} {call count : ℕ} {dtype : Dtype} {op : ReduceOp}
  {a : Fin P → AllreduceArgs}

theorem doublingRounds_reduces {m t : ℕ} {G : Round P α β}
    (hG : (doublingRounds ops call a m)[t]? = some G) : t < m ∧ G = doublingRound ops call a t ∧
      (doublingRounds (β := β) ops call a m).take t = doublingRounds ops call a t := by
  have ht : t < m := by
    have := (List.getElem?_eq_some_iff.mp hG).1
    simpa [doublingRounds] using this
  rw [doublingRounds, List.getElem?_map, List.getElem?_range ht] at hG
  refine ⟨ht, (Option.some.inj hG).symm, ?_⟩
  rw [doublingRounds, ← List.map_take, List.take_range, min_eq_left ht.le]
  rfl

theorem doublingRounds_length {m : ℕ} {G : Round P α β} (hG : G ∈ doublingRounds ops call a m)
    (q : Fin P) : ∀ z ∈ (G q).recv, z.2.wr.length = z.2.expected % 2 ^ 32 := by
  intro z hz
  obtain ⟨step, -, rfl⟩ := List.mem_map.mp hG
  obtain rfl := Option.some.inj hz
  rfl

theorem allreduceRecursiveDoubling_rounds_or_throw {m : ℕ} (hP : P = 2 ^ m) (ops : Ops α)
    (call : ℕ) (a : Fin P → AllreduceArgs) (r : Fin P) :
    allreduceRecursiveDoubling ops r call (a r) =
        roundsProc (doublingRounds (β := β) ops call a m) r ∨
      ∃ e, allreduceRecursiveDoubling (β := β) ops r call (a r) = .throw e := by
  have hsteps : halvings P = m := hP ▸ halvings_two_pow m
  by_cases hg : DoublingGuards P (a r)
  · rw [← hsteps]
    exact Or.inl (allreduceRecursiveDoubling_of_guards ops call a r hg)
  · exact Or.inr (allreduceRecursiveDoubling_refuses ops r call (a r) hg)

/-- When a rank reduces in `allreduce_recursive_doubling`, it has its own tree in the data and that
of its partner in scratch. -/
theorem allreduceRecursiveDoubling_operands (h : Alike a count dtype op) {x : Fin P → Local α β}
    {s : Fin P → RankState P α β Unit}
    (hs : Reaches (fabric P α β Unit cap)
      (start (fun r => allreduceRecursiveDoubling ops r call (a r)) x) s)
    {r : Fin P} {f : Local α β → Local α β} {k : Proc P α β Unit} (hf : (s r).proc = .upd f k) :
    ∃ m t, P = 2 ^ m ∧ t < m ∧ f = (a r).reduce ops 0 count ∧ ∀ i < count,
      (s r).loc.mem (a r).data i = xorTree (ops dtype op) (fun q => (x q).mem (a q).data i) t r ∧
      (s r).loc.mem (a r).scratch i =
        xorTree (ops dtype op) (fun q => (x q).mem (a q).data i) t (partner t r) := by
  -- the rank has not thrown, so its guards have passed
  have hguards : DoublingGuards P (a r) := by
    by_contra hg
    obtain ⟨e, he⟩ := allreduceRecursiveDoubling_refuses (β := β) ops r call (a r) hg
    have hthrow := throw_reaches (r := r) he hs
    rw [hf] at hthrow
    cases hthrow
  obtain ⟨m, hP⟩ := exists_two_pow_of_isPowerOfTwo hguards.2.1
  obtain ⟨t, G, hG, q, v, hv, hexp, hred, hmem⟩ :=
    update_found (allreduceRecursiveDoubling_rounds_or_throw hP ops call a)
      (doublingRounds_paired hP h ops call) (fun G hG => doublingRounds_length hG) hs hf
  obtain ⟨ht, rfl, htake⟩ := doublingRounds_reduces hG
  have hshort : 0 < m → count * 4 < 2 ^ 32 := by
    intro _
    obtain ⟨-, rfl⟩ := Prod.mk.inj (Option.some.inj hv)
    simp only [workRequest, h.count_eq] at hexp
    exact (szMul_eq_mod_iff h.bytes_lt).mp hexp
  have hfit : syncAll (((doublingRounds ops call a m).take t).map Round.fit) x =
      syncAll (doublingRounds ops call a t) x := by
    rw [htake]
    refine syncAll_fit (fun G hG => ?_) x
    obtain ⟨step, hstep, rfl⟩ := List.mem_map.mp hG
    exact doublingRound_expected h hshort ops call ((List.mem_range.mp hstep).trans ht)
  simp only [hfit] at hmem
  have hstore := doublingRound_store h hshort ops call ht
    (syncAll (doublingRounds ops call a t) x) hv
  refine ⟨m, t, hP, ht, ?_, fun i hi => ⟨?_, ?_⟩⟩
  · obtain ⟨-, rfl⟩ := Prod.mk.inj (Option.some.inj hv)
    rw [← h.count_eq r]
    exact (Option.some.inj hred).symm
  · rw [hmem, hstore, if_neg fun hb => h.apart r hb.1,
      xorTree_syncAll h hshort ops call x ht.le r hi]
  · rw [hmem, hstore, if_pos ⟨rfl, hi⟩, xorTree_syncAll h hshort ops call x ht.le _ hi]

end Doubling

theorem AllreduceArgs.reduce_before (ops : Ops α) {a : AllreduceArgs} (hap : a.data ≠ a.scratch)
    (off j : ℕ) (l : Local α β) :
    (a.reduce ops off j l).mem a.data (off / 4 + j) = l.mem a.data (off / 4 + j) ∧
      (a.reduce ops off j l).mem a.scratch j = l.mem a.scratch j := by
  simp only [AllreduceArgs.reduce, reduceInplace_apply ops hap]
  constructor
  · exact if_neg fun hb => absurd hb.2.2 (lt_irrefl _)
  · exact if_neg fun hb => hap hb.1.symm

/-- In turn `j` of the update, both operands are exact sums over sets of ranks that have no rank in
common, and their sum fits. -/
def AddsDisjoint (ops : Ops (BitVec 32)) (a : Fin P → AllreduceArgs)
    (x : Fin P → Local (BitVec 32) β) (r : Fin P) (off j : ℕ) (l : Local (BitVec 32) β) : Prop :=
  -- the memory after the turns before `j`
  let mem := ((a r).reduce ops off j l).mem
  let i := off / 4 + j
  ∃ A B : Finset (Fin P), Disjoint A B ∧
    SumOver (fun q => (x q).mem (a q).data i) A (mem (a r).data i) ∧
    SumOver (fun q => (x q).mem (a q).data i) B (mem (a r).scratch j) ∧
    (mem (a r).data i).saddOverflow (mem (a r).scratch j) = false

section Adds

variable {cap : Fin P → Fin P → ℕ} {fadd : BitVec 32 → BitVec 32 → BitVec 32} {call count : ℕ}
  {a : Fin P → AllreduceArgs} (h : Alike a count .int32 .sum) {x : Fin P → Local (BitVec 32) β}
  (hx : ∀ i < count, ∑ q, |((x q).mem (a q).data i).toInt| ≤ 2 ^ 31 - 1)
  {s : Fin P → RankState P (BitVec 32) β Unit} {r : Fin P}
  {f : Local (BitVec 32) β → Local (BitVec 32) β} {k : Proc P (BitVec 32) β Unit}
include h hx

theorem addsDisjoint_of_sumOver {ops : Ops (BitVec 32)} {off j : ℕ} {l : Local (BitVec 32) β}
    (hi : off / 4 + j < count) {A B : Finset (Fin P)} (hAB : Disjoint A B)
    (hA : SumOver (fun q => (x q).mem (a q).data (off / 4 + j)) A (l.mem (a r).data (off / 4 + j)))
    (hB : SumOver (fun q => (x q).mem (a q).data (off / 4 + j)) B (l.mem (a r).scratch j)) :
    AddsDisjoint ops a x r off j l := by
  obtain ⟨hdata, hscratch⟩ := AllreduceArgs.reduce_before ops (h.apart r) off j l
  unfold AddsDisjoint
  simp only [hdata, hscratch]
  exact ⟨A, B, hAB, hA, hB, hA.not_saddOverflow (Int.lt_of_le_sub_one (hx _ hi)) hAB hB⟩

theorem allreduceRing_adds (hP : 2 ≤ P)
    (hs : Reaches (fabric P (BitVec 32) β Unit cap)
      (start (fun r => allreduceRing (machine fadd).combine r call (a r)) x) s)
    (hf : (s r).proc = .upd f k) :
    ∃ off n, f = (a r).reduce (machine fadd).combine off n ∧ off / 4 + n ≤ count ∧
      ∀ j < n, AddsDisjoint (machine fadd).combine a x r off j (s r).loc := by
  obtain ⟨c, hrc, hred, hops⟩ := allreduceRing_operands h hP hs hf
  have hoff : chunkOffset count P c * 4 / 4 = chunkOffset count P c :=
    Nat.mul_div_cancel _ (by omega)
  have hend : chunkOffset count P c + chunkCount count P c ≤ count := chunk_end_le c.isLt
  have hpos : 0 < back P r c := Nat.pos_of_ne_zero fun h0 => hrc (back_eq_zero.mp h0)
  have hlt := back_lt r c
  refine ⟨_, _, hred, by omega, fun j hj => ?_⟩
  obtain ⟨hdata, hscratch⟩ := hops (chunkOffset count P c + j) ⟨by omega, by omega⟩
  rw [Nat.add_sub_cancel_left] at hscratch
  -- the rank's own value meets those of the ranks from `c` up to its predecessor
  refine addsDisjoint_of_sumOver h hx (by omega) (A := {r})
    (B := Finset.univ.filter fun q : Fin P => back P q c ≤ back P r c - 1) ?_ ?_ ?_
  · simp only [Finset.disjoint_singleton_left, Finset.mem_filter, Finset.mem_univ, true_and]
    omega
  · rw [hoff, hdata]
    exact sumOver_singleton (fun q => (x q).mem (a q).data _) r
  · rw [hoff, hscratch]
    exact sumOver_ringFold (Int.lt_of_le_sub_one (hx _ (by omega))) c (by omega)

theorem allreduceRecursiveDoubling_adds
    (hs : Reaches (fabric P (BitVec 32) β Unit cap)
      (start (fun r => allreduceRecursiveDoubling (machine fadd).combine r call (a r)) x) s)
    (hf : (s r).proc = .upd f k) :
    ∃ off n, f = (a r).reduce (machine fadd).combine off n ∧ off / 4 + n ≤ count ∧
      ∀ j < n, AddsDisjoint (machine fadd).combine a x r off j (s r).loc := by
  obtain ⟨m, t, hP, ht, hred, hops⟩ := allreduceRecursiveDoubling_operands h hs hf
  refine ⟨0, count, hred, by omega, fun j hj => ?_⟩
  obtain ⟨hdata, hscratch⟩ := hops j hj
  have hbound := Int.lt_of_le_sub_one (hx j hj)
  have hj0 : 0 / 4 + j = j := by omega
  refine addsDisjoint_of_sumOver h hx (by omega) (disjoint_sameBlock hP ht r) ?_ ?_
  · rw [hj0, hdata]
    exact sumOver_xorTree hbound hP ht.le r
  · rw [hj0, hscratch]
    exact sumOver_xorTree hbound hP ht.le (partner t r)

end Adds

/-- Where the magnitudes of all ranks together fit into an `int32_t`, no addition of
`allreduce_ring` or `allreduce_recursive_doubling` overflows, on any rank at any time. -/
theorem int32_sum_never_overflows (cap : Fin P → Fin P → ℕ) (hP : 2 ≤ P)
    (fadd : BitVec 32 → BitVec 32 → BitVec 32) (call : ℕ) {count : ℕ} {a : Fin P → AllreduceArgs}
    (h : Alike a count .int32 .sum) {c : Call P}
    (hc : c = .allreduceRing a ∨ c = .allreduceRecursiveDoubling a)
    (x : Fin P → Local (BitVec 32) β)
    (hx : ∀ i < count, ∑ q, |((x q).mem (a q).data i).toInt| ≤ 2 ^ 31 - 1)
    {s : Fin P → RankState P (BitVec 32) β Unit}
    (hs : Reaches (fabric P (BitVec 32) β Unit cap)
      (start (fun r => c.proc (machine fadd).combine r call) x) s)
    {r : Fin P} {f : Local (BitVec 32) β → Local (BitVec 32) β} {k : Proc P (BitVec 32) β Unit}
    (hf : (s r).proc = .upd f k) :
    ∃ off n, f = (a r).reduce (machine fadd).combine off n ∧ off / 4 + n ≤ count ∧
      ∀ j < n, AddsDisjoint (machine fadd).combine a x r off j (s r).loc := by
  rcases hc with rfl | rfl
  · exact allreduceRing_adds h hx hP hs hf
  · exact allreduceRecursiveDoubling_adds h hx hs hf

/-- The magnitudes of the two ranks add up to 2^31 - 1. -/
def atLimit : Fin 2 → Local (BitVec 32) Unit :=
  ![⟨fun _ _ => 0x7ffffffe, ()⟩, ⟨fun _ _ => 1, ()⟩]

/-- Two ranks exchange their chunks, and the first one polls both completions. -/
def firstExchange (p q : Fin P) : List (Move (Fin P) (Act P) Chan) :=
  [.act p .op, .act p .op, .act q .op, .act q .op, .comm p q .rdma, .comm q p .rdma,
    .act p (.complete q), .act p .op, .act p .op]

theorem int32_sum_never_overflows_at_limit :
    ∃ (s : Fin 2 → RankState 2 (BitVec 32) Unit Unit)
      (f : Local (BitVec 32) Unit → Local (BitVec 32) Unit) (k : Proc 2 (BitVec 32) Unit Unit),
      Reaches (fabric 2 (BitVec 32) Unit Unit fun _ _ => 1)
        (start (fun r => (Call.allreduceRing fun _ => sumTwo).proc
          (machine fun u _ => u).combine r 0) atLimit) s ∧ (s 0).proc = .upd f k ∧
      ∃ off n, f = sumTwo.reduce (machine fun u _ => u).combine off n ∧ off / 4 + n ≤ 2 ∧
        ∀ j < n, AddsDisjoint (machine fun u _ => u).combine (fun _ => sumTwo) atLimit 0 off j
          (s 0).loc := by
  have halike : Alike (P := 2) (fun _ => sumTwo) 2 .int32 .sum := by
    constructor <;> decide
  obtain ⟨s, f, k, hrun, hf⟩ : ∃ s f k, fireAll (fabric 2 (BitVec 32) Unit Unit fun _ _ => 1)
      (firstExchange 0 1) (start (fun r => (Call.allreduceRing fun _ => sumTwo).proc
        (machine fun u _ => u).combine r 0) atLimit) = some s ∧
      (s 0).proc = .upd f k := ⟨_, _, _, rfl, rfl⟩
  have hs := reaches_of_fireAll hrun
  refine ⟨s, f, k, hs, hf, ?_⟩
  refine int32_sum_never_overflows _ le_rfl _ 0 halike (Or.inl rfl) _ (fun i _ => ?_) hs hf
  rw [Fin.sum_univ_two]
  change |((0x7ffffffe : BitVec 32)).toInt| + |((1 : BitVec 32)).toInt| ≤ 2 ^ 31 - 1
  decide

end MicroCcl

import MicroCcl.Traces
import MicroCcl.Neighbours
import MicroCcl.RecursiveDoubling

namespace MicroCcl
open Network

variable {P : ℕ} {α β : Type}

section Turns

variable (ops : Ops α) (call : ℕ) (a : Fin P → AllreduceArgs)

def doublingTurn (r : Fin P) (step : ℕ) : Turn P α β where
  src := partner step r
  part :=
    { wr := workRequest (a r).scratchMr (a r).scratch 0 (szMul (a r).count 4) ⟨call, step⟩
      expected := szMul (a r).count 4
      mismatch := doublingMismatch step (szMul (a r).count 4)
      reduce := some ((a r).reduce ops 0 (a r).count) }
  dst := partner step r
  wr := workRequest (a r).dataMr (a r).data 0 (szMul (a r).count 4) ⟨call, step⟩

def doublingTurns (m : ℕ) (r : Fin P) : List (Turn P α β) :=
  (List.range m).map (doublingTurn ops call a r)

theorem roundsProc_doublingTurns (m : ℕ) (r : Fin P) :
    roundsProc (doublingRounds ops call a m) r =
      turnsProc (doublingTurns (β := β) ops call a m r) := by
  simp only [roundsProc, turnsProc, doublingRounds, doublingTurns, List.forM_eq_forM,
    List.forM_map]
  rfl

theorem recvsPosted_doublingRounds (m : ℕ) (r : Fin P) :
    recvsPosted (roundsEvents (doublingRounds (β := β) ops call a m) r) =
      (doublingTurns (β := β) ops call a m r).map fun t => (t.src, t.part.wr) := by
  rw [recvsPosted_roundsEvents, doublingRounds, doublingTurns, List.flatMap_map, List.map_map]
  exact List.map_eq_flatMap.symm

theorem doublingTurns_getElem? {m j : ℕ} (hj : j < m) (r : Fin P) :
    (doublingTurns (β := β) ops call a m r)[j]? = some (doublingTurn ops call a r j) := by
  simp [doublingTurns, List.getElem?_range hj]

theorem partner_inj {m j k : ℕ} (hP : P = 2 ^ m) (hj : j < m) (hk : k < m) {r : Fin P}
    (h : partner j r = partner k r) : j = k := by
  have hbit := testBit_partner hP hj r j
  rw [h, testBit_partner hP hk r j] at hbit
  by_contra hne
  simp [Ne.symm hne] at hbit

/-- What the partner of step `j` posts for `q` it posts in its own step `j`. -/
theorem doublingTurns_post_partner {m i j : ℕ} (hP : P = 2 ^ m) (hj : j < m) {q : Fin P} {wr : Wr}
    (h : ((doublingTurns (β := β) ops call a m (partner j q)).map Turn.post)[i]? = some (q, wr)) :
    i = j ∧ (doublingTurn (β := β) ops call a (partner j q) j).wr = wr := by
  rw [doublingTurns, List.getElem?_map, List.getElem?_map, Option.map_eq_some_iff] at h
  obtain ⟨t, ht, hpost⟩ := h
  obtain ⟨k, hk, rfl⟩ := Option.map_eq_some_iff.mp ht
  obtain ⟨hlt, rfl⟩ := List.getElem?_eq_some_iff.mp hk
  rw [List.length_range] at hlt
  rw [List.getElem_range] at hpost
  obtain ⟨hdst, hwr⟩ := Prod.mk.inj hpost
  obtain rfl : i = j := by
    apply partner_inj hP hlt hj (r := partner j q)
    rw [partner_partner hP hj]
    exact hdst
  exact ⟨rfl, hwr⟩

theorem allreduceRecursiveDoubling_cases {m : ℕ} (hP : P = 2 ^ m) (h2 : 2 ≤ P) (r : Fin P) :
    (∃ e, allreduceRecursiveDoubling (β := β) ops r call (a r) = .throw e) ∨
      allreduceRecursiveDoubling (β := β) ops r call (a r) =
        roundsProc (doublingRounds ops call a m) r := by
  have hpow : isPowerOfTwo P = true := hP ▸ isPowerOfTwo_two_pow m
  have hsteps : halvings P = m := hP ▸ halvings_two_pow m
  unfold allreduceRecursiveDoubling
  simp only [dtypeSize_eq, hpow, not_true, if_false, if_neg (show P ≠ 1 by omega), hsteps]
  split_ifs
  · exact Or.inl ⟨_, rfl⟩
  · exact Or.inl ⟨_, rfl⟩
  · right
    exact forM_eq_roundsProc fun s hs => doublingStep_eq hP (List.mem_range.mp hs) ops call a r

end Turns

section Runs

variable {cap : Fin P → Fin P → ℕ} {m : ℕ} {ops : Ops α} {call : ℕ} {a : Fin P → AllreduceArgs}
  {l : Fin P → Local α β} {s : Fin P → RankState P α β Unit} (hP : P = 2 ^ m)

variable (h2 : 2 ≤ P)
  (hs : Reaches (fabric P α β Unit cap)
    (start (fun r => allreduceRecursiveDoubling ops r call (a r)) l) s)
include hP h2

variable (ops call a) in
theorem allreduceRecursiveDoubling_hist (q : Fin P) :
    Hist (Kept (doublingTurns (β := β) ops call a m q))
      (fun _ _ ws => (doublingTurns (β := β) ops call a m q).map Turn.passed <+: ws)
      (allreduceRecursiveDoubling (β := β) ops q call (a q)) [] [] := by
  rcases allreduceRecursiveDoubling_cases (β := β) ops call a hP h2 q with ⟨e, he⟩ | he
  · rw [he]
    trivial
  · rw [he, roundsProc_doublingTurns]
    exact turns_hist [] _

include hs

/-- The messages came from the partners of the steps, in this order. -/
theorem doubling_log_src (q : Fin P) :
    ((s q).log.map Prod.fst) <+: (doublingTurns (β := β) ops call a m q).map Turn.src := by
  have hf : Follows (fun _ _ => True) none none
      (allreduceRecursiveDoubling (β := β) ops q call (a q))
      (roundsEvents (doublingRounds ops call a m) q) := by
    rcases allreduceRecursiveDoubling_cases (β := β) ops call a hP h2 q with ⟨e, he⟩ | he
    · rw [he]
      trivial
    · rw [he]
      exact rounds_follows fun _ _ _ _ _ _ => trivial
  have hal := Follows.along (p := fun r => allreduceRecursiveDoubling ops r call (a r)) hf hs
  have hlog := hal.log_prefix.map Prod.fst
  rw [recvsPosted_doublingRounds, List.map_map, List.map_map] at hlog
  exact hlog

/-- The delivery that step `j` of `q` has waited for came from its partner in this step. -/
theorem doubling_delivery {q : Fin P} {j : ℕ} (hj : j < m)
    (hq : Passed (doublingTurns (β := β) ops call a m q) (j + 1) (s q)) :
    ∃ e, (s q).log[j]? = some e ∧ e.1 = partner j q ∧
      completionOf e = (doublingTurn (β := β) ops call a q j).passed := by
  have hturn := doublingTurns_getElem? (β := β) ops call a hj q
  have hwc : ((s q).log.map completionOf)[j]? =
      some (doublingTurn (β := β) ops call a q j).passed := by
    apply getElem?_of_prefix hq
    rw [List.getElem?_map, List.getElem?_take_of_lt (Nat.lt_succ_self j), hturn]
    rfl
  rw [List.getElem?_map, Option.map_eq_some_iff] at hwc
  obtain ⟨e, he, hpassed⟩ := hwc
  refine ⟨e, he, ?_, hpassed⟩
  have hlog : ((s q).log.map Prod.fst)[j]? = some e.1 := by
    rw [List.getElem?_map, he]
    rfl
  have hget := getElem?_of_prefix (doubling_log_src hP h2 hs q) hlog
  rw [List.getElem?_map, hturn] at hget
  exact (Option.some.inj hget).symm

/-- A rank that got through step `j` has the count of its partner, and that one got through all
steps before `j`. -/
theorem doubling_passed_partner (hshort : ∀ r, (a r).count * 4 < 2 ^ 32) {q : Fin P} {j : ℕ}
    (hj : j < m) (hq : Passed (doublingTurns (β := β) ops call a m q) (j + 1) (s q)) :
    (a (partner j q)).count = (a q).count ∧
      Passed (doublingTurns (β := β) ops call a m (partner j q)) j (s (partner j q)) := by
  obtain ⟨e, he, hsrc, hpassed⟩ := doubling_delivery hP h2 hs hj hq
  -- the partner has posted it in its own step `j`
  obtain ⟨ps, ws, hrec⟩ := recorded_turns
    (fun q => allreduceRecursiveDoubling_hist ops call a hP h2 q) hs e.1
  have hmem := hrec.posted_of_log (fifo (fun _ _ => rfl) hs) (List.mem_of_getElem? he)
  obtain ⟨i, hi⟩ := List.getElem?_of_mem hmem
  have hpost := getElem?_of_prefix hrec.inv.1 hi
  rw [hsrc] at hrec hpost
  have hlen := (List.getElem?_eq_some_iff.mp hi).1
  obtain ⟨rfl, hwr⟩ := doublingTurns_post_partner ops call a hP hj hpost
  constructor
  · have hsize := length_of_completionOf hpassed
    rw [← hwr] at hsize
    simp only [doublingTurn, workRequest, szMul] at hsize
    have h3 := hshort q
    have h4 := hshort (partner i q)
    omega
  · have htake : (doublingTurns (β := β) ops call a m (partner i q)).take i <+:
        (doublingTurns ops call a m (partner i q)).take (ps.length - 1) :=
      List.take_prefix_take_left (by omega)
    rw [Passed, ← hrec.told]
    exact (htake.map _).trans (hrec.inv.2.trans (List.prefix_append _ _))

/-- The induction: a rank that got through `k` steps has the count of its whole block. -/
theorem doubling_block_agrees (hshort : ∀ r, (a r).count * 4 < 2 ^ 32) {k : ℕ} (hk : k ≤ m)
    {q : Fin P} (hq : Passed (doublingTurns (β := β) ops call a m q) k (s q)) {p : Fin P}
    (hp : SameBlock k q p) : (a p).count = (a q).count := by
  induction k generalizing q p with
  | zero => rw [sameBlock_zero_iff.mp hp]
  | succ k ih =>
    have hkm : k < m := by omega
    have hq' : Passed (doublingTurns (β := β) ops call a m q) k (s q) :=
      ((List.take_prefix_take_left (Nat.le_succ k)).map _).trans hq
    obtain ⟨hcount, hpartner⟩ := doubling_passed_partner hP h2 hs hshort hkm hq
    -- the other half of the block is that of the partner
    rcases (sameBlock_succ_iff hP hkm q p).mp hp with hsame | hother
    · exact ih hkm.le hq' hsame
    · rw [ih hkm.le hpartner hother, hcount]

end Runs

/-- Whatever counts the ranks pass: when a rank returns from `allreduce_recursive_doubling`, in any
run, all ranks passed the same count. -/
theorem allreduceRecursiveDoubling_returned_counts_agree (cap : Fin P → Fin P → ℕ) {m : ℕ}
    (hP : P = 2 ^ m) (h2 : 2 ≤ P) (ops : Ops α) (call : ℕ) (a : Fin P → AllreduceArgs)
    (hshort : ∀ r, (a r).count * 4 < 2 ^ 32) (l : Fin P → Local α β)
    {s : Fin P → RankState P α β Unit}
    (hs : Reaches (fabric P α β Unit cap)
      (start (fun r => allreduceRecursiveDoubling ops r call (a r)) l) s)
    {r : Fin P} (hr : (s r).proc = .pure ()) (q : Fin P) : (a q).count = (a r).count := by
  have hpassed := passed_of_returned
    (fun q => allreduceRecursiveDoubling_hist ops call a hP h2 q) hs hr
  rw [show (doublingTurns (β := β) ops call a m r).length = m by simp [doublingTurns]] at hpassed
  exact doubling_block_agrees hP h2 hs hshort le_rfl hpassed (sameBlock_top hP r q)

/-- Four ranks with one element each, in regions of different length. -/
def oneEach (r : Fin 4) : AllreduceArgs :=
  ⟨⟨0, 4 + 4 * r⟩, 0, 1, .int32, .sum, ⟨1, 4⟩, 1, 1⟩

theorem allreduceRecursiveDoubling_returned_counts_agree_one_each :
    ∃ s, Reaches (fabric 4 ℕ Unit Unit fun _ _ => 1)
      (start (fun r => allreduceRecursiveDoubling (fun _ _ u v => u + v) r 0 (oneEach r))
        fun r => ⟨fun _ _ => 10 ^ r.val, ()⟩) s ∧
      (s 0).proc = .pure () ∧ ∀ q, (oneEach q).count = (oneEach 0).count := by
  have hready : Ready oneEach 1 .int32 .sum 1 := by
    constructor <;> decide
  obtain ⟨s, hs, hret⟩ := allreduceRecursiveDoubling_settles (m := 2) (fun _ _ => 1) rfl
    (fun _ _ u v => u + v) 0 hready (fun r => ⟨fun _ _ => 10 ^ r.val, ()⟩) .refl
  refine ⟨s, hs, hret 0, fun q => ?_⟩
  exact allreduceRecursiveDoubling_returned_counts_agree (m := 2) (fun _ _ => 1) rfl (by decide)
    (fun _ _ u v => u + v) 0 oneEach (by decide) _ hs (hret 0) q

end MicroCcl

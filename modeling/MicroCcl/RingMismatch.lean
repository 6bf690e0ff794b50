import MicroCcl.RingSteps

namespace MicroCcl
open Network

variable {P : ℕ} {α β : Type} {cap : Fin P → Fin P → ℕ} {ops : Ops α} {call : ℕ}
  {a : Fin P → AllreduceArgs} {l : Fin P → Local α β} {s : Fin P → RankState P α β Unit}

section Chain

/-- The rank has a receive in step `h` and has seen what it expected in all steps up to it. -/
def PassedStep (ops : Ops α) (call : ℕ) (a : Fin P → AllreduceArgs)
    (s : Fin P → RankState P α β Unit) (q : Fin P) (h : ℕ) : Prop :=
  0 < recvSize a q h ∧
    ∀ i ≤ h, ∀ w ∈ (ringRound (β := β) ops call a i q).awaited, w ∈ (s q).log.map answer

theorem ringRound_awaited (ops : Ops α) (call : ℕ) (hP : 2 ≤ P) {q : Fin P} {i : ℕ}
    (hi : i < 2 * (P - 1)) (hpos : 0 < recvSize a q i) : ∃ v : RecvPart α β,
      v.wr.tag = ⟨call, i⟩ ∧ v.expected = szMul (recvSize a q i) 4 ∧
      (ringRound (β := β) ops call a i q).awaited =
        some ((prev q, v.wr), ⟨.success, v.expected⟩) := by
  obtain ⟨v, htag, hexp, hrecv⟩ := ringRound_recv (β := β) ops call a hP hi q
  refine ⟨v, htag, hexp, ?_⟩
  rw [Xfer.awaited, hrecv, if_pos hpos]
  rfl

variable (hP : 2 ≤ P) (hshort : ∀ r, (a r).count * 4 < 2 ^ 32)
  (hs : Reaches (fabric P α β Unit cap) (start (fun r => allreduceRing ops r call (a r)) l) s)
include hP

theorem PassedStep.mem {q : Fin P} {h : ℕ} (hp : PassedStep ops call a s q h)
    (hh : h < 2 * (P - 1)) : ⟨call, h⟩ ∈ (s q).log.map fun e => e.2.2.tag := by
  obtain ⟨v, htag, -, hw⟩ := ringRound_awaited (β := β) ops call hP hh hp.1
  obtain ⟨e, he, hans⟩ := List.mem_map.mp (hp.2 h le_rfl _ hw)
  refine List.mem_map.mpr ⟨e, he, ?_⟩
  rw [← htag, ← congrArg (fun w => w.1.2.tag) hans]
  rfl

include hshort hs

theorem InStep.log_tags (hin : InStep s) (q : Fin P) :
    ((s q).log.map fun e => e.2.2.tag) = (s (prev q)).sent.map fun y => y.2.tag := by
  have hlink := congrArg (List.map Wr.tag) (ring_link hP hshort hs q)
  rw [List.map_map, List.map_map] at hlink
  exact (List.map_congr_left fun e he => (hin q e he).symm).trans hlink.symm

theorem recvSize_eq_sendSize (hin : InStep s) {q : Fin P} {h : ℕ} (hh : h < 2 * (P - 1))
    (hp : PassedStep ops call a s q h) {i : ℕ} (hi : i ≤ h) :
    recvSize a q i = sendSize a (prev q) i := by
  have hlog := hp.mem hP hh
  have hsent := hin.log_tags hP hshort hs q ▸ hlog
  have hrecvs := mem_of_prefix_filter (ring_log_tags hP hshort hs q) hlog hi
  have hsends := mem_of_prefix_filter (ring_sent_tags hP hshort hs (prev q)) hsent hi
  by_cases hpos : 0 < recvSize a q i
  -- the message of step `i` had the length of the receive
  · obtain ⟨v, htag, hexp, hw⟩ := ringRound_awaited (β := β) ops call hP (by omega) hpos
    obtain ⟨e, he, hans⟩ := List.mem_map.mp (hp.2 i hi _ hw)
    have hlen : e.2.1.length = szMul (recvSize a q i) 4 := by
      rw [← hexp]
      exact length_of_completionOf (congrArg Prod.snd hans)
    have hetag : e.2.1.tag = ⟨call, i⟩ := by
      rw [hin q e he, ← htag, ← congrArg (fun w => w.1.2.tag) hans]
      rfl
    have hmem : e.2.1 ∈ (s (prev q)).sent.map Prod.snd := by
      rw [ring_link hP hshort hs]
      exact List.mem_map_of_mem he
    obtain ⟨y, hy, hye⟩ := List.mem_map.mp hmem
    have halong := ring_along hshort hs (prev q)
    have hposted := halong.sent_prefix.subset hy
    rw [sendsPosted_flatMap] at hposted
    obtain ⟨x, hx, hsend⟩ := List.mem_filterMap.mp hposted
    obtain ⟨j, hj, rfl⟩ := List.mem_map.mp hx
    obtain ⟨wr, hwtag, hwlen, hwr⟩ :=
      ringRound_send (β := β) ops call a hP (List.mem_range.mp hj) (prev q)
    rw [hwr] at hsend
    split_ifs at hsend
    obtain rfl := Option.some.inj hsend
    obtain rfl : wr = e.2.1 := hye
    obtain rfl : j = i := congrArg Tag.step (hwtag.symm.trans hetag)
    have h1 : recvSize a q j ≤ (a q).count := chunkCount_le (ringIdx_lt q _)
    have h2 : sendSize a (prev q) j ≤ (a (prev q)).count := chunkCount_le (ringIdx_lt _ _)
    have hq := hshort q
    have hprev := hshort (prev q)
    rw [hlen, szMul, szMul, Nat.mod_eq_of_lt (by omega), Nat.mod_eq_of_lt (by omega),
      Nat.mod_eq_of_lt (by omega)] at hwlen
    omega
  -- a step without a receive is one without a send
  · have hnone : ¬ 0 < sendSize a (prev q) i := fun hpos' =>
      hpos (hrecvs.mp (hin.log_tags hP hshort hs q ▸ hsends.mpr hpos'))
    omega

theorem PassedStep.pred (hin : InStep s) {q : Fin P} {h : ℕ} (hh : h < 2 * (P - 1))
    (hp : PassedStep ops call a s q h) {i : ℕ} (hi : i < h) (hpos : 0 < recvSize a (prev q) i) :
    PassedStep ops call a s (prev q) i := by
  refine ⟨hpos, fun j hj w hw => ?_⟩
  obtain ⟨y, hy, hytag⟩ := List.mem_map.mp (hin.log_tags hP hshort hs q ▸ hp.mem hP hh)
  obtain ⟨done, todo, ps, pr, htrace, hprog⟩ := ring_along hshort hs (prev q)
  have hposted := hprog.sent_prefix.subset hy
  obtain ⟨k, hk, hsend, hwaits⟩ := waited_of_posted htrace hposted
  obtain ⟨wr, hwtag, -, hwr⟩ := ringRound_send (β := β) ops call a hP hk (prev q)
  rw [hwr] at hsend
  split_ifs at hsend
  obtain rfl := Option.some.inj hsend
  obtain rfl : k = h := congrArg Tag.step (hwtag.symm.trans hytag)
  exact hprog.waited_prefix.subset (hwaits j (by omega) w hw)

theorem PassedStep.iterate (hin : InStep s) {q : Fin P} {h : ℕ} (hh : h < 2 * (P - 1))
    (hp : PassedStep ops call a s q h) {k : ℕ} (hk : k ≤ h) :
    PassedStep ops call a s (prev^[k] q) (h - k) ∧
      ringIdx (prev^[k] q) (h - k + 1) = ringIdx q (h + 1) := by
  induction k with
  | zero => exact ⟨hp, rfl⟩
  | succ k ih =>
    obtain ⟨hpass, hidx⟩ := ih (by omega)
    obtain ⟨i, hi⟩ : ∃ i, h - k = i + 1 := ⟨h - k - 1, by omega⟩
    rw [hi] at hpass hidx
    rw [Function.iterate_succ_apply', show h - (k + 1) = i by omega]
    refine ⟨hpass.pred hP hshort hs hin (by omega) (Nat.lt_succ_self i) ?_, ?_⟩
    · rw [recvSize, ← sendSize, ← recvSize_eq_sendSize hP hshort hs hin (by omega) hpass le_rfl]
      exact hpass.1
    · rw [ringIdx_prev, hidx]

omit hP in
theorem passedStep_of_returned {r : Fin P} (hr : (s r).proc = .pure ()) {h : ℕ}
    (hh : h < 2 * (P - 1)) (hpos : 0 < recvSize a r h) : PassedStep ops call a s r h := by
  refine ⟨hpos, fun i hi w hw => ?_⟩
  rw [((ring_along hshort hs r).returned hr).2, recvWaits_flatMap]
  exact List.mem_filterMap.mpr ⟨_, List.mem_map_of_mem (List.mem_range.mpr (by omega)), hw⟩

theorem PassedStep.chunkCount_prev (hin : InStep s) {q : Fin P} {h : ℕ} (hh : h < 2 * (P - 1))
    (hp : PassedStep ops call a s q h) {i c : ℕ} (hi : i ≤ h) (hc : ringIdx q (i + 1) = c) :
    chunkCount (a (prev q)).count P c = chunkCount (a q).count P c := by
  have heq := recvSize_eq_sendSize hP hshort hs hin hh hp hi
  rw [recvSize, sendSize, ringIdx_prev, hc] at heq
  exact heq.symm

theorem PassedStep.count_prev (hin : InStep s) {q : Fin P} {h : ℕ} (hh : h < 2 * (P - 1))
    (hp : PassedStep ops call a s q h) (hlate : P - 1 ≤ h) :
    (a (prev q)).count = (a q).count := by
  apply eq_of_chunkCount_eq q.pos
  intro c hc
  obtain ⟨i, hi, hidx⟩ := exists_ringIdx_first q hc
  exact hp.chunkCount_prev hP hshort hs hin hh (by omega) hidx

theorem count_of_full (hin : InStep s) {r : Fin P} (hr : (s r).proc = .pure ())
    (hfull : P ≤ (a r).count) {k : ℕ} (hk : k < P) : (a (prev^[k] r)).count = (a r).count := by
  have hpos : ∀ h, 0 < recvSize a r h := fun h =>
    (Nat.div_pos hfull r.pos).trans_le (le_chunkCount _ _ _)
  have hp := passedStep_of_returned hshort hs hr (h := 2 * P - 3) (by omega) (hpos _)
  induction k with
  | zero => rfl
  | succ k ih =>
    obtain ⟨hpass, -⟩ := hp.iterate hP hshort hs hin (by omega) (show k ≤ 2 * P - 3 by omega)
    rw [Function.iterate_succ_apply', ← ih (by omega)]
    exact hpass.count_prev hP hshort hs hin (by omega) (by omega)

/-- The last chunk that is not empty comes to `r` in a late step, from rank to rank. Each of them
has got the chunk behind it, which is empty, a step earlier. -/
theorem count_of_sparse (hin : InStep s) {r : Fin P} (hr : (s r).proc = .pure ())
    (hpos : 0 < (a r).count) (hsparse : (a r).count < P) : ∃ h, P - 2 ≤ h ∧ h < 2 * (P - 1) ∧
      ringIdx r (h + 1) = (a r).count - 1 ∧
      ∀ k ≤ h, (a (prev^[k] r)).count = (a r).count := by
  obtain ⟨h, hlate, hh, hidx⟩ := exists_ringIdx hP r (show (a r).count - 1 < P by omega)
  refine ⟨h, hlate, hh, hidx, fun k hk => ?_⟩
  have hsize : 0 < recvSize a r h := by
    rw [recvSize, hidx, chunkCount_of_lt hsparse, if_pos (by omega)]
    exact Nat.one_pos
  have hp := passedStep_of_returned hshort hs hr hh hsize
  induction k with
  | zero => rfl
  | succ k ih =>
    obtain ⟨hpass, hchunk⟩ := hp.iterate hP hshort hs hin hh (show k ≤ h by omega)
    obtain ⟨i, hi⟩ : ∃ i, h - k = i + 1 := ⟨h - k - 1, by omega⟩
    rw [hi, hidx] at hchunk
    rw [hi] at hpass
    have hbehind : ringIdx (prev^[k] r) (i + 1) = (a r).count := by
      rw [ringIdx_pred hchunk (by omega), Nat.sub_add_cancel hpos]
    have hlast := hpass.chunkCount_prev hP hshort hs hin (by omega) le_rfl hchunk
    have hnext := hpass.chunkCount_prev hP hshort hs hin (by omega) (Nat.le_succ i) hbehind
    rw [ih (by omega), chunkCount_of_lt hsparse] at hlast hnext
    rw [if_pos (by omega)] at hlast
    rw [if_neg (by omega)] at hnext
    rw [Function.iterate_succ_apply']
    exact eq_of_last_chunk hpos hsparse (by omega) hnext

/-- The successor of a rank that has returned took its sends of the first `P` steps and no others.
-/
theorem count_next_of_sparse (hin : InStep s) {r : Fin P} (hr : (s r).proc = .pure ())
    (hpos : 0 < (a r).count) (hsparse : (a r).count < P)
    (hidx : ringIdx r (P - 1) = (a r).count - 1) : (a (next r)).count = (a r).count := by
  have hbehind : ringIdx r (P - 2) = (a r).count := by
    rw [ringIdx_pred (h := P - 2) (by rw [show P - 2 + 1 = P - 1 by omega, hidx]) (by omega),
      Nat.sub_add_cancel hpos]
  have hsize : 0 < sendSize a r (P - 1) := by
    rw [sendSize, hidx, chunkCount_of_lt hsparse, if_pos (by omega)]
    exact Nat.one_pos
  obtain ⟨wr, htag, -, hwr⟩ := ringRound_send (β := β) ops call a hP (h := P - 1) (by omega) r
  rw [if_pos hsize] at hwr
  have hsent : ⟨call, P - 1⟩ ∈ (s r).sent.map fun y => y.2.tag := by
    rw [((ring_along hshort hs r).returned hr).1, sendWaits_flatMap, ← htag]
    refine List.mem_map.mpr ⟨(next r, wr), List.mem_filterMap.mpr ⟨_, ?_, hwr⟩, rfl⟩
    exact List.mem_map_of_mem (List.mem_range.mpr (by omega))
  have hlog := hin.log_tags hP hshort hs (next r)
  rw [prev_next] at hlog
  have hsends := fun i => mem_of_prefix_filter (j := i) (ring_sent_tags hP hshort hs r) hsent
  have hrecvs := fun i => mem_of_prefix_filter (j := i) (ring_log_tags hP hshort hs (next r))
    (hlog ▸ hsent)
  have hiff : ∀ i ≤ P - 1, 0 < chunkCount (a (next r)).count P (ringIdx r i) ↔
      0 < chunkCount (a r).count P (ringIdx r i) := by
    intro i hi
    have hnext : recvSize a (next r) i = chunkCount (a (next r)).count P (ringIdx r i) := by
      rw [recvSize, ← ringIdx_prev, prev_next]
    rw [← hnext, ← hrecvs i hi, hlog, hsends i hi]
    rfl
  have hlast := hiff (P - 1) le_rfl
  have hempty := hiff (P - 2) (by omega)
  rw [hidx, chunkCount_of_lt hsparse, if_pos (by omega)] at hlast
  rw [hbehind, chunkCount_of_lt hsparse, if_neg (by omega)] at hempty
  exact eq_of_last_chunk hpos hsparse (hlast.mpr Nat.one_pos) (by omega)

theorem counts_eq_of_inStep (hin : InStep s) {r : Fin P} (hr : (s r).proc = .pure ())
    (hpos : 0 < (a r).count) (q : Fin P) : (a q).count = (a r).count := by
  obtain ⟨k, hk, rfl⟩ := exists_prev_iterate r q
  rcases Nat.lt_or_ge (a r).count P with hsparse | hfull
  · obtain ⟨h, hlate, hh, hidx, hall⟩ := count_of_sparse hP hshort hs hin hr hpos hsparse
    rcases Nat.lt_or_ge h k with hlt | hge
    -- only the successor of `r` may not have passed the chunk on
    · obtain rfl : h = P - 2 := by omega
      obtain rfl : k = P - 1 := by omega
      have hnext : prev^[P - 1] r = next r := by
        apply Fin.ext
        rw [prev_iterate r hk, back_last, val_next]
      rw [show P - 2 + 1 = P - 1 by omega] at hidx
      rw [hnext]
      exact count_next_of_sparse hP hshort hs hin hr hpos hsparse hidx
    · exact hall k hge
  · exact count_of_full hP hshort hs hin hr hfull hk

end Chain

/-- When a rank has returned from `allreduce_ring`, in any run, all ranks passed the same count
exactly if every message has met the receive that its receiver posted for the same step. -/
theorem allreduceRing_returned_counts_agree_iff (cap : Fin P → Fin P → ℕ) (hP : 2 ≤ P)
    (ops : Ops α) (call : ℕ) (a : Fin P → AllreduceArgs) (hpos : ∀ r, 0 < (a r).count)
    (hshort : ∀ r, (a r).count * 4 < 2 ^ 32) (l : Fin P → Local α β)
    {s : Fin P → RankState P α β Unit}
    (hs : Reaches (fabric P α β Unit cap) (start (fun r => allreduceRing ops r call (a r)) l) s)
    {r : Fin P} (hr : (s r).proc = .pure ()) : (∀ q, (a q).count = (a r).count) ↔ InStep s :=
  ⟨fun hall => inStep_of_counts_eq hP hshort hs hall,
    fun hin => counts_eq_of_inStep hP hshort hs hin hr (hpos r)⟩

/-- Three elements on both ranks, in regions of different length. -/
def threeEach (r : Fin 2) : AllreduceArgs :=
  ⟨⟨0, 12 + 4 * r⟩, 0, 3, .int32, .sum, ⟨1, 8⟩, 1, 2⟩

theorem allreduceRing_returned_counts_agree_iff_three_each :
    ∃ s, Reaches (fabric 2 ℕ Unit Unit fun _ _ => 1)
      (start (fun r => allreduceRing (fun _ _ u v => u + v) r 0 (threeEach r))
        fun r => ⟨fun _ i => 10 * r + i, ()⟩) s ∧
      (s 0).proc = .pure () ∧ InStep s := by
  have hready : Ready threeEach 3 .int32 .sum ((3 + 2 - 1) / 2) := by
    constructor <;> decide
  obtain ⟨s, hs, hret⟩ := allreduceRing_settles (fun _ _ => 1) (fun _ _ u v => u + v) 0 hready
    (fun r => ⟨fun _ i => 10 * r + i, ()⟩) .refl
  refine ⟨s, hs, hret 0, ?_⟩
  exact (allreduceRing_returned_counts_agree_iff (fun _ _ => 1) le_rfl (fun _ _ u v => u + v) 0
    threeEach (by decide) (by decide) _ hs (hret 0)).mp (by decide)

/-- One element on rank 0 and two on rank 1. -/
def oneAndTwo (r : Fin 2) : AllreduceArgs :=
  if r = 0 then ⟨⟨0, 4⟩, 0, 1, .int32, .sum, ⟨1, 4⟩, 1, 1⟩
  else ⟨⟨0, 8⟩, 0, 2, .int32, .sum, ⟨1, 4⟩, 1, 1⟩

/-- The first message of rank 1 carries its second chunk. Rank 0 has no such chunk, so it takes the
message for its only one. -/
def mismatchedRun : List (Move (Fin 2) (Act 2) Chan) :=
  [.act 1 .op, .act 1 .op, .act 0 .op, .comm 0 1 .rdma, .act 0 (.complete 1), .act 0 .op,
    .act 0 .op, .comm 1 0 .rdma, .act 0 .op]

theorem allreduceRing_accepts_wrong_chunk :
    ∃ s, Reaches (fabric 2 ℕ Unit Unit fun _ _ => 1)
      (start (fun r => allreduceRing (fun _ _ u v => u + v) r 0 (oneAndTwo r))
        fun r => ⟨fun _ i => 10 * (r + 1) + i, ()⟩) s ∧
      (s 0).proc = .pure () ∧ (oneAndTwo 0).count ≠ (oneAndTwo 1).count ∧
      (s 0).loc.mem 0 0 = 21 := by
  obtain ⟨s, hrun, hret, hdata⟩ : ∃ s, fireAll (fabric 2 ℕ Unit Unit fun _ _ => 1) mismatchedRun
      (start (fun r => allreduceRing (fun _ _ u v => u + v) r 0 (oneAndTwo r))
        fun r => ⟨fun _ i => 10 * (r + 1) + i, ()⟩) = some s ∧
      (s 0).proc = .pure () ∧ (s 0).loc.mem 0 0 = 21 := ⟨_, rfl, rfl, rfl⟩
  exact ⟨s, reaches_of_fireAll hrun, hret, by decide, hdata⟩

end MicroCcl

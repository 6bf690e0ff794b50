import MicroCcl.Lockstep

namespace MicroCcl
open Network

variable {P : ℕ} {α β : Type}

theorem succ_mod_eq (hP : 0 < P) (h : ℕ) :
    (h + 1) % P = if h % P + 1 = P then 0 else h % P + 1 := by
  have hlt := Nat.mod_lt h hP
  rw [← Nat.mod_add_mod]
  split_ifs with he
  · rw [he, Nat.mod_self]
  · exact Nat.mod_eq_of_lt (by omega)

/-- The chunk that a rank sends in step `h`, the steps of both phases numbered in one row. It
receives the chunk that it sends in the step after. -/
def ringIdx (r : Fin P) (h : ℕ) : ℕ := back P r (h % P)

theorem ringIdx_lt (r : Fin P) (h : ℕ) : ringIdx r h < P := back_lt r _

theorem ringIdx_prev (r : Fin P) (h : ℕ) : ringIdx (prev r) h = ringIdx r (h + 1) := by
  have hlt := Nat.mod_lt h r.pos
  have hr := r.isLt
  rw [ringIdx, ringIdx, back_prev r (by omega), succ_mod_eq r.pos]
  simp only [back]
  split_ifs <;> omega

theorem ringIdx_pred {r : Fin P} {h c : ℕ} (hc : ringIdx r (h + 1) = c) (hcP : c + 1 < P) :
    ringIdx r h = c + 1 := by
  have hlt := Nat.mod_lt h r.pos
  have hr := r.isLt
  rw [ringIdx, succ_mod_eq r.pos] at hc
  simp only [ringIdx, back] at hc ⊢
  split_ifs at hc ⊢ <;> omega

/-- Every chunk is among those received in the last `P` steps. -/
theorem exists_ringIdx (hP : 2 ≤ P) (r : Fin P) {c : ℕ} (hc : c < P) :
    ∃ h, P - 2 ≤ h ∧ h < 2 * (P - 1) ∧ ringIdx r (h + 1) = c := by
  have hback := back_lt r c
  have hidx : back P r (back P r c) = c :=
    (back_eq_iff r ⟨c, hc⟩ hback).mpr rfl
  by_cases hlast : back P r c = P - 1
  · refine ⟨P - 2, le_rfl, by omega, ?_⟩
    rw [ringIdx, show P - 2 + 1 = P - 1 by omega, Nat.mod_eq_of_lt (by omega), ← hlast, hidx]
  · refine ⟨P + back P r c - 1, by omega, by omega, ?_⟩
    rw [ringIdx, show P + back P r c - 1 + 1 = P + back P r c by omega, Nat.add_mod_left,
      Nat.mod_eq_of_lt hback, hidx]

/-- Which of the first `P` steps a chunk is received in. -/
theorem exists_ringIdx_first (r : Fin P) {c : ℕ} (hc : c < P) :
    ∃ h < P, ringIdx r (h + 1) = c := by
  have hback := back_lt r c
  have hidx : back P r (back P r c) = c :=
    (back_eq_iff r ⟨c, hc⟩ hback).mpr rfl
  by_cases hzero : back P r c = 0
  · refine ⟨P - 1, by omega, ?_⟩
    rw [ringIdx, Nat.sub_add_cancel r.pos, Nat.mod_self, ← hzero, hidx]
  · refine ⟨back P r c - 1, by omega, ?_⟩
    rw [ringIdx, Nat.sub_add_cancel (by omega), Nat.mod_eq_of_lt hback, hidx]

section Steps

variable (ops : Ops α) (call : ℕ) (a : Fin P → AllreduceArgs)

def sendSize (r : Fin P) (h : ℕ) : ℕ := chunkCount (a r).count P (ringIdx r h)

def recvSize (r : Fin P) (h : ℕ) : ℕ := chunkCount (a r).count P (ringIdx r (h + 1))

def ringRound (h : ℕ) : Round P α β :=
  if h < P - 1 then reduceScatterRound ops call a h else ringAllgatherRound call a (h - (P - 1))

theorem ringRounds_eq : ringRounds (β := β) ops call a =
    (List.range (2 * (P - 1))).map (ringRound ops call a) := by
  rw [show 2 * (P - 1) = P - 1 + (P - 1) by omega, List.range_add, List.map_append, ringRounds,
    List.map_map]
  congr 1
  · refine List.map_congr_left fun h hh => ?_
    exact (if_pos (List.mem_range.mp hh)).symm
  · refine List.map_congr_left fun h _ => ?_
    rw [Function.comp_apply, ringRound, if_neg (by omega), Nat.add_sub_cancel_left]

theorem ringRound_eq (hP : 2 ≤ P) {h : ℕ} (hh : h < 2 * (P - 1)) (r : Fin P) :
    ∃ v : RecvPart α β, v.wr.tag = ⟨call, h⟩ ∧ v.expected = szMul (recvSize a r h) 4 ∧
      ringRound ops call a h r = ringXfer r (a r) ⟨call, h⟩ (chunkAt (a r).count P (ringIdx r h))
        (chunkAt (a r).count P (ringIdx r (h + 1))) v := by
  by_cases hlt : h < P - 1
  · have hs : ringIdx r h = back P r h := by rw [ringIdx, Nat.mod_eq_of_lt (by omega)]
    have hr : ringIdx r (h + 1) = back P r (h + 1) := by
      rw [ringIdx, Nat.mod_eq_of_lt (by omega)]
    refine ⟨reduceScatterRecv ops (a r) ⟨call, h⟩ (chunkAt (a r).count P (ringIdx r (h + 1))), rfl,
      rfl, ?_⟩
    rw [ringRound, if_pos hlt, hs, hr]
    rfl
  · obtain ⟨step, rfl⟩ : ∃ step, h = P - 1 + step := ⟨h - (P - 1), by omega⟩
    have hr : ringIdx r (P - 1 + step + 1) = back P r step := by
      rw [ringIdx, show P - 1 + step + 1 = P + step by omega, Nat.add_mod_left,
        Nat.mod_eq_of_lt (by omega)]
    have hs : ringIdx r (P - 1 + step) = back P (next r) step := by
      have hn := ringIdx_prev (next r) (P - 1 + step)
      rw [prev_next] at hn
      rw [hn, ringIdx, show P - 1 + step + 1 = P + step by omega, Nat.add_mod_left,
        Nat.mod_eq_of_lt (by omega)]
    refine ⟨ringAllgatherRecv (a r) ⟨call, P - 1 + step⟩ (chunkAt (a r).count P
      (ringIdx r (P - 1 + step + 1))), rfl, rfl, ?_⟩
    rw [ringRound, if_neg hlt, hs, hr, Nat.add_sub_cancel_left]
    rfl

theorem ringRound_send (hP : 2 ≤ P) {h : ℕ} (hh : h < 2 * (P - 1)) (r : Fin P) :
    ∃ wr, wr.tag = ⟨call, h⟩ ∧ wr.length = szMul (sendSize a r h) 4 % 2 ^ 32 ∧
      (ringRound (β := β) ops call a h r).send =
        if 0 < sendSize a r h then some (next r, wr) else none := by
  obtain ⟨v, -, -, hv⟩ := ringRound_eq (β := β) ops call a hP hh r
  rw [hv]
  exact ⟨_, rfl, rfl, rfl⟩

theorem ringRound_recv (hP : 2 ≤ P) {h : ℕ} (hh : h < 2 * (P - 1)) (r : Fin P) :
    ∃ v : RecvPart α β, v.wr.tag = ⟨call, h⟩ ∧ v.expected = szMul (recvSize a r h) 4 ∧
      (ringRound ops call a h r).recv =
        if 0 < recvSize a r h then some (prev r, v) else none := by
  obtain ⟨v, htag, hexp, hv⟩ := ringRound_eq (β := β) ops call a hP hh r
  rw [hv]
  exact ⟨v, htag, hexp, rfl⟩

end Steps

theorem chunkCount_le {n i : ℕ} (hi : i < P) : chunkCount n P i ≤ n :=
  le_of_add_le_right (chunk_end_le hi)

/-- A count below the number of chunks is known by its last chunk and the empty one behind it. -/
theorem eq_of_last_chunk {n m : ℕ} (hn : 0 < n) (hnP : n < P) (hlast : 0 < chunkCount m P (n - 1))
    (hnext : chunkCount m P n = 0) : m = n := by
  have hmP : m < P := by
    by_contra hge
    have hpos : 1 ≤ m / P := (Nat.one_le_div_iff (by omega)).mpr (by omega)
    have := le_chunkCount m P n
    omega
  rw [chunkCount_of_lt hmP] at hlast hnext
  split_ifs at hlast hnext <;> omega

section Records

theorem mem_of_prefix_filter {p : ℕ → Prop} [DecidablePred p] {N call : ℕ} {ts : List Tag}
    (h : ts <+: ((List.range N).filter fun h => p h).map (Tag.mk call)) {i j : ℕ}
    (hi : ⟨call, i⟩ ∈ ts) (hji : j ≤ i) : ⟨call, j⟩ ∈ ts ↔ p j := by
  obtain ⟨rest, hrest⟩ := h
  have hmem : ∀ {k}, ⟨call, k⟩ ∈ ts ++ rest ↔ k < N ∧ p k := by
    intro k
    rw [hrest]
    simp
  constructor
  · intro hj
    exact (hmem.mp (List.mem_append_left _ hj)).2
  · intro hj
    have hiN := (hmem.mp (List.mem_append_left _ hi)).1
    refine (List.mem_append.mp (hmem.mpr ⟨by omega, hj⟩)).resolve_right fun hlater => ?_
    -- what comes later has a greater step
    have hsorted : (ts ++ rest).Pairwise fun t t' => t.step < t'.step := by
      rw [hrest, List.pairwise_map]
      exact List.Pairwise.filter _ List.pairwise_lt_range
    have hlt : i < j := (List.pairwise_append.mp hsorted).2.2 _ hi _ hlater
    omega

theorem filterMap_map_eq {X Y : Type} {l : List ℕ} {p : ℕ → Prop} [DecidablePred p]
    {g : ℕ → Option X} {f : X → Y} {t : ℕ → Y}
    (h : ∀ i ∈ l, ∃ x, f x = t i ∧ g i = if p i then some x else none) :
    (l.filterMap g).map f = (l.filter fun i => p i).map t := by
  induction l with
  | nil => rfl
  | cons i l ih =>
    have ih := ih fun j hj => h j (List.mem_cons_of_mem _ hj)
    obtain ⟨x, hx, hg⟩ := h i List.mem_cons_self
    rw [List.filterMap_cons, hg, List.filter_cons]
    by_cases hp : p i <;> simp [hp, hx, ih]

/-- A rank that posts the send of a step has seen all it waits for in the steps before. -/
theorem waited_of_posted {X : ℕ → Xfer P α β} {N : ℕ} {done todo : List (Event P α β)}
    (h : done ++ todo = ((List.range N).map X).flatMap Xfer.events) {y : Fin P × Wr}
    (hy : y ∈ sendsPosted done) : ∃ i < N, (X i).send = some y ∧
      ∀ j < i, ∀ w ∈ (X j).awaited, w ∈ recvWaits done := by
  cases todo with
  | nil =>
    rw [List.append_nil] at h
    rw [h, sendsPosted_flatMap] at hy
    obtain ⟨x, hx, hsend⟩ := List.mem_filterMap.mp hy
    obtain ⟨i, hi, rfl⟩ := List.mem_map.mp hx
    have hiN := List.mem_range.mp hi
    refine ⟨i, hiN, hsend, fun j hj w hw => ?_⟩
    rw [h, recvWaits_flatMap]
    exact List.mem_filterMap.mpr ⟨_, List.mem_map_of_mem (List.mem_range.mpr (by omega)), hw⟩
  | cons e todo =>
    obtain ⟨before, x, after, past, next, hxs, hx, rfl, -⟩ := flatMap_events_split h
    obtain ⟨l₁, l₂, hl, rfl, hl₂⟩ := List.map_eq_append_iff.mp hxs
    rw [List.range_eq_range'] at hl
    obtain ⟨k, hk, hl₁, rfl⟩ := List.range'_eq_append_iff.mp hl
    rw [← List.range_eq_range'] at hl₁
    subst hl₁
    have hwaits : ∀ j < k, ∀ w ∈ (X j).awaited,
        w ∈ recvWaits (((List.range k).map X).flatMap Xfer.events ++ past) := by
      intro j hj w hw
      rw [recvWaits_append, recvWaits_flatMap]
      apply List.mem_append_left
      exact List.mem_filterMap.mpr ⟨_, List.mem_map_of_mem (List.mem_range.mpr hj), hw⟩
    rw [sendsPosted_append, sendsPosted_flatMap] at hy
    rcases List.mem_append.mp hy with hy | hy
    · obtain ⟨x', hx', hsend⟩ := List.mem_filterMap.mp hy
      obtain ⟨i, hi, rfl⟩ := List.mem_map.mp hx'
      have hik := List.mem_range.mp hi
      exact ⟨i, by omega, hsend, fun j hj => hwaits j (by omega)⟩
    -- the send may also be that of the step the rank is in
    · obtain ⟨i, is, hi, rfl, -⟩ := List.map_eq_cons_iff.mp hl₂
      obtain ⟨hik, hpos, -⟩ := List.range'_eq_cons_iff.mp hi
      obtain rfl : k = i := by omega
      have hsend : y ∈ sendsPosted (X k).events := by
        rw [hx, sendsPosted_append]
        exact List.mem_append_left _ hy
      have hone := sendsPosted_flatMap [X k]
      rw [List.flatMap_singleton] at hone
      rw [hone] at hsend
      exact ⟨k, by omega, by simpa using hsend, hwaits⟩

end Records

/-- Every message so far has met the receive that its receiver posted for the same step. -/
def InStep {A : Type} (s : Fin P → RankState P α β A) : Prop :=
  ∀ q, ∀ e ∈ (s q).log, e.2.1.tag = e.2.2.tag

section Runs

variable {cap : Fin P → Fin P → ℕ} {ops : Ops α} {call : ℕ} {a : Fin P → AllreduceArgs}
  {l : Fin P → Local α β} {s : Fin P → RankState P α β Unit}

def ringXfers (ops : Ops α) (call : ℕ) (a : Fin P → AllreduceArgs) (r : Fin P) :
    List (Xfer P α β) :=
  (List.range (2 * (P - 1))).map fun h => ringRound ops call a h r

def ringTags (call : ℕ) (size : ℕ → ℕ) : List Tag :=
  ((List.range (2 * (P - 1))).filter fun h => 0 < size h).map (Tag.mk call)

section Tags

variable (hP : 2 ≤ P) (hshort : ∀ r, (a r).count * 4 < 2 ^ 32)
  (hs : Reaches (fabric P α β Unit cap) (start (fun r => allreduceRing ops r call (a r)) l) s)
include hshort hs

theorem ring_along (r : Fin P) :
    Along (fun _ _ => True) ((ringXfers ops call a r).flatMap Xfer.events) (s r) := by
  have hevents : roundsEvents (ringRounds ops call a) r =
      (ringXfers (β := β) ops call a r).flatMap Xfer.events := by
    rw [roundsEvents, ringRounds_eq, ringXfers, List.flatMap_map, List.flatMap_map]
  refine Follows.along (p := fun r => allreduceRing ops r call (a r)) ?_ hs
  have hr := hshort r
  rw [allreduceRing_guards ops call a r (by omega), ← hevents]
  split_ifs
  · exact rounds_follows fun _ _ _ _ _ _ => trivial
  · trivial

include hP

theorem ring_sent_tags (r : Fin P) :
    ((s r).sent.map fun y => y.2.tag) <+: ringTags (P := P) call (sendSize a r) := by
  have halong := ring_along hshort hs r
  have h := List.IsPrefix.map (fun y => y.2.tag) halong.sent_prefix
  rw [sendsPosted_flatMap, ringXfers, List.filterMap_map] at h
  have heq := filterMap_map_eq (l := List.range (2 * (P - 1))) (p := fun h => 0 < sendSize a r h)
    (g := fun h => (ringRound (β := β) ops call a h r).send) (f := fun y => y.2.tag)
    (t := Tag.mk call) fun i hi => by
      obtain ⟨wr, htag, -, hsend⟩ := ringRound_send (β := β) ops call a hP (List.mem_range.mp hi) r
      exact ⟨(next r, wr), htag, hsend⟩
  rw [ringTags, ← heq]
  exact h

theorem ring_log_tags (r : Fin P) :
    ((s r).log.map fun e => e.2.2.tag) <+: ringTags (P := P) call (recvSize a r) := by
  have halong := ring_along hshort hs r
  have h := List.IsPrefix.map (fun y => y.2.tag) halong.log_prefix
  rw [recvsPosted_flatMap, ringXfers, List.filterMap_map, List.map_map] at h
  have heq := filterMap_map_eq (l := List.range (2 * (P - 1))) (p := fun h => 0 < recvSize a r h)
    (g := fun h => (ringRound (β := β) ops call a h r).recvWr) (f := fun y => y.2.tag)
    (t := Tag.mk call) fun i hi => by
      obtain ⟨v, htag, -, hrecv⟩ := ringRound_recv (β := β) ops call a hP (List.mem_range.mp hi) r
      refine ⟨(prev r, v.wr), htag, ?_⟩
      rw [Xfer.recvWr, hrecv]
      split_ifs <;> rfl
  rw [ringTags, ← heq]
  exact h

/-- What a rank has got is what its predecessor has got rid of. -/
theorem ring_link (q : Fin P) :
    (s (prev q)).sent.map Prod.snd = (s q).log.map fun e => e.2.1 := by
  have hfifo := fifo (fun _ _ => rfl) hs (prev q) q
  rw [sentTo, List.filter_eq_self.mpr, receivedFrom, List.filter_eq_self.mpr] at hfifo
  · exact hfifo
  · intro e he
    have halong := ring_along hshort hs q
    have hmem := halong.log_prefix.subset (List.mem_map_of_mem he)
    rw [recvsPosted_flatMap] at hmem
    obtain ⟨x, hx, hrecv⟩ := List.mem_filterMap.mp hmem
    obtain ⟨h, hh, rfl⟩ := List.mem_map.mp hx
    obtain ⟨v, -, -, hv⟩ := ringRound_recv (β := β) ops call a hP (List.mem_range.mp hh) q
    rw [Xfer.recvWr, hv] at hrecv
    split_ifs at hrecv
    · exact decide_eq_true (congrArg Prod.fst (Option.some.inj hrecv)).symm
    · cases hrecv
  · intro y hy
    have halong := ring_along hshort hs (prev q)
    have hmem := halong.sent_prefix.subset hy
    rw [sendsPosted_flatMap] at hmem
    obtain ⟨x, hx, hsend⟩ := List.mem_filterMap.mp hmem
    obtain ⟨h, hh, rfl⟩ := List.mem_map.mp hx
    obtain ⟨wr, -, -, hwr⟩ := ringRound_send (β := β) ops call a hP (List.mem_range.mp hh) (prev q)
    rw [hwr] at hsend
    split_ifs at hsend
    rw [← congrArg Prod.fst (Option.some.inj hsend), next_prev]
    exact decide_eq_true rfl

theorem inStep_of_counts_eq {n : ℕ} (hn : ∀ q, (a q).count = n) : InStep s := by
  intro q
  have hsize : recvSize a q = sendSize a (prev q) := by
    funext h
    rw [recvSize, sendSize, ringIdx_prev, hn, hn]
  have hrecv := ring_log_tags hP hshort hs q
  have hsent := ring_sent_tags hP hshort hs (prev q)
  rw [hsize] at hrecv
  have hmsg : (s (prev q)).sent.map (fun y => y.2.tag) = (s q).log.map fun e => e.2.1.tag := by
    have hlink := congrArg (List.map Wr.tag) (ring_link hP hshort hs q)
    rwa [List.map_map, List.map_map] at hlink
  rw [hmsg] at hsent
  -- two beginnings of one list that are equally long
  have heq : (s q).log.map (fun e => e.2.1.tag) = (s q).log.map fun e => e.2.2.tag := by
    rw [List.prefix_iff_eq_take.mp hsent, List.prefix_iff_eq_take.mp hrecv, List.length_map,
      List.length_map]
  exact List.map_inj_left.mp heq

end Tags

end Runs

end MicroCcl

import MicroCcl.AllgatherMismatch
import MicroCcl.Completions
import MicroCcl.DoublingMismatch
import MicroCcl.RingVolume

namespace MicroCcl
open Network

variable {P : ℕ} {α β A : Type}

section Around

variable {c : Fin P → ℕ}

theorem le_add_of_prev (h : ∀ r, c r ≤ c (prev r) + 1) (r : Fin P) (k : ℕ) :
    c r ≤ c (prev^[k] r) + k := by
  induction k with
  | zero => exact le_rfl
  | succ k ih =>
    have hk := h (prev^[k] r)
    rw [Function.iterate_succ_apply']
    omega

theorem add_ge_of_prev (h : ∀ r, c (prev r) ≤ c r + 1) (r : Fin P) (k : ℕ) :
    c (prev^[k] r) ≤ c r + k := by
  induction k with
  | zero => exact le_rfl
  | succ k ih =>
    have hk := h (prev^[k] r)
    rw [Function.iterate_succ_apply']
    omega

theorem prev_iterate_back (r q : Fin P) : prev^[back P r q] r = q := by
  apply Fin.ext
  rw [prev_iterate r (back_lt r q)]
  exact (back_eq_iff r q (back_lt r q)).mpr rfl

def ringDistance (r q : Fin P) : ℕ := min (back P r q) (back P q r)

theorem ringDistance_le (r q : Fin P) : ringDistance r q ≤ P / 2 := by
  have hr := r.isLt
  have hq := q.isLt
  unfold ringDistance back
  split_ifs <;> omega

theorem ringDistance_next_le {r q : Fin P} (hne : q ≠ r) : ringDistance r (next q) ≤ P - 2 := by
  have hr := r.isLt
  have hq := q.isLt
  have hval : q.val ≠ r.val := fun he => hne (Fin.ext he)
  apply (Nat.min_le_left _ _).trans
  simp only [back, next]
  split_ifs <;> omega

theorem le_add_ringDistance (h : ∀ r, c r ≤ c (prev r) + 1) (h' : ∀ r, c (prev r) ≤ c r + 1)
    (r q : Fin P) : c r ≤ c q + ringDistance r q := by
  have hback := le_add_of_prev h r (back P r q)
  have hforth := add_ge_of_prev h' q (back P q r)
  rw [prev_iterate_back] at hback hforth
  rw [ringDistance, ← Nat.add_min_add_left]
  exact le_min hback hforth

end Around

/-- The step has both parts. -/
def Xfer.TwoWay (x : Xfer P α β) : Prop := x.recv.isSome ∧ x.send.isSome

theorem sendsPosted_flatMap (xs : List (Xfer P α β)) :
    sendsPosted (xs.flatMap Xfer.events) = xs.filterMap (·.send) := by
  induction xs with
  | nil => rfl
  | cons x xs ih =>
    rw [List.flatMap_cons, sendsPosted_append, ih]
    rcases x with ⟨_ | ⟨q, v⟩, _ | y⟩ <;> simp [Xfer.events, sendsPosted]

theorem recvsPosted_flatMap (xs : List (Xfer P α β)) :
    recvsPosted (xs.flatMap Xfer.events) = xs.filterMap Xfer.recvWr := by
  induction xs with
  | nil => rfl
  | cons x xs ih =>
    rw [List.flatMap_cons, recvsPosted_append, ih]
    rcases x with ⟨_ | ⟨q, v⟩, _ | y⟩ <;>
      simp [Xfer.events, recvsPosted, Xfer.recvWr, List.filterMap_cons]

theorem length_filterMap_of_isSome {X Y : Type} {f : X → Option Y} {xs : List X}
    (h : ∀ x ∈ xs, (f x).isSome) : (xs.filterMap f).length = xs.length := by
  induction xs with
  | nil => rfl
  | cons x xs ih =>
    obtain ⟨y, hy⟩ := Option.isSome_iff_exists.mp (h x (by simp))
    rw [List.filterMap_cons_some hy, List.length_cons, List.length_cons,
      ih fun z hz => h z (List.mem_cons_of_mem x hz)]

theorem Xfer.TwoWay.counts {x : Xfer P α β} (hx : x.TwoWay) {past : List (Event P α β)}
    (h : past <+: x.events) : (recvWaits past).length ≤ (sendWaits past).length ∧
      (sendsPosted past).length ≤ (recvWaits past).length + 1 := by
  obtain ⟨⟨q, v⟩, hrecv⟩ := Option.isSome_iff_exists.mp hx.1
  obtain ⟨y, hsend⟩ := Option.isSome_iff_exists.mp hx.2
  have hevents : x.events = .postRecv (q, v.wr) :: .postSend y :: .waitSend y ::
      .waitRecv (q, v.wr) v.expected :: v.reduce.toList.map .update := by
    simp [Xfer.events, hrecv, hsend]
  rw [hevents] at h
  rcases List.prefix_cons_iff.mp h with rfl | ⟨past, rfl, h₁⟩
  · exact ⟨le_rfl, Nat.zero_le _⟩
  rcases List.prefix_cons_iff.mp h₁ with rfl | ⟨past, rfl, h₂⟩
  · exact ⟨le_rfl, Nat.zero_le _⟩
  rcases List.prefix_cons_iff.mp h₂ with rfl | ⟨past, rfl, h₃⟩
  · exact ⟨le_rfl, le_rfl⟩
  rcases List.prefix_cons_iff.mp h₃ with rfl | ⟨past, rfl, h₄⟩
  · exact ⟨Nat.zero_le _, le_rfl⟩
  -- what is left of the step does not touch the queues
  obtain ⟨rest, hrest⟩ := h₄
  have hnil : recvWaits past = [] ∧ sendsPosted past = [] := by
    cases hv : v.reduce with
    | none =>
      rw [hv] at hrest
      simp [(List.append_eq_nil_iff.mp hrest).1, recvWaits, sendsPosted]
    | some f =>
      rw [hv, Option.toList_some, List.map_singleton, List.append_eq_singleton_iff] at hrest
      rcases hrest with ⟨rfl, -⟩ | ⟨rfl, -⟩ <;> exact ⟨rfl, rfl⟩
  obtain ⟨hr, hs⟩ := hnil
  simp only [recvWaits, sendWaits, sendsPosted] at hr hs ⊢
  simp [hr, hs]

section Steps

variable {D : Wr → Wr → Prop} {xs : List (Xfer P α β)} (hxs : ∀ x ∈ xs, x.TwoWay)
include hxs

theorem twoWay_lengths : (recvWaits (xs.flatMap Xfer.events)).length = xs.length ∧
    (sendWaits (xs.flatMap Xfer.events)).length = xs.length ∧
    (sendsPosted (xs.flatMap Xfer.events)).length = xs.length := by
  rw [recvWaits_flatMap, sendWaits_flatMap, sendsPosted_flatMap]
  refine ⟨length_filterMap_of_isSome fun x hx => ?_,
    length_filterMap_of_isSome fun x hx => (hxs x hx).2,
    length_filterMap_of_isSome fun x hx => (hxs x hx).2⟩
  rw [Xfer.awaited, Option.isSome_map]
  exact (hxs x hx).1

theorem twoWay_counts {done todo : List (Event P α β)}
    (h : done ++ todo = xs.flatMap Xfer.events) :
    (recvWaits done).length ≤ (sendWaits done).length ∧
      (sendsPosted done).length ≤ (recvWaits done).length + 1 := by
  cases todo with
  | nil =>
    obtain ⟨h1, h2, h3⟩ := twoWay_lengths hxs
    rw [List.append_nil] at h
    rw [h]
    omega
  | cons e todo =>
    obtain ⟨before, x, after, past, next, rfl, hx, rfl, -⟩ := flatMap_events_split h
    obtain ⟨h1, h2, h3⟩ := twoWay_lengths fun y hy => hxs y (List.mem_append_left _ hy)
    have hpast := (hxs x (by simp)).counts (hx ▸ List.prefix_append past _)
    simp only [recvWaits_append, sendWaits_append, sendsPosted_append, List.length_append]
    omega

theorem Along.sent_log_close {st : RankState P α β A} (h : Along D (xs.flatMap Xfer.events) st) :
    st.sent.length ≤ st.log.length + 1 ∧ st.log.length ≤ st.sent.length + 1 := by
  obtain ⟨done, todo, ps, pr, hsplit, -, hs, hr, hps, -, -⟩ := h
  obtain ⟨h1, h2⟩ := twoWay_counts hxs hsplit
  have hsent : (sendWaits done).length ≤ st.sent.length ∧
      st.sent.length ≤ (sendsPosted done).length := by
    rw [hps, List.length_append]
    cases hs with
    | idle _ _ _ hsent => simp [hsent]
    | queued y _ _ _ hsent => simp [hsent]
    | taken y a _ _ _ hsent => simp [hsent]
    | completed y wc _ _ _ hsent => simp [hsent]
  have hlog : (recvWaits done).length ≤ st.log.length ∧
      st.log.length ≤ (recvWaits done).length + 1 := by
    rw [← List.length_map (f := answer)]
    cases hr with
    | idle _ _ hlog => simp [hlog]
    | queued z _ _ hlog => simp [hlog]
    | filled z wc _ _ hlog => simp [hlog]
    | refused z wc _ _ hlog => simp [hlog]
  omega

theorem Along.lengths_returned {st : RankState P α β A} {x : A}
    (h : Along D (xs.flatMap Xfer.events) st) (hp : st.proc = .pure x) :
    st.sent.length = xs.length ∧ st.log.length = xs.length := by
  obtain ⟨hsent, hlog⟩ := h.returned hp
  obtain ⟨h1, h2, -⟩ := twoWay_lengths hxs
  constructor
  · rw [hsent, h2]
  · rw [← h1, ← hlog, List.length_map]

end Steps

def turnEvents (ts : List (Turn P α β)) : List (Event P α β) :=
  (ts.map Turn.xfer).flatMap Xfer.events

theorem turns_twoWay (ts : List (Turn P α β)) : ∀ x ∈ ts.map Turn.xfer, x.TwoWay := by
  intro x hx
  obtain ⟨t, -, rfl⟩ := List.mem_map.mp hx
  exact ⟨rfl, rfl⟩

theorem turns_follows (ts : List (Turn P α β)) :
    Follows (fun _ _ => True) none none (turnsProc ts) (turnEvents ts) := by
  induction ts with
  | nil => exact ⟨rfl, rfl, rfl⟩
  | cons t ts ih => exact (Xfer.follows fun _ _ _ _ => trivial).bind fun _ => ih

section Ring

variable {cap : Fin P → Fin P → ℕ} {p : Fin P → Proc P α β Unit} {ts : Fin P → List (Turn P α β)}
  {l : Fin P → Local α β} {s : Fin P → RankState P α β Unit}

/-- Every turn receives from the predecessor and sends to the successor. -/
structure OnRing (p : Fin P → Proc P α β Unit) (ts : Fin P → List (Turn P α β)) : Prop where
  follows : ∀ q, Follows (fun _ _ => True) none none (p q) (turnEvents (ts q))
  src : ∀ q, ∀ t ∈ ts q, t.src = prev q
  dst : ∀ q, ∀ t ∈ ts q, t.dst = next q

variable (h : OnRing p ts) (hs : Reaches (fabric P α β Unit cap) (start p l) s)
include h hs

theorem OnRing.along (q : Fin P) : Along (fun _ _ => True) (turnEvents (ts q)) (s q) :=
  Follows.along (h.follows q) hs

theorem OnRing.sent_dst (q : Fin P) : ∀ y ∈ (s q).sent, y.1 = next q := by
  intro y hy
  have hal := h.along hs q
  have hmem := hal.sent_prefix.subset hy
  rw [turnEvents, sendsPosted_flatMap] at hmem
  obtain ⟨x, hx, hsend⟩ := List.mem_filterMap.mp hmem
  obtain ⟨t, ht, rfl⟩ := List.mem_map.mp hx
  obtain rfl := Option.some.inj hsend
  exact h.dst q t ht

theorem OnRing.log_src (q : Fin P) : ∀ e ∈ (s q).log, e.1 = prev q := by
  intro e he
  have hal := h.along hs q
  have hmem := hal.log_prefix.subset (List.mem_map_of_mem he)
  rw [turnEvents, recvsPosted_flatMap] at hmem
  obtain ⟨x, hx, hrecv⟩ := List.mem_filterMap.mp hmem
  obtain ⟨t, ht, rfl⟩ := List.mem_map.mp hx
  exact (congrArg Prod.fst (Option.some.inj hrecv)).symm.trans (h.src q t ht)

theorem OnRing.sent_prev (q : Fin P) : (s (prev q)).sent.length = (s q).log.length := by
  have hfifo := fifo (fun _ _ => rfl) hs (prev q) q
  rw [sentTo, List.filter_eq_self.mpr, receivedFrom, List.filter_eq_self.mpr] at hfifo
  · simpa using congrArg List.length hfifo
  · exact fun e he => decide_eq_true (h.log_src hs q e he)
  · intro y hy
    rw [h.sent_dst hs (prev q) y hy, next_prev]
    exact decide_eq_true rfl

theorem OnRing.lockstep (r q : Fin P) :
    (s r).log.length ≤ (s q).log.length + ringDistance r q := by
  have hclose : ∀ r, (s r).log.length ≤ (s (prev r)).log.length + 1 ∧
      (s (prev r)).log.length ≤ (s r).log.length + 1 := by
    intro r
    rw [← h.sent_prev hs r]
    exact (h.along hs (prev r)).sent_log_close (turns_twoWay _)
  exact le_add_ringDistance (c := fun r => (s r).log.length) (fun r => (hclose r).1)
    (fun r => (hclose r).2) r q

theorem OnRing.length_of_returned {r : Fin P} (hr : (s r).proc = .pure ()) :
    (s r).log.length = (ts r).length := by
  rw [((h.along hs r).lengths_returned (turns_twoWay _) hr).2, List.length_map]

end Ring

section Turns

variable (ops : Ops α) (call : ℕ) (a : Fin P → AllreduceArgs)

/-- The turn that moves chunk `sendChunk` out, when nothing is skipped. -/
def ringTurn (r : Fin P) (a : AllreduceArgs) (tag : Tag) (sendChunk : ChunkRange)
    (v : RecvPart α β) : Turn P α β where
  src := prev r
  part := v
  dst := next r
  wr := workRequest a.dataMr a.data (szMul sendChunk.offset 4) (szMul sendChunk.count 4) tag

def reduceScatterTurn (r : Fin P) (step : ℕ) : Turn P α β :=
  ringTurn r (a r) ⟨call, step⟩ (chunkAt (a r).count P (back P r step))
    (reduceScatterRecv ops (a r) ⟨call, step⟩ (chunkAt (a r).count P (back P r (step + 1))))

def ringAllgatherTurn (r : Fin P) (step : ℕ) : Turn P α β :=
  ringTurn r (a r) ⟨call, P - 1 + step⟩ (chunkAt (a r).count P (back P (next r) step))
    (ringAllgatherRecv (a r) ⟨call, P - 1 + step⟩ (chunkAt (a r).count P (back P r step)))

def ringTurns (r : Fin P) : List (Turn P α β) :=
  (List.range (P - 1)).map (reduceScatterTurn ops call a r) ++
    (List.range (P - 1)).map (ringAllgatherTurn call a r)

theorem ringTurns_dst (r : Fin P) : ∀ t ∈ ringTurns (β := β) ops call a r, t.dst = next r := by
  intro t ht
  rcases List.mem_append.mp ht with ht | ht <;>
  · obtain ⟨step, -, rfl⟩ := List.mem_map.mp ht
    rfl

theorem ringTurns_length (r : Fin P) :
    (ringTurns (β := β) ops call a r).length = 2 * (P - 1) := by
  simp [ringTurns]
  omega

theorem roundsProc_ringTurns (r : Fin P) (hfull : ∀ i < P, 0 < chunkCount (a r).count P i) :
    roundsProc (ringRounds ops call a) r = turnsProc (ringTurns (β := β) ops call a r) := by
  have hxfer : ∀ tag sc rc (v : RecvPart α β), 0 < sc.count → 0 < rc.count →
      ringXfer r (a r) tag sc rc v = (ringTurn r (a r) tag sc v).xfer := by
    intro tag sc rc v hsc hrc
    simp only [ringXfer, if_pos hsc, if_pos hrc, ringTurn, Turn.xfer]
  have hrs : ∀ step, reduceScatterRound (β := β) ops call a step r =
      (reduceScatterTurn ops call a r step).xfer := fun step =>
    hxfer _ _ _ _ (hfull _ (back_lt r step)) (hfull _ (back_lt r (step + 1)))
  have hag : ∀ step, ringAllgatherRound (α := α) (β := β) call a step r =
      (ringAllgatherTurn call a r step).xfer := fun step =>
    hxfer _ _ _ _ (hfull _ (back_lt (next r) step)) (hfull _ (back_lt r step))
  simp only [roundsProc, turnsProc, ringRounds, ringTurns, List.forM_eq_forM, List.forM_append,
    List.forM_map, hrs, hag]

end Turns

theorem allreduceRing_onRing (ops : Ops α) (call : ℕ) {a : Fin P → AllreduceArgs}
    (hcount : ∀ r, P ≤ (a r).count ∧ (a r).count < 2 ^ 64) :
    OnRing (fun r => allreduceRing ops r call (a r)) (ringTurns (β := β) ops call a) where
  follows q := by
    have hfull : ∀ i < P, 0 < chunkCount (a q).count P i := fun i _ =>
      (Nat.div_pos (hcount q).1 q.pos).trans_le (le_chunkCount _ _ _)
    rw [allreduceRing_guards ops call a q (hcount q).2, roundsProc_ringTurns ops call a q hfull]
    split_ifs
    · exact turns_follows _
    · trivial
  src q t ht := by
    rcases List.mem_append.mp ht with ht | ht <;>
    · obtain ⟨step, -, rfl⟩ := List.mem_map.mp ht
      rfl
  dst q := ringTurns_dst ops call a q

/-- In every state of every run of `allreduce_ring` on at least one element per chunk, whatever
counts the ranks pass and whoever throws: the numbers of messages that two ranks have received
differ by at most their distance on the ring. So when a rank returns, every rank has received all
the messages of its reduce-scatter phase. -/
theorem allreduceRing_lockstep (cap : Fin P → Fin P → ℕ) (hP : 2 ≤ P) (ops : Ops α) (call : ℕ)
    {a : Fin P → AllreduceArgs} (hcount : ∀ r, P ≤ (a r).count ∧ (a r).count < 2 ^ 64)
    (l : Fin P → Local α β) {s : Fin P → RankState P α β Unit}
    (hs : Reaches (fabric P α β Unit cap) (start (fun r => allreduceRing ops r call (a r)) l) s)
    (r q : Fin P) :
    (s r).log.length ≤ (s q).log.length + ringDistance r q ∧
    ((s r).proc = .pure () → P - 1 ≤ (s q).log.length) := by
  have h := allreduceRing_onRing (β := β) ops call hcount
  refine ⟨h.lockstep hs r q, fun hr => ?_⟩
  have hall := h.length_of_returned hs hr
  have hclose := h.lockstep hs r q
  have hhalf := ringDistance_le r q
  rw [ringTurns_length] at hall
  omega

theorem allgather_onRing (call : ℕ) (a : Fin P → AllgatherArgs) :
    OnRing (fun r => allgather (α := α) (β := β) r call (a r)) (allgatherTurns call a) where
  follows q := by
    by_cases hg : AllgatherGuard P (a q)
    · rw [allgather_of_guard call a q hg, roundsProc_allgatherTurns]
      exact turns_follows _
    · obtain ⟨e, he⟩ := allgather_refuses (α := α) (β := β) q call (a q) hg
      rw [he]
      trivial
  src q t ht := by
    obtain ⟨step, -, rfl⟩ := List.mem_map.mp ht
    rfl
  dst q t ht := by
    obtain ⟨step, -, rfl⟩ := List.mem_map.mp ht
    rfl

/-- The same for `allgather`, for all arguments. When a rank returns from it, every rank has
entered it and has a message delivered to its successor. -/
theorem allgather_lockstep (cap : Fin P → Fin P → ℕ) (hP : 2 ≤ P) (call : ℕ)
    (a : Fin P → AllgatherArgs) (l : Fin P → Local α β) {s : Fin P → RankState P α β Unit}
    (hs : Reaches (fabric P α β Unit cap) (start (fun r => allgather r call (a r)) l) s)
    (r q : Fin P) :
    (s r).log.length ≤ (s q).log.length + ringDistance r q ∧
    ((s r).proc = .pure () → 1 ≤ (s q).sent.length) := by
  have h := allgather_onRing (α := α) (β := β) call a
  refine ⟨h.lockstep hs r q, fun hr => ?_⟩
  have hlength : (allgatherTurns (α := α) (β := β) call a r).length = P - 1 := by
    rw [allgatherTurns, List.length_map, List.length_range]
  by_cases hq : q = r
  · rw [hq, ((h.along hs r).lengths_returned (turns_twoWay _) hr).1, List.length_map, hlength]
    omega
  · have hall := h.length_of_returned hs hr
    have hclose := h.lockstep hs r (next q)
    have hdist := ringDistance_next_le hq
    rw [← h.sent_prev hs (next q), prev_next] at hclose
    omega

def threeByThree (r : Fin 3) : AllreduceArgs :=
  ⟨⟨0, 12 + 4 * r⟩, 0, 3, .int32, .sum, ⟨1, 4⟩, 1, 1⟩

theorem allreduceRing_lockstep_three_by_three :
    ∃ s, Reaches (fabric 3 ℕ Unit Unit fun _ _ => 1)
      (start (fun r => allreduceRing (fun _ _ u v => u + v) r 0 (threeByThree r))
        fun r => ⟨fun _ i => 10 * r + i, ()⟩) s ∧
      (s 0).proc = .pure () ∧ ∀ q, 2 ≤ (s q).log.length := by
  have hready : Ready threeByThree 3 .int32 .sum ((3 + 3 - 1) / 3) := by
    constructor <;> decide
  obtain ⟨s, hs, hret⟩ := allreduceRing_settles (fun _ _ => 1) (fun _ _ u v => u + v) 0 hready
    (fun r => ⟨fun _ i => 10 * r + i, ()⟩) .refl
  refine ⟨s, hs, hret 0, fun q => ?_⟩
  exact (allreduceRing_lockstep (fun _ _ => 1) (by decide) (fun _ _ u v => u + v) 0
    (a := threeByThree) (by decide) _ hs 0 q).2 (hret 0)

theorem allgather_lockstep_two_ranks :
    ∃ s, Reaches (fabric 2 ℕ Unit Unit fun _ _ => 1)
      (start (fun r => allgather r 0 ⟨⟨0, 8⟩, 0, 1, .int32⟩) fun r => ⟨fun _ i => r + i, ()⟩) s ∧
      (s 0).proc = .pure () ∧ ∀ q, 1 ≤ (s q).sent.length := by
  have hready : AllgatherReady (P := 2) (fun _ => ⟨⟨0, 8⟩, 0, 1, .int32⟩) 1 := by
    constructor <;> decide
  obtain ⟨s, hs, hret⟩ := allgather_settles hready (fun _ _ => 1) 0
    (fun r => ⟨fun _ i => r + i, ()⟩) .refl
  refine ⟨s, hs, hret 0, fun q => ?_⟩
  exact (allgather_lockstep (fun _ _ => 1) le_rfl 0 (fun _ => ⟨⟨0, 8⟩, 0, 1, .int32⟩) _ hs 0 q).2
    (hret 0)

/-- Bit `j` is the lowest in which the ranks differ. -/
def LowestDiffering (j : ℕ) (r q : Fin P) : Prop :=
  r.val.testBit j ≠ q.val.testBit j ∧ ∀ i < j, r.val.testBit i = q.val.testBit i

section Doubling

variable {cap : Fin P → Fin P → ℕ} {m : ℕ} {ops : Ops α} {call : ℕ} {a : Fin P → AllreduceArgs}
  {l : Fin P → Local α β} {s : Fin P → RankState P α β Unit} (hP : P = 2 ^ m) (h2 : 2 ≤ P)
  (hs : Reaches (fabric P α β Unit cap)
    (start (fun r => allreduceRecursiveDoubling ops r call (a r)) l) s)
include hP h2 hs

theorem doubling_along (q : Fin P) :
    Along (fun _ _ => True) (turnEvents (doublingTurns (β := β) ops call a m q)) (s q) := by
  refine Follows.along (p := fun r => allreduceRecursiveDoubling ops r call (a r)) ?_ hs
  rcases allreduceRecursiveDoubling_cases (β := β) ops call a hP h2 q with ⟨e, he⟩ | he
  · rw [he]
    trivial
  · rw [he, roundsProc_doublingTurns]
    exact turns_follows _

theorem doubling_sent_partner {r : Fin P} {j : ℕ} (hj : j < m) (hsent : j + 1 ≤ (s r).sent.length) :
    j + 1 ≤ (s (partner j r)).log.length := by
  obtain ⟨y, hy⟩ : ∃ y, (s r).sent[j]? = some y := ⟨_, List.getElem?_eq_getElem (by omega)⟩
  have hdst : y.1 = partner j r := by
    have hal := doubling_along hP h2 hs r
    have hget := getElem?_of_prefix hal.sent_prefix hy
    rw [turnEvents, sendsPosted_flatMap, List.filterMap_map] at hget
    have hturns : (doublingTurns (β := β) ops call a m r).filterMap
        ((fun x => x.send) ∘ Turn.xfer) = (doublingTurns ops call a m r).map Turn.post :=
      congrFun List.filterMap_eq_map' _
    rw [hturns, List.getElem?_map, doublingTurns_getElem? ops call a hj r] at hget
    exact (congrArg Prod.fst (Option.some.inj hget)).symm
  have hmem : y.2 ∈ receivedFrom r (s (partner j r)).log := by
    rw [← fifo (fun _ _ => rfl) hs]
    exact List.mem_map.mpr ⟨y, List.mem_filter.mpr ⟨List.mem_of_getElem? hy,
      decide_eq_true hdst⟩, rfl⟩
  obtain ⟨e, he, -⟩ := List.mem_map.mp hmem
  obtain ⟨he, hsrc⟩ := List.mem_filter.mp he
  obtain ⟨i, hi⟩ := List.getElem?_of_mem he
  -- the partner has a message from `r` in one step only
  have hlog : ((s (partner j r)).log.map Prod.fst)[i]? = some r := by
    rw [List.getElem?_map, hi]
    exact congrArg some (of_decide_eq_true hsrc)
  have hget := getElem?_of_prefix (doubling_log_src hP h2 hs (partner j r)) hlog
  rw [List.getElem?_map, doublingTurns, List.getElem?_map, Option.map_map,
    Option.map_eq_some_iff] at hget
  obtain ⟨k, hk, hpart⟩ := hget
  obtain ⟨hlt, rfl⟩ := List.getElem?_eq_some_iff.mp hk
  rw [List.length_range] at hlt
  rw [List.getElem_range] at hpart
  obtain rfl : i = j := by
    apply partner_inj hP hlt hj (r := partner j r)
    rw [partner_partner hP hj]
    exact hpart
  exact (List.getElem?_eq_some_iff.mp hi).1

theorem doubling_block_informed {k : ℕ} (hk : k ≤ m) {r : Fin P} (hsent : k ≤ (s r).sent.length)
    {q : Fin P} {j : ℕ} (hblock : SameBlock k r q) (hlow : LowestDiffering j r q) :
    j + 1 ≤ (s q).log.length := by
  induction k generalizing r with
  | zero =>
    rw [sameBlock_zero_iff.mp hblock] at hlow
    exact absurd rfl hlow.1
  | succ k ih =>
    have hkm : k < m := by omega
    rcases (sameBlock_succ_iff hP hkm r q).mp hblock with hsame | hother
    · exact ih hkm.le (by omega) hsame hlow
    have hlog := doubling_sent_partner hP h2 hs hkm hsent
    have hbit := testBit_partner hP hkm r
    by_cases hj : j < k
    · -- below bit `k` the partner is like `r`
      have hclose := ((doubling_along hP h2 hs (partner k r)).sent_log_close (turns_twoWay _)).2
      refine ih hkm.le (by omega) hother ⟨?_, fun i hi => ?_⟩
      · simpa [hbit, show k ≠ j by omega] using hlow.1
      · simpa [hbit, show k ≠ i by omega] using hlow.2 i hi
    · have hq : partner k r = q := by
        refine Fin.ext (Nat.eq_of_testBit_eq fun i => ?_)
        by_cases hi : k ≤ i
        · exact hother i hi
        · simpa [hbit, show k ≠ i by omega] using hlow.2 i (by omega)
      have hjk : j = k := by
        by_contra hne
        apply hlow.1
        rw [← hq, hbit]
        simp [Ne.symm hne]
      rw [hjk, ← hq]
      exact hlog

end Doubling

/-- In every state of every run of `allreduce_recursive_doubling`, for all arguments: once a rank
has received a message of step `k`, every other rank of its block of `2 ^ k` ranks has received the
messages of all steps up to the one in which the two differ first. When it returns this holds of
all ranks. -/
theorem allreduceRecursiveDoubling_skew (cap : Fin P → Fin P → ℕ) {m : ℕ} (hP : P = 2 ^ m)
    (h2 : 2 ≤ P) (ops : Ops α) (call : ℕ) (a : Fin P → AllreduceArgs) (l : Fin P → Local α β)
    {s : Fin P → RankState P α β Unit}
    (hs : Reaches (fabric P α β Unit cap)
      (start (fun r => allreduceRecursiveDoubling ops r call (a r)) l) s)
    {r q : Fin P} {j : ℕ} (hlow : LowestDiffering j r q) :
    (∀ k, SameBlock k r q → k + 1 ≤ (s r).log.length → j + 1 ≤ (s q).log.length) ∧
    ((s r).proc = .pure () → j + 1 ≤ (s q).log.length) := by
  have hal := doubling_along hP h2 hs r
  have hlength : (doublingTurns (β := β) ops call a m r).length = m := by simp [doublingTurns]
  constructor
  · intro k hblock hk
    have hclose := (hal.sent_log_close (turns_twoWay _)).2
    have hle := hal.log_prefix.length_le
    rw [turnEvents, recvsPosted_flatMap, length_filterMap_of_isSome, List.length_map,
      List.length_map, hlength] at hle
    · exact doubling_block_informed hP h2 hs (by omega) (by omega) hblock hlow
    · intro x hx
      obtain ⟨t, -, rfl⟩ := List.mem_map.mp hx
      rfl
  · intro hr
    have hall := (hal.lengths_returned (turns_twoWay _) hr).1
    rw [List.length_map, hlength] at hall
    exact doubling_block_informed hP h2 hs le_rfl hall.ge (sameBlock_top hP r q) hlow

theorem allreduceRecursiveDoubling_skew_one_each :
    ∃ s, Reaches (fabric 4 ℕ Unit Unit fun _ _ => 1)
      (start (fun r => allreduceRecursiveDoubling (fun _ _ u v => u + v) r 0 (oneEach r))
        fun r => ⟨fun _ _ => 10 ^ r.val, ()⟩) s ∧
      (s 0).proc = .pure () ∧ 2 ≤ (s 2).log.length := by
  have hready : Ready oneEach 1 .int32 .sum 1 := by
    constructor <;> decide
  obtain ⟨s, hs, hret⟩ := allreduceRecursiveDoubling_settles (m := 2) (fun _ _ => 1) rfl
    (fun _ _ u v => u + v) 0 hready (fun r => ⟨fun _ _ => 10 ^ r.val, ()⟩) .refl
  refine ⟨s, hs, hret 0, ?_⟩
  have hlow : LowestDiffering 1 (0 : Fin 4) 2 := by
    constructor <;> decide
  exact (allreduceRecursiveDoubling_skew (m := 2) (fun _ _ => 1) rfl (by decide)
    (fun _ _ u v => u + v) 0 oneEach _ hs hlow).2 (hret 0)

end MicroCcl

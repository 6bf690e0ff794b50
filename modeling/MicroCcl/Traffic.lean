import MicroCcl.ProgramMemory
import Mathlib.Algebra.Order.BigOperators.Group.List

namespace MicroCcl
open Network

variable {P : ℕ} {α β A : Type}

def ringBytes (P count k k' : ℕ) : ℕ :=
  4 * (2 * count - chunkCount count P k - chunkCount count P k')

def Call.sentBytes (r : Fin P) : Call P → ℕ
  | .allreduceRing a => ringBytes P (a r).count ((r + 1) % P) ((r + 2) % P)
  | .allreduceRecursiveDoubling a => halvings P * (4 * (a r).count)
  | .allgather a => (P - 1) * (4 * (a r).sendCount)
  | .broadcast a root => if root = r.val then (P - 1) * (4 * (a r).count % 2 ^ 32) else 0
  | .barrier => 0

def Call.receivedBytes (r : Fin P) : Call P → ℕ
  | .allreduceRing a => ringBytes P (a r).count r ((r + 1) % P)
  | .allreduceRecursiveDoubling a => halvings P * (4 * (a r).count)
  | .allgather a => (P - 1) * (4 * (a r).sendCount)
  | .broadcast a root => if root = r.val then 0 else 4 * (a r).count
  | .barrier => 0

/-- The size in bytes of what the call is about is a `size_t`. -/
def Call.Sized (r : Fin P) : Call P → Prop
  | .allreduceRing a | .allreduceRecursiveDoubling a => (a r).count * 4 < 2 ^ 64
  | .allgather a => (a r).sendCount * 4 < 2 ^ 64
  | .broadcast a _ => (a r).count * 4 < 2 ^ 64
  | .barrier => True

def requestBytes (ys : List (Fin P × Wr)) : ℕ := (ys.map fun y => y.2.length).sum

def deliveredBytes (es : List (Fin P × Wr × Wr)) : ℕ := (es.map fun e => e.2.1.length).sum

@[simp] theorem requestBytes_append (ys ys' : List (Fin P × Wr)) :
    requestBytes (ys ++ ys') = requestBytes ys + requestBytes ys' := by
  simp [requestBytes]

@[simp] theorem deliveredBytes_append (es es' : List (Fin P × Wr × Wr)) :
    deliveredBytes (es ++ es') = deliveredBytes es + deliveredBytes es' := by
  simp [deliveredBytes]

/-- The requests `ys` and the messages `es` are those of the steps `xs`, and each message has passed
the checks of its step. -/
structure Moved (xs : List (Xfer P α β)) (ys : List (Fin P × Wr)) (es : List (Fin P × Wr × Wr)) :
    Prop where
  sent : ys = xs.filterMap (·.send)
  received : es.map answer = xs.filterMap Xfer.awaited

theorem Moved.append {xs xs' : List (Xfer P α β)} {ys : List (Fin P × Wr)}
    {es : List (Fin P × Wr × Wr)} (h : Moved (xs ++ xs') ys es) :
    ∃ ys₁ ys₂ es₁ es₂, ys = ys₁ ++ ys₂ ∧ es = es₁ ++ es₂ ∧ Moved xs ys₁ es₁ ∧
      Moved xs' ys₂ es₂ := by
  have hreceived := h.received
  rw [List.filterMap_append] at hreceived
  obtain ⟨es₁, es₂, rfl, h₁, h₂⟩ := List.map_eq_append_iff.mp hreceived
  exact ⟨_, _, es₁, es₂, h.sent.trans List.filterMap_append, rfl, ⟨rfl, h₁⟩, ⟨rfl, h₂⟩⟩

/-- A message of the length that a step expects fits into the 32 bits of its receive. -/
theorem length_of_answer {e : Fin P × Wr × Wr} {z : Fin P × Wr} {n : ℕ}
    (h : answer e = (z, ⟨.success, n⟩)) : e.2.1.length = n ∧ n ≤ z.2.length := by
  obtain ⟨hz, hwc⟩ := Prod.mk.inj h
  have hlen := length_of_completionOf hwc
  refine ⟨hlen, ?_⟩
  rw [← hz, ← hlen]
  by_contra hlt
  rw [completionOf, if_neg hlt] at hwc
  cases hwc

def Uniform (bytes : ℕ) (xs : List (Xfer P α β)) : Prop :=
  ∀ x ∈ xs, (∃ y, x.send = some y ∧ y.2.length = bytes % 2 ^ 32) ∧
    ∃ q v, x.recv = some (q, v) ∧ v.expected = bytes ∧ v.wr.length = bytes % 2 ^ 32

theorem Uniform.moved {bytes : ℕ} {xs : List (Xfer P α β)} (h : Uniform bytes xs)
    {ys : List (Fin P × Wr)} {es : List (Fin P × Wr × Wr)} (hm : Moved xs ys es) :
    requestBytes ys = xs.length * bytes ∧ deliveredBytes es = xs.length * bytes := by
  induction xs generalizing ys es with
  | nil =>
    obtain ⟨rfl, hes⟩ := hm
    obtain rfl := List.map_eq_nil_iff.mp hes
    simp [requestBytes, deliveredBytes]
  | cons x xs ih =>
    obtain ⟨⟨y, hsend, hy⟩, q, v, hrecv, hv, hwr⟩ := h x List.mem_cons_self
    rw [← List.singleton_append] at hm
    obtain ⟨ys₁, ys₂, es₁, es₂, rfl, rfl, ⟨rfl, h₁⟩, h₂⟩ := Moved.append hm
    obtain ⟨ihs, ihr⟩ := ih (fun x' hx' => h x' (List.mem_cons_of_mem x hx')) h₂
    have hawaited : x.awaited = some ((q, v.wr), ⟨.success, v.expected⟩) := by
      rw [Xfer.awaited, hrecv]
      rfl
    obtain ⟨e, rfl, he⟩ : ∃ e, es₁ = [e] ∧ answer e = ((q, v.wr), ⟨.success, v.expected⟩) := by
      simpa [hawaited, List.map_eq_singleton_iff] using h₁
    obtain ⟨hlen, hfits⟩ := length_of_answer he
    -- what is expected fits into 32 bits, so what was sent was not cut off either
    have hle : bytes ≤ bytes % 2 ^ 32 := by
      rw [← hwr]
      exact hv ▸ hfits
    have hshort : bytes < 2 ^ 32 := hle.trans_lt (Nat.mod_lt bytes (by decide))
    have hone : requestBytes ([x].filterMap (·.send)) = bytes := by
      simpa [requestBytes, hsend, hy] using hshort
    have hone' : deliveredBytes [e] = bytes := by
      simp [deliveredBytes, hlen, hv]
    rw [requestBytes_append, deliveredBytes_append, hone, hone', ihs, ihr, List.length_cons,
      Nat.succ_mul, Nat.add_comm]
    exact ⟨rfl, rfl⟩

section Calls

variable (ops : Ops α) (r : Fin P) (call : ℕ)

theorem doubling_uniform (a : Fin P → AllreduceArgs) : Uniform (szMul (a r).count 4)
    ((Call.allreduceRecursiveDoubling a).steps (β := β) ops r call) := by
  intro x hx
  obtain ⟨G, hG, rfl⟩ := List.mem_map.mp hx
  obtain ⟨step, -, rfl⟩ := List.mem_map.mp hG
  exact ⟨⟨_, rfl, rfl⟩, _, _, rfl, rfl, rfl⟩

theorem allgather_uniform (a : Fin P → AllgatherArgs) : Uniform (szMul (a r).sendCount 4)
    ((Call.allgather a).steps (β := β) ops r call) := by
  intro x hx
  obtain ⟨G, hG, rfl⟩ := List.mem_map.mp hx
  obtain ⟨step, -, rfl⟩ := List.mem_map.mp hG
  exact ⟨⟨_, rfl, rfl⟩, _, _, rfl, rfl, rfl⟩

variable {ops r call} {ys : List (Fin P × Wr)} {es : List (Fin P × Wr × Wr)}

theorem brings_short {chunks : List ChunkRange} {mr : MemoryRegion} {buf : Buf} {off : ℕ → ℕ}
    {base : ℕ} {is : List ℕ}
    (h : List.Forall₂ (BringsChunk r call chunks mr buf off base) is (es.map answer)) :
    ∀ i ∈ is, szMul (chunkSize chunks i) 4 < 2 ^ 32 :=
  ((List.forall₂_and_left _ _).mp
    ((List.forall₂_map_right_iff.mp h).imp fun _ _ he => ⟨he.length_eq.2, he⟩)).1

theorem brings_bytes {chunks : List ChunkRange} {mr : MemoryRegion} {buf : Buf} {off : ℕ → ℕ}
    {base : ℕ} {is : List ℕ}
    (h : List.Forall₂ (BringsChunk r call chunks mr buf off base) is (es.map answer))
    (hexact : ∀ i, szMul (chunkSize chunks i) 4 = 4 * chunkSize chunks i) :
    deliveredBytes es = 4 * (is.map (chunkSize chunks)).sum :=
  forall₂_sum (List.forall₂_map_right_iff.mp h) fun i _ _ he => he.length_eq.1.trans (hexact i)

theorem sends_bytes {a : AllreduceArgs} {chunks : List ChunkRange} {base : ℕ} {is : List ℕ}
    (h : List.Forall₂ (SendsChunk r a call chunks base) is ys)
    (hexact : ∀ i, szMul (chunkSize chunks i) 4 = 4 * chunkSize chunks i)
    (hshort : ∀ i ∈ is, szMul (chunkSize chunks i) 4 < 2 ^ 32) :
    requestBytes ys = 4 * (is.map (chunkSize chunks)).sum :=
  forall₂_sum h fun i hi _ hy => by
    rw [hy.length_eq, Nat.mod_eq_of_lt (hshort i hi), hexact]

/-- What one phase of the ring records where it sends the chunks `out` and receives the chunks `ins`
into `mr`. -/
structure PhaseRecords (r : Fin P) (a : AllreduceArgs) (call : ℕ) (mr : MemoryRegion) (buf : Buf)
    (off : ℕ → ℕ) (base : ℕ) (out ins : ℕ → ℕ) (ys : List (Fin P × Wr))
    (es : List (Fin P × Wr × Wr)) : Prop where
  sends : List.Forall₂ (SendsChunk r a call ((List.range P).map (chunkAt a.count P)) base)
    (movedChunks (P := P) ((List.range P).map (chunkAt a.count P)) out) ys
  brings : List.Forall₂
    (BringsChunk r call ((List.range P).map (chunkAt a.count P)) mr buf off base)
    (movedChunks (P := P) ((List.range P).map (chunkAt a.count P)) ins) (es.map answer)

theorem ring_phases {a : Fin P → AllreduceArgs}
    (hm : Moved ((Call.allreduceRing a).steps (β := β) ops r call) ys es) :
    ∃ ys₁ ys₂ es₁ es₂, ys = ys₁ ++ ys₂ ∧ es = es₁ ++ es₂ ∧
      PhaseRecords r (a r) call (a r).scratchMr (a r).scratch (fun _ => 0) 0 (back P r)
        (fun s => back P r (s + 1)) ys₁ es₁ ∧
      PhaseRecords r (a r) call (a r).dataMr (a r).data
        (fun i => szMul ((((List.range P).map (chunkAt (a r).count P)).getD i default).offset) 4)
        (P - 1) (back P (next r)) (back P r) ys₂ es₂ := by
  have hsteps : (Call.allreduceRing a).steps (β := β) ops r call =
      (List.range (P - 1)).map (fun s => reduceScatterRound ops call a s r) ++
        (List.range (P - 1)).map fun s => ringAllgatherRound call a s r := by
    rw [Call.steps, ringRounds, List.map_append, List.map_map, List.map_map]
    rfl
  rw [hsteps] at hm
  obtain ⟨ys₁, ys₂, es₁, es₂, rfl, rfl, ⟨rfl, hlog₁⟩, ⟨rfl, hlog₂⟩⟩ := hm.append
  refine ⟨_, _, es₁, es₂, rfl, rfl, ⟨?_, ?_⟩, ⟨?_, ?_⟩⟩
  · exact phase_sends r (a r) call (back_lt r) (fun s => by rw [Nat.zero_add]) fun s => rfl
  · rw [hlog₁]
    exact phase_brings r (a r) call (fun s => back_lt r (s + 1)) (fun s => by rw [Nat.zero_add])
      (fun s => rfl) (fun s => rfl) fun s => rfl
  · exact phase_sends r (a r) call (back_lt (next r)) (fun s => rfl) fun s => rfl
  · rw [hlog₂]
    refine phase_brings r (a r) call (back_lt r) (fun s => rfl) (fun s => rfl) (fun s => ?_)
      fun s => rfl
    rw [getD_chunkAt _ (back_lt r s)]
    rfl

theorem movedChunks_bytes {n k k' : ℕ} {idx idx' : ℕ → ℕ}
    (h : AllBut P k ((List.range (P - 1)).map idx))
    (h' : AllBut P k' ((List.range (P - 1)).map idx')) :
    4 * ((movedChunks (P := P) ((List.range P).map (chunkAt n P)) idx).map
        (chunkSize ((List.range P).map (chunkAt n P)))).sum +
      4 * ((movedChunks (P := P) ((List.range P).map (chunkAt n P)) idx').map
        (chunkSize ((List.range P).map (chunkAt n P)))).sum = ringBytes P n k k' := by
  have hsum := sum_moved (c := chunkSize ((List.range P).map (chunkAt n P)))
    (fun i hi => chunkSize_chunkAt n hi) h h'
  rw [chunkSize_chunkAt n h.lt, chunkSize_chunkAt n h'.lt, List.map_append, List.sum_append] at hsum
  rw [ringBytes, movedChunks, movedChunks]
  omega

theorem mem_movedChunks_received {chunks : List ChunkRange} {r : Fin P} {idx : ℕ → ℕ} {k i : ℕ}
    (h : AllBut P k ((List.range (P - 1)).map idx)) (hi : i ∈ movedChunks (P := P) chunks idx) :
    i ∈ movedChunks (P := P) chunks (fun s => back P r (s + 1)) ∨
      i ∈ movedChunks (P := P) chunks (back P r) := by
  obtain ⟨hmem, hpos⟩ := List.mem_filter.mp hi
  obtain ⟨hlt, -⟩ := h.mem_iff.mp hmem
  have hP : 2 ≤ P := by
    obtain ⟨s, hs, -⟩ := List.mem_map.mp hmem
    have := List.mem_range.mp hs
    omega
  by_cases hir : i = r
  · refine Or.inr (List.mem_filter.mpr ⟨(allBut_back r).mem_iff.mpr ⟨hlt, ?_⟩, hpos⟩)
    rw [hir, ← val_next]
    exact Fin.val_ne_of_ne (next_ne hP r)
  · exact Or.inl (List.mem_filter.mpr ⟨(allBut_back_succ r).mem_iff.mpr ⟨hlt, hir⟩, hpos⟩)

theorem ring_moved {a : Fin P → AllreduceArgs} (hsize : (a r).count * 4 < 2 ^ 64)
    (hm : Moved ((Call.allreduceRing a).steps (β := β) ops r call) ys es) :
    requestBytes ys = (Call.allreduceRing a).sentBytes r ∧
      deliveredBytes es = (Call.allreduceRing a).receivedBytes r := by
  obtain ⟨ys₁, ys₂, es₁, es₂, rfl, rfl, h₁, h₂⟩ := ring_phases hm
  have hexact : ∀ i, szMul (chunkSize ((List.range P).map (chunkAt (a r).count P)) i) 4 =
      4 * chunkSize ((List.range P).map (chunkAt (a r).count P)) i := by
    intro i
    have hle := chunkSize_le (P := P) (a r).count i
    rw [szMul, Nat.mod_eq_of_lt (by omega), Nat.mul_comm]
  have hshort : ∀ {idx k}, AllBut P k ((List.range (P - 1)).map idx) →
      ∀ i ∈ movedChunks (P := P) ((List.range P).map (chunkAt (a r).count P)) idx,
        szMul (chunkSize ((List.range P).map (chunkAt (a r).count P)) i) 4 < 2 ^ 32 := by
    intro idx k h i hi
    rcases mem_movedChunks_received (r := r) h hi with hi | hi
    · exact brings_short h₁.brings i hi
    · exact brings_short h₂.brings i hi
  rw [requestBytes_append, deliveredBytes_append,
    sends_bytes h₁.sends hexact (hshort (allBut_back r)),
    sends_bytes h₂.sends hexact (hshort (allBut_back_next r)),
    brings_bytes h₁.brings hexact, brings_bytes h₂.brings hexact]
  exact ⟨movedChunks_bytes (allBut_back r) (allBut_back_next r),
    movedChunks_bytes (allBut_back_succ r) (allBut_back r)⟩

theorem broadcastRound_sends (call : ℕ) (a : Fin P → BroadcastArgs) (r : Fin P)
    (ps : List (Fin P)) :
    requestBytes ((ps.map fun peer => broadcastRound (α := α) (β := β) call a r peer r).filterMap
      (·.send)) = (ps.filter (· ≠ r)).length * (szMul (a r).count 4 % 2 ^ 32) := by
  induction ps with
  | nil => exact (Nat.zero_mul _).symm
  | cons peer ps ih =>
    rw [List.map_cons]
    by_cases hpeer : peer = r
    · rw [List.filterMap_cons_none (by rw [broadcastRound, if_pos hpeer]), ih, hpeer]
      simp
    · have hone : (broadcastRound (α := α) (β := β) call a r peer r).send = some (peer, workRequest
          (a r).mr (a r).buf 0 (szMul (a r).count 4) ⟨call, peer⟩) := by
        simp [broadcastRound, hpeer]
      rw [List.filterMap_cons_some hone, List.filter_cons_of_pos (by simpa using hpeer),
        List.length_cons, Nat.succ_mul, ← ih, Nat.add_comm]
      rfl

theorem filterMap_single {X Y : Type} {f : X → Option Y} {xs : List X} {x : X} {y : Y}
    (hx : x ∈ xs) (hxs : xs.Nodup) (hy : f x = some y) (h : ∀ z ∈ xs, z ≠ x → f z = none) :
    xs.filterMap f = [y] := by
  obtain ⟨us, vs, rfl⟩ := List.append_of_mem hx
  obtain ⟨-, hvs, hdisj⟩ := List.nodup_append.mp hxs
  have hus : us.filterMap f = [] := List.filterMap_eq_nil_iff.mpr fun z hz =>
    h z (by simp [hz]) fun hzx => hdisj z hz x List.mem_cons_self hzx
  have hvs : vs.filterMap f = [] := List.filterMap_eq_nil_iff.mpr fun z hz =>
    h z (by simp [hz]) fun hzx => (List.nodup_cons.mp hvs).1 (hzx ▸ hz)
  rw [List.filterMap_append, hus, List.filterMap_cons_some hy, hvs, List.nil_append]

theorem broadcastRound_awaits (call : ℕ) (a : Fin P → BroadcastArgs) {r root : Fin P}
    (hr : r ≠ root) :
    ((List.finRange P).map fun peer =>
      broadcastRound (α := α) (β := β) call a root peer r).filterMap Xfer.awaited =
      [((root, workRequest (a r).mr (a r).buf 0 (szMul (a r).count 4) ⟨call, r⟩),
        ⟨.success, szMul (a r).count 4⟩)] := by
  rw [List.filterMap_map]
  refine filterMap_single (List.mem_finRange r) (List.nodup_finRange P) ?_ fun peer _ hpeer => ?_
  · simp [broadcastRound, Xfer.awaited, hr]
  · simp [broadcastRound, Xfer.awaited, hr, Ne.symm hpeer]

theorem broadcast_moved {a : Fin P → BroadcastArgs} {root : ℤ}
    (hsize : (a r).count * 4 < 2 ^ 64) (hroot : 0 ≤ root ∧ root < P)
    (hm : Moved ((Call.broadcast a root).steps (β := β) ops r call) ys es) :
    requestBytes ys = (Call.broadcast a root).sentBytes r ∧
      deliveredBytes es = (Call.broadcast a root).receivedBytes r := by
  obtain ⟨q, rfl⟩ : ∃ q : Fin P, root = q.val := ⟨⟨root.toNat, by omega⟩, by simp [hroot.1]⟩
  have hexact : szMul (a r).count 4 = 4 * (a r).count := by
    rw [szMul, Nat.mod_eq_of_lt hsize, Nat.mul_comm]
  have hsteps : (Call.broadcast a q.val).steps (β := β) ops r call =
      (List.finRange P).map fun peer => broadcastRound call a q peer r := by
    rw [Call.steps, dif_pos hroot, broadcastRounds, List.map_map]
    rfl
  obtain ⟨rfl, hlog⟩ := hsteps ▸ hm
  by_cases hr : r = q
  · subst hr
    have hnone : ((List.finRange P).map fun peer =>
        broadcastRound (α := α) (β := β) call a r peer r).filterMap Xfer.awaited = [] := by
      refine List.filterMap_eq_nil_iff.mpr fun x hx => ?_
      obtain ⟨peer, -, rfl⟩ := List.mem_map.mp hx
      by_cases hpeer : peer = r <;> simp [broadcastRound, Xfer.awaited, hpeer]
    obtain rfl : es = [] := List.map_eq_nil_iff.mp (hlog.trans hnone)
    refine ⟨?_, (if_pos rfl).symm⟩
    rw [broadcastRound_sends, hexact, ← otherRanks, length_otherRanks]
    exact (if_pos rfl).symm
  · have hne : ¬ ((q.val : ℤ) = r.val) := fun h => hr (Fin.ext (by omega))
    obtain ⟨e, rfl, he⟩ : ∃ e, es = [e] ∧ answer e = _ :=
      List.map_eq_singleton_iff.mp (hlog.trans (broadcastRound_awaits call a hr))
    have hnone : ((List.finRange P).map fun peer =>
        broadcastRound (α := α) (β := β) call a q peer r).filterMap (·.send) = [] := by
      refine List.filterMap_eq_nil_iff.mpr fun x hx => ?_
      obtain ⟨peer, -, rfl⟩ := List.mem_map.mp hx
      exact Option.eq_none_iff_forall_ne_some.mpr fun y hy => hr (broadcastRound_send hy).2.1
    rw [hnone, Call.sentBytes, if_neg hne, Call.receivedBytes, if_neg hne, ← hexact]
    exact ⟨rfl, by simpa [deliveredBytes] using (length_of_answer he).1⟩

theorem Call.Guards.moved {c : Call P} (hc : c.Guards r) (hsize : c.Sized r)
    (hm : Moved (c.steps (β := β) ops r call) ys es) :
    requestBytes ys = c.sentBytes r ∧ deliveredBytes es = c.receivedBytes r := by
  have hexact : ∀ {n}, n * 4 < 2 ^ 64 → szMul n 4 = 4 * n := by
    intro n hn
    rw [szMul, Nat.mod_eq_of_lt hn, Nat.mul_comm]
  cases c with
  | allreduceRing a => exact ring_moved hsize hm
  | allreduceRecursiveDoubling a =>
    have hbytes := (doubling_uniform ops r call a).moved hm
    rw [hexact hsize] at hbytes
    simpa [Call.steps, doublingRounds, Call.sentBytes, Call.receivedBytes] using hbytes
  | allgather a =>
    have hbytes := (allgather_uniform ops r call a).moved hm
    rw [hexact hsize] at hbytes
    simpa [Call.steps, allgatherRounds, Call.sentBytes, Call.receivedBytes] using hbytes
  | broadcast a root => exact broadcast_moved hsize hc hm
  | barrier =>
    obtain ⟨rfl, hlog⟩ := hm
    obtain rfl := List.map_eq_nil_iff.mp hlog
    exact ⟨rfl, rfl⟩

theorem program_moved {cs : List (Call P)} (hcs : ∀ c ∈ cs, c.Guards r)
    (hsize : ∀ c ∈ cs, c.Sized r) (hm : Moved (programSteps (β := β) ops r call cs) ys es) :
    requestBytes ys = (cs.map (Call.sentBytes r)).sum ∧
      deliveredBytes es = (cs.map (Call.receivedBytes r)).sum := by
  induction cs generalizing call ys es with
  | nil =>
    obtain ⟨rfl, hlog⟩ := hm
    obtain rfl := List.map_eq_nil_iff.mp hlog
    exact ⟨rfl, rfl⟩
  | cons c cs ih =>
    obtain ⟨ys₁, ys₂, es₁, es₂, rfl, rfl, h₁, h₂⟩ := Moved.append hm
    obtain ⟨hs, hr⟩ := (hcs c List.mem_cons_self).moved (hsize c List.mem_cons_self) h₁
    obtain ⟨hs', hr'⟩ := ih (fun d hd => hcs d (List.mem_cons_of_mem c hd))
      (fun d hd => hsize d (List.mem_cons_of_mem c hd)) h₂
    rw [requestBytes_append, deliveredBytes_append, hs, hr, hs', hr']
    exact ⟨rfl, rfl⟩

end Calls

theorem Proc.Returns.of_bind {B : Type} {p : Proc P α β A} {f : A → Proc P α β B}
    (h : (p >>= f).Returns) : p.Returns ∧ ∃ a, (f a).Returns := by
  induction p with
  | pure a => exact ⟨trivial, a, h⟩
  | throw e => exact h.elim
  | postRecv q wr k ih => exact ih h
  | postSend q wr k ih => exact ih h
  | pollSend k ih =>
    obtain ⟨wc, h⟩ := h
    exact ⟨⟨wc, (ih wc h).1⟩, (ih wc h).2⟩
  | pollRecv k ih =>
    obtain ⟨wc, h⟩ := h
    exact ⟨⟨wc, (ih wc h).1⟩, (ih wc h).2⟩
  | upd g k ih => exact ih h
  | sendByte q b t k ih => exact ih h
  | recvByte q t k ih =>
    obtain ⟨b, h⟩ := h
    exact ⟨⟨b, (ih b h).1⟩, (ih b h).2⟩

theorem program_guards_of_returns {ops : Ops α} {r : Fin P} {cs : List (Call P)}
    (hsize : ∀ c ∈ cs, c.Sized r) {call : ℕ} (h : (program (β := β) ops r call cs).Returns) :
    ∀ c ∈ cs, c.Guards r := by
  induction cs generalizing call with
  | nil => simp
  | cons c cs ih =>
    obtain ⟨hown, u, hrest⟩ := Proc.Returns.of_bind h
    intro d hd
    rcases List.mem_cons.mp hd with rfl | hd
    · by_contra hrefused
      obtain ⟨e, he⟩ : ∃ e, d.proc (β := β) ops r call = .throw e := by
        refine Call.proc_of_not_guards ?_ hrefused call
        rintro a rfl
        have hbytes : (a r).count * 4 < 2 ^ 64 := hsize _ List.mem_cons_self
        omega
      rw [he] at hown
      exact hown
    · exact ih (fun d hd => hsize d (List.mem_cons_of_mem c hd)) hrest d hd

section Returned

variable {cap : Fin P → Fin P → ℕ} {ops : Ops α} {r : Fin P} {cs : List (Call P)}
  (hsize : ∀ c ∈ cs, c.Sized r) {p : Fin P → Proc P α β Unit} (hp : p r = program ops r 0 cs)
  {l : Fin P → Local α β} {s : Fin P → RankState P α β Unit}
  (hs : Reaches (fabric P α β Unit cap) (start p l) s) (hret : (s r).proc = .pure ())
include hsize hp hs hret

theorem returned_guards : ∀ c ∈ cs, c.Guards r := by
  have hreturns : (program (β := β) ops r 0 cs).Returns := hp ▸ returns_of_reaches hs hret
  exact program_guards_of_returns hsize hreturns

theorem returned_moved : Moved (programSteps (β := β) ops r 0 cs) (s r).sent (s r).log := by
  have hcs := returned_guards hsize hp hs hret
  have halong := Follows.along (hp ▸ program_follows (β := β) hcs ops 0) hs
  obtain ⟨hsent, hlog⟩ := halong.returned hret
  rw [sendWaits_flatMap] at hsent
  rw [recvWaits_flatMap] at hlog
  exact ⟨hsent, hlog⟩

end Returned

/-- In every run of every program of collectives whose sizes in bytes are below 2^64, whatever the
other ranks do: a rank that has returned has sent and received exactly as many bytes as its own
arguments say. -/
theorem program_traffic (cap : Fin P → Fin P → ℕ) (ops : Ops α) (r : Fin P) {cs : List (Call P)}
    (hsize : ∀ c ∈ cs, c.Sized r) {p : Fin P → Proc P α β Unit} (hp : p r = program ops r 0 cs)
    (l : Fin P → Local α β) {s : Fin P → RankState P α β Unit}
    (hs : Reaches (fabric P α β Unit cap) (start p l) s) (hret : (s r).proc = .pure ()) :
    requestBytes (s r).sent = (cs.map (Call.sentBytes r)).sum ∧
      deliveredBytes (s r).log = (cs.map (Call.receivedBytes r)).sum :=
  program_moved (returned_guards hsize hp hs hret) hsize (returned_moved hsize hp hs hret)

def sumCopy : List (Call 4) :=
  [.allreduceRecursiveDoubling fun _ => ⟨⟨0, 20⟩, 0, 5, .int32, .sum, ⟨1, 20⟩, 1, 5⟩,
    .broadcast (fun _ => ⟨⟨0, 20⟩, 0, 5, .int32⟩) 1]

theorem sumCopy_sized (r : Fin 4) : ∀ c ∈ sumCopy, c.Sized r := by
  simp only [sumCopy, List.mem_cons, List.not_mem_nil, or_false, forall_eq_or_imp, forall_eq,
    Call.Sized]
  decide

theorem sumCopy_ready : ∀ c ∈ sumCopy, c.Ready := by
  simp only [sumCopy, List.mem_cons, List.not_mem_nil, or_false, forall_eq_or_imp, forall_eq]
  refine ⟨⟨⟨2, rfl⟩, 5, .int32, .sum, ?_⟩, ⟨1, rfl⟩, 5, ?_⟩
  · constructor <;> decide
  · constructor <;> decide

theorem four_ranks_return {cs : List (Call 4)} (hcs : ∀ c ∈ cs, c.Ready) :
    ∃ s, Reaches (fabric 4 ℕ Unit Unit fun _ _ => 1)
        (start (fun r => program (fun _ _ u v => u + v) r 0 cs)
          fun r => ⟨fun _ i => 10 * r + i, ()⟩) s ∧ ∀ r, (s r).proc = .pure () := by
  have hcap : ∀ i j : Fin 4, 0 < (fun _ _ => 1 : Fin 4 → Fin 4 → ℕ) i j := fun _ _ => Nat.one_pos
  obtain ⟨x', -, hleads⟩ := program_leads hcap hcs (fun _ _ u v => u + v) 0
    fun r => (⟨fun _ i => 10 * r + i, ()⟩ : Local ℕ Unit)
  obtain ⟨s, hs, hq⟩ := hleads _ (start_quiet _ _)
  exact ⟨s, hs, fun r => (hq r).proc⟩

/-- The root sends 20 bytes twice and then once to each of the others. -/
theorem program_traffic_sumCopy :
    ∃ s, Reaches (fabric 4 ℕ Unit Unit fun _ _ => 1)
        (start (fun r => program (fun _ _ u v => u + v) r 0 sumCopy)
          fun r => ⟨fun _ i => 10 * r + i, ()⟩) s ∧
      requestBytes (s 1).sent = 100 ∧ deliveredBytes (s 1).log = 40 := by
  obtain ⟨s, hs, hret⟩ := four_ranks_return sumCopy_ready
  obtain ⟨hsent, hreceived⟩ := program_traffic (fun _ _ => 1) _ 1 (sumCopy_sized 1) rfl _ hs
    (hret 1)
  have hdouble : halvings 4 = 2 := halvings_two_pow 2
  refine ⟨s, hs, hsent.trans ?_, hreceived.trans ?_⟩
  · simp [sumCopy, Call.sentBytes, hdouble]
  · simp [sumCopy, Call.receivedBytes, hdouble]

def Call.onRing : Call P → Call P
  | .allreduceRecursiveDoubling a => .allreduceRing a
  | c => c

theorem ringBytes_two {n k k' : ℕ} (hk : k < 2) (hk' : k' < 2) (hne : k ≠ k') :
    ringBytes 2 n k k' = 4 * n := by
  have hall : chunkCount n 2 k + chunkCount n 2 k' = n := by
    unfold chunkCount
    split_ifs <;> omega
  rw [ringBytes]
  omega

theorem ringBytes_neighbours {m : ℕ} (hP : P = 2 ^ m) (n : ℕ) (q : Fin P) :
    ringBytes P n q (next q) ≤ m * (4 * n) ∧
    (P = 2 → ringBytes P n q (next q) = m * (4 * n)) ∧
    (4 ≤ P → P ≤ n → ringBytes P n q (next q) < m * (4 * n)) := by
  have hq := q.isLt
  rcases m with _ | _ | m
  · -- a single rank leaves out everything
    obtain rfl : P = 1 := hP
    have hnext : (next q).val = q.val := congrArg Fin.val (Subsingleton.elim _ _)
    have hall : chunkCount n 1 q = n := by
      simp [chunkCount, Nat.mod_one]
    rw [ringBytes, hnext, hall]
    omega
  · obtain rfl : P = 2 := hP
    have htwo := ringBytes_two (n := n) hq (next q).isLt (Fin.val_ne_of_ne (next_ne le_rfl q))
    omega
  · have hfour : 4 ≤ P := by
      have hpow : 2 ^ 2 ≤ 2 ^ (m + 1 + 1) := Nat.pow_le_pow_right (by decide) (by omega)
      omega
    have hle : 2 * (4 * n) ≤ (m + 1 + 1) * (4 * n) := Nat.mul_le_mul_right (4 * n) (by omega)
    refine ⟨?_, fun h => absurd h (by omega), fun _ hn => ?_⟩
    · rw [ringBytes]
      omega
    · have hchunk : 1 ≤ chunkCount n P q :=
        (Nat.div_pos hn q.pos).trans_le (le_chunkCount n P q)
      rw [ringBytes]
      omega

theorem onRing_bytes {r : Fin P} {c : Call P} (hc : c.Guards r) :
    (c.onRing.sentBytes r ≤ c.sentBytes r ∧ c.onRing.receivedBytes r ≤ c.receivedBytes r) ∧
    (P = 2 → c.onRing.sentBytes r = c.sentBytes r ∧
      c.onRing.receivedBytes r = c.receivedBytes r) ∧
    (4 ≤ P → ∀ a, c = .allreduceRecursiveDoubling a → P ≤ (a r).count →
      c.onRing.sentBytes r < c.sentBytes r ∧ c.onRing.receivedBytes r < c.receivedBytes r) := by
  cases c with
  | allreduceRecursiveDoubling a =>
    obtain ⟨m, hP⟩ := exists_two_pow_of_isPowerOfTwo hc.2.1
    have hm : halvings P = m := hP ▸ halvings_two_pow m
    have hsent := ringBytes_neighbours hP (a r).count (next r)
    have hreceived := ringBytes_neighbours hP (a r).count r
    rw [val_next_next, val_next] at hsent
    rw [val_next] at hreceived
    simp only [Call.onRing, Call.sentBytes, Call.receivedBytes, hm]
    refine ⟨⟨hsent.1, hreceived.1⟩, fun h => ⟨hsent.2.1 h, hreceived.2.1 h⟩, fun h a' ha hn => ?_⟩
    obtain rfl := Call.allreduceRecursiveDoubling.inj ha
    exact ⟨hsent.2.2 h hn, hreceived.2.2 h hn⟩
  | _ => exact ⟨⟨le_rfl, le_rfl⟩, fun _ => ⟨rfl, rfl⟩, fun _ _ h => by cases h⟩

theorem Call.Sized.onRing {r : Fin P} {c : Call P} (hc : c.Sized r) : c.onRing.Sized r := by
  cases c <;> exact hc

/-- In a program that has the ring in place of recursive doubling no rank sends or receives more
bytes than in the program with recursive doubling, whatever the other ranks do in the two runs, as
long as sizes in bytes are below 2^64. Between two ranks it is the same number, and from four ranks
on it is less as soon as one of the calls has an element for each rank. -/
theorem ring_program_lighter (cap : Fin P → Fin P → ℕ) (ops : Ops α) (r : Fin P)
    {cs : List (Call P)} (hsize : ∀ c ∈ cs, c.Sized r) {p q : Fin P → Proc P α β Unit}
    (hp : p r = program ops r 0 cs) (hq : q r = program ops r 0 (cs.map Call.onRing))
    (l : Fin P → Local α β) {s t : Fin P → RankState P α β Unit}
    (hs : Reaches (fabric P α β Unit cap) (start p l) s) (hret : (s r).proc = .pure ())
    (ht : Reaches (fabric P α β Unit cap) (start q l) t) (hret' : (t r).proc = .pure ()) :
    (requestBytes (t r).sent ≤ requestBytes (s r).sent ∧
      deliveredBytes (t r).log ≤ deliveredBytes (s r).log) ∧
    (P = 2 → requestBytes (t r).sent = requestBytes (s r).sent ∧
      deliveredBytes (t r).log = deliveredBytes (s r).log) ∧
    (4 ≤ P → (∃ a, .allreduceRecursiveDoubling a ∈ cs ∧ P ≤ (a r).count) →
      requestBytes (t r).sent < requestBytes (s r).sent ∧
        deliveredBytes (t r).log < deliveredBytes (s r).log) := by
  have hcs := returned_guards hsize hp hs hret
  have hsize' : ∀ c ∈ cs.map Call.onRing, c.Sized r := by
    intro c hc
    obtain ⟨d, hd, rfl⟩ := List.mem_map.mp hc
    exact (hsize d hd).onRing
  have hown := fun c hc => onRing_bytes (hcs c hc)
  obtain ⟨hsent, hreceived⟩ := program_moved hcs hsize (returned_moved hsize hp hs hret)
  obtain ⟨hsent', hreceived'⟩ := program_moved (returned_guards hsize' hq ht hret') hsize'
    (returned_moved hsize' hq ht hret')
  rw [hsent, hreceived, hsent', hreceived', List.map_map, List.map_map]
  refine ⟨⟨?_, ?_⟩, fun htwo => ⟨?_, ?_⟩, fun hfour hlarge => ⟨?_, ?_⟩⟩
  · exact List.sum_le_sum fun c hc => (hown c hc).1.1
  · exact List.sum_le_sum fun c hc => (hown c hc).1.2
  · exact congrArg List.sum (List.map_congr_left fun c hc => ((hown c hc).2.1 htwo).1)
  · exact congrArg List.sum (List.map_congr_left fun c hc => ((hown c hc).2.1 htwo).2)
  · obtain ⟨a, ha, hn⟩ := hlarge
    exact List.sum_lt_sum _ _ (fun c hc => (hown c hc).1.1)
      ⟨_, ha, ((hown _ ha).2.2 hfour a rfl hn).1⟩
  · obtain ⟨a, ha, hn⟩ := hlarge
    exact List.sum_lt_sum _ _ (fun c hc => (hown c hc).1.2)
      ⟨_, ha, ((hown _ ha).2.2 hfour a rfl hn).2⟩

theorem ring_program_lighter_sumCopy :
    ∃ s t, Reaches (fabric 4 ℕ Unit Unit fun _ _ => 1)
        (start (fun r => program (fun _ _ u v => u + v) r 0 sumCopy)
          fun r => ⟨fun _ i => 10 * r + i, ()⟩) s ∧
      Reaches (fabric 4 ℕ Unit Unit fun _ _ => 1)
        (start (fun r => program (fun _ _ u v => u + v) r 0 (sumCopy.map Call.onRing))
          fun r => ⟨fun _ i => 10 * r + i, ()⟩) t ∧
      ∀ r, requestBytes (t r).sent < requestBytes (s r).sent ∧
        deliveredBytes (t r).log < deliveredBytes (s r).log := by
  have hring : ∀ c ∈ sumCopy.map Call.onRing, c.Ready := by
    simp only [sumCopy, List.map_cons, List.map_nil, Call.onRing, List.mem_cons, List.not_mem_nil,
      or_false, forall_eq_or_imp, forall_eq]
    refine ⟨⟨5, .int32, .sum, ?_⟩, ⟨1, rfl⟩, 5, ?_⟩
    · constructor <;> decide
    · constructor <;> decide
  obtain ⟨s, hs, hret⟩ := four_ranks_return sumCopy_ready
  obtain ⟨t, ht, hret'⟩ := four_ranks_return hring
  exact ⟨s, t, hs, ht, fun r => (ring_program_lighter (fun _ _ => 1) _ r (sumCopy_sized r) rfl rfl _
    hs (hret r) ht (hret' r)).2.2 le_rfl ⟨_, List.mem_cons_self, by decide⟩⟩

end MicroCcl

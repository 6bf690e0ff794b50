import MicroCcl.SizeGuards

namespace MicroCcl
open Network

variable {P : ℕ} {α β A : Type} {cap : Fin P → Fin P → ℕ}

/-- The ranges of bytes have nothing in common. -/
def Wr.BytesApart (y z : Wr) : Prop :=
  y.buf ≠ z.buf ∨ y.off + y.length ≤ z.off ∨ z.off + z.length ≤ y.off

/-- The range of the request is inside the data or inside the scratch region. -/
def AllreduceArgs.Covers (a : AllreduceArgs) (wr : Wr) : Prop :=
  (wr.mr = a.dataMr ∨ wr.mr = a.scratchMr) ∧ wr.buf = wr.mr.addr ∧
    wr.off + wr.length ≤ wr.mr.length

/-- The send is posted and its completion has not been taken. -/
def OutstandingSend (st : RankState P α β A) (y : Fin P × Wr) : Prop :=
  y.2 ∈ st.sendQ y.1 ∨ st.sent.getLast? = some y ∧ (st.acks y.1 ≠ [] ∨ st.sendCq ≠ [])

def OutstandingRecv (st : RankState P α β A) (z : Fin P × Wr) : Prop :=
  z.2 ∈ st.recvQ z.1 ∨ (st.log.map fun e => (e.1, e.2.2)).getLast? = some z ∧ st.recvCq ≠ []

theorem SendSide.eq_of_outstanding {st : RankState P α β A} {ws : List (Fin P × Wr)}
    {ps : Option (Fin P × Wr)} (h : SendSide st ws ps) {y : Fin P × Wr}
    (hy : OutstandingSend st y) : ps = some y := by
  rcases hy with hy | ⟨hlast, hy⟩
  · obtain ⟨w, rest, hq⟩ := List.exists_cons_of_ne_nil (List.ne_nil_of_mem hy)
    obtain ⟨rfl, rfl, -⟩ := h.queue_cons hq
    rw [hq, List.mem_singleton] at hy
    rw [← hy]
  · cases h with
    | idle _ ha hc => simp [ha, hc] at hy
    | queued _ _ ha hc => simp [ha, hc] at hy
    | taken y' a _ _ _ hs => simpa [hs] using hlast
    | completed y' wc _ _ _ hs => simpa [hs] using hlast

theorem RecvSide.eq_of_outstanding {st : RankState P α β A} {wr : List ((Fin P × Wr) × Wc)}
    {pr : Option (Fin P × Wr)} (h : RecvSide st wr pr) {z : Fin P × Wr}
    (hz : OutstandingRecv st z) : pr = some z := by
  rcases hz with hz | ⟨hlast, hz⟩
  · obtain ⟨w, rest, hq⟩ := List.exists_cons_of_ne_nil (List.ne_nil_of_mem hz)
    obtain ⟨rfl, rfl, -⟩ := h.queue_cons hq
    rw [hq, List.mem_singleton] at hz
    rw [← hz]
  · obtain ⟨wc, rest, hc⟩ := List.exists_cons_of_ne_nil hz
    obtain ⟨z', rfl, -, -, hl⟩ := h.cq_cons hc
    have hmap : (st.log.map fun e => (e.1, e.2.2)) = (st.log.map answer).map Prod.fst := by
      rw [List.map_map]
      rfl
    rw [hmap, hl, List.map_append, List.map_singleton, List.getLast?_concat] at hlast
    exact hlast

section Rounds

variable {D : Wr → Wr → Prop} {Gs : List (Round P α β)} {r : Fin P} {st : RankState P α β A}

theorem Along.send_mem (h : Along D (roundsEvents Gs r) st) {y : Fin P × Wr}
    (hy : OutstandingSend st y) : ∃ G ∈ Gs, y ∈ (G r).send := by
  obtain ⟨done, todo, ps, pr, htrace, hprog⟩ := h
  obtain rfl := hprog.sends.eq_of_outstanding hy
  have hmem : y ∈ sendsPosted (roundsEvents Gs r) := by
    rw [← htrace, sendsPosted_append, hprog.posted]
    simp
  rw [sendsPosted_roundsEvents, List.mem_flatMap] at hmem
  simpa using hmem

theorem Along.recv_mem (h : Along D (roundsEvents Gs r) st) {z : Fin P × Wr}
    (hz : OutstandingRecv st z) : ∃ G ∈ Gs, ∃ v ∈ (G r).recv, (v.1, v.2.wr) = z := by
  obtain ⟨done, todo, ps, pr, htrace, hprog⟩ := h
  obtain rfl := hprog.recvs.eq_of_outstanding hz
  have hmem : z ∈ recvsPosted (roundsEvents Gs r) := by
    rw [← htrace, recvsPosted_append, hprog.postedRecvs]
    simp
  rw [recvsPosted_roundsEvents, List.mem_flatMap] at hmem
  simpa using hmem

theorem Along.outstanding_apart {trace : List (Event P α β)} (h : Along D trace st)
    {y z : Fin P × Wr} (hy : OutstandingSend st y) (hz : OutstandingRecv st z) : D y.2 z.2 := by
  obtain ⟨done, todo, ps, pr, -, hprog⟩ := h
  exact hprog.apart y (hprog.sends.eq_of_outstanding hy) z (hprog.recvs.eq_of_outstanding hz)

theorem Along.update_mem (h : Along D (roundsEvents Gs r) st) {f : Local α β → Local α β}
    {k : Proc P α β A} (hp : st.proc = .upd f k) :
    (∃ G ∈ Gs, ∃ v ∈ (G r).recv, v.2.reduce = some f) ∧ outstandingSends st = 0 ∧
      outstandingRecvs st = 0 := by
  obtain ⟨done, todo, ps, pr, htrace, hprog⟩ := h
  have hcode := hprog.code
  rw [hp] at hcode
  obtain ⟨rfl, rfl, es, rfl, -⟩ := hcode
  refine ⟨?_, hprog.sends.outstanding, Nat.le_zero.mp hprog.recvs.outstanding⟩
  have hmem : Event.update f ∈ roundsEvents Gs r := by
    rw [← htrace]
    simp
  obtain ⟨G, hG, hx⟩ := List.mem_flatMap.mp hmem
  refine ⟨G, hG, ?_⟩
  rcases hx' : G r with ⟨_ | ⟨q, v⟩, _ | y⟩ <;> simp [hx', Xfer.events] at hx
  · exact ⟨(q, v), rfl, hx⟩
  · exact ⟨(q, v), rfl, hx⟩

end Rounds

/-- What the caller of `allreduce_ring` promises about its buffers. -/
structure RingBuffers (a : AllreduceArgs) : Prop where
  data_eq : a.data = a.dataMr.addr
  scratch_eq : a.scratch = a.scratchMr.addr
  apart : a.dataMr.addr ≠ a.scratchMr.addr
  bytes_lt : a.count * 4 < 2 ^ 64
  capacity_le : a.scratchCapacityElems * 4 ≤ a.scratchMr.length

section Ring

variable {ops : Ops α} {call : ℕ} {a : AllreduceArgs} {r : Fin P}

theorem RingBuffers.mul_offset (h : RingBuffers a) {c : ℕ} (hc : c < P) :
    szMul (chunkOffset a.count P c) 4 = chunkOffset a.count P c * 4 := by
  have hle : chunkOffset a.count P c + chunkCount a.count P c ≤ a.count := chunk_end_le hc
  have hlt := h.bytes_lt
  exact Nat.mod_eq_of_lt (by omega)

section Guarded

variable (h : RingBuffers a) (hg : RingGuards P a) (hP : 2 ≤ P)
include h hg

theorem RingBuffers.chunk_in_data {c : ℕ} (hc : c < P) :
    chunkOffset a.count P c * 4 + chunkCount a.count P c * 4 ≤ a.dataMr.length := by
  have hle : chunkOffset a.count P c + chunkCount a.count P c ≤ a.count := chunk_end_le hc
  have hfit := hg.1
  rw [szMul, Nat.mod_eq_of_lt h.bytes_lt] at hfit
  omega

theorem RingBuffers.covers_data {c : ℕ} (hc : c < P) (tag : Tag) :
    a.Covers (workRequest a.dataMr a.data (szMul (chunkOffset a.count P c) 4)
      (szMul (chunkCount a.count P c) 4) tag) := by
  have hlen := szMul_mod_le (chunkCount a.count P c)
  have hin := h.chunk_in_data hg hc
  refine ⟨Or.inl rfl, h.data_eq, ?_⟩
  simp only [workRequest, h.mul_offset hc]
  omega

include hP

theorem RingBuffers.chunk_in_scratch (c : ℕ) : chunkCount a.count P c * 4 ≤ a.scratchMr.length := by
  have hle : chunkCount a.count P c ≤ (a.count + P - 1) / P := chunkCount_le_ceil (by omega) c
  have hcap := hg.2.resolve_left (by omega)
  have htrue := h.capacity_le
  omega

theorem RingBuffers.covers_scratch (c : ℕ) (tag : Tag) :
    a.Covers (workRequest a.scratchMr a.scratch 0 (szMul (chunkCount a.count P c) 4) tag) := by
  have hlen := szMul_mod_le (chunkCount a.count P c)
  have hin := h.chunk_in_scratch hg hP c
  refine ⟨Or.inr rfl, h.scratch_eq, ?_⟩
  simp only [workRequest]
  omega

end Guarded

theorem ringRounds_send {a : Fin P → AllreduceArgs} {G : Round P α β}
    (hG : G ∈ ringRounds ops call a) {y : Fin P × Wr} (hy : y ∈ (G r).send) :
    ∃ c < P, ∃ tag, y.2 = workRequest (a r).dataMr (a r).data
      (szMul (chunkOffset (a r).count P c) 4) (szMul (chunkCount (a r).count P c) 4) tag := by
  rcases List.mem_append.mp hG with hG | hG <;> obtain ⟨s, -, rfl⟩ := List.mem_map.mp hG
  · simp only [reduceScatterRound, ringXfer, Option.mem_def] at hy
    split_ifs at hy
    obtain rfl := Option.some.inj hy
    exact ⟨_, back_lt r s, _, rfl⟩
  · simp only [ringAllgatherRound, ringXfer, Option.mem_def] at hy
    split_ifs at hy
    obtain rfl := Option.some.inj hy
    exact ⟨_, back_lt (next r) s, _, rfl⟩

theorem ringRounds_apart (h : RingBuffers a) (hP : 2 ≤ P) :
    ∀ G ∈ ringRounds (β := β) ops call (fun _ : Fin P => a), ∀ y ∈ (G r).send,
      ∀ z ∈ (G r).recv, y.2.BytesApart z.2.wr := by
  intro G hG y hy z hz
  rcases List.mem_append.mp hG with hG | hG <;> obtain ⟨s, hs, rfl⟩ := List.mem_map.mp hG
  · simp only [reduceScatterRound, ringXfer, Option.mem_def] at hy hz
    split_ifs at hy hz
    obtain rfl := Option.some.inj hy
    obtain rfl := Option.some.inj hz
    apply Or.inl
    change a.data ≠ a.scratch
    rw [h.data_eq, h.scratch_eq]
    exact h.apart
  · simp only [ringAllgatherRound, ringXfer, Option.mem_def] at hy hz
    split_ifs at hy hz
    obtain rfl := Option.some.inj hy
    obtain rfl := Option.some.inj hz
    have hs := List.mem_range.mp hs
    apply Or.inr
    simp only [workRequest, ringAllgatherRecv, chunkAt, h.mul_offset (back_lt r _),
      h.mul_offset (back_lt (next r) _)]
    exact chunk_bytes_disjoint a.count (back_next_ne hP r (by omega))

end Ring

/-- `allreduce_ring` throws before it posts anything exactly when the data region or scratch is too
small. Otherwise, in every run and whatever the other ranks do, its outstanding requests are
inside the registered regions, the receive is apart from the send, and nothing is outstanding
while it reduces inside the regions. -/
theorem allreduceRing_registered_only (cap : Fin P → Fin P → ℕ) (hP : 2 ≤ P) (ops : Ops α)
    (call : ℕ) (r : Fin P) {a : AllreduceArgs} (h : RingBuffers a) :
    ((∃ e, allreduceRing (β := β) ops r call a = .throw e) ↔
      a.count * 4 > a.dataMr.length ∨ a.scratchCapacityElems < (a.count + P - 1) / P) ∧
    ((¬ ∃ e, allreduceRing (β := β) ops r call a = .throw e) →
      ∀ p : Fin P → Proc P α β Unit, p r = allreduceRing ops r call a →
      ∀ l s, Reaches (fabric P α β Unit cap) (start p l) s →
        (∀ y, OutstandingSend (s r) y → a.Covers y.2) ∧
        (∀ z, OutstandingRecv (s r) z → a.Covers z.2) ∧
        (∀ y z, OutstandingSend (s r) y → OutstandingRecv (s r) z → y.2.BytesApart z.2) ∧
        ∀ f k, (s r).proc = .upd f k → outstandingSends (s r) = 0 ∧ outstandingRecvs (s r) = 0 ∧
          ∃ off n, f = a.reduce ops off n ∧ off + n * 4 ≤ a.dataMr.length ∧
            n * 4 ≤ a.scratchMr.length) := by
  have hlt := h.bytes_lt
  have hthrow := allreduceRing_throws_iff (β := β) ops r call (a := a) (by omega)
  refine ⟨?_, ?_⟩
  · rw [hthrow, RingGuards, szMul, Nat.mod_eq_of_lt hlt]
    omega
  · intro hno p hp l s hs
    have hg : RingGuards P a := not_not.mp fun hg => hno (hthrow.mpr hg)
    rw [allreduceRing_guards ops call (fun _ => a) r (by omega), if_pos hg] at hp
    have halong := Follows.along (hp ▸ rounds_follows (ringRounds_apart h hP)) hs
    refine ⟨fun y hy => ?_, fun z hz => ?_, fun y z hy hz => halong.outstanding_apart hy hz,
      fun f k hf => ?_⟩
    · obtain ⟨G, hG, hsend⟩ := halong.send_mem hy
      obtain ⟨c, hc, tag, hwr⟩ := ringRounds_send hG hsend
      rw [hwr]
      exact h.covers_data hg hc tag
    · obtain ⟨G, hG, v, hv, rfl⟩ := halong.recv_mem hz
      obtain ⟨step, hwr | hwr⟩ := ringRounds_recv hG hv
      · rw [hwr]
        exact h.covers_scratch hg hP _ _
      · rw [hwr]
        exact h.covers_data hg (back_lt r step) _
    · obtain ⟨⟨G, hG, v, hv, hred⟩, hsends, hrecvs⟩ := halong.update_mem hf
      refine ⟨hsends, hrecvs, ?_⟩
      obtain ⟨step, hwr | hwr⟩ := ringRounds_recv hG hv
      · rw [hwr] at hred
        refine ⟨_, _, (Option.some.inj hred).symm, ?_, h.chunk_in_scratch hg hP _⟩
        rw [chunkAt, h.mul_offset (back_lt r (step + 1))]
        exact h.chunk_in_data hg (back_lt r (step + 1))
      · rw [hwr] at hred
        cases hred

/-- Five elements over three ranks, in buffers that just fit. -/
def fiveTight : AllreduceArgs := ⟨⟨0, 20⟩, 0, 5, .int32, .sum, ⟨1, 8⟩, 1, 2⟩

/-- The start of the call on three ranks. -/
def startFiveTight : Fin 3 → RankState 3 ℕ Unit Unit :=
  start (fun r => allreduceRing (fun _ _ u v => u + v) r 0 fiveTight) fun _ => ⟨fun _ _ => 0, ()⟩

/-- Rank 0 posts its first receive, for the last chunk, into its scratch region. -/
theorem allreduceRing_registered_only_fiveTight :
    ∃ s z, Reaches (fabric 3 ℕ Unit Unit fun _ _ => 1) startFiveTight s ∧
      OutstandingRecv (s 0) z ∧ z.2.mr = ⟨1, 8⟩ ∧ z.2.length = 4 ∧ fiveTight.Covers z.2 := by
  have h : RingBuffers fiveTight := by constructor <;> decide
  obtain ⟨hthrow, hrun⟩ := allreduceRing_registered_only (fun _ _ => 1) (by decide)
    (fun _ _ u v => u + v : Ops ℕ) 0 (0 : Fin 3) h
  have hno : ¬ ∃ e, allreduceRing (P := 3) (α := ℕ) (β := Unit) (fun _ _ u v => u + v) 0 0
      fiveTight = .throw e := fun he => absurd (hthrow.mp he) (by decide)
  have hstep := Step.act (N := fabric 3 ℕ Unit Unit fun _ _ => 1) (s := startFiveTight) 0 .op rfl
  have hs := Relation.ReflTransGen.single hstep
  refine ⟨_, (2, workRequest ⟨1, 8⟩ 1 0 4 ⟨0, 0⟩), hs, ?_, rfl, rfl, ?_⟩
  · exact Or.inl (List.mem_singleton.mpr rfl)
  · exact (hrun hno _ rfl _ _ hs).2.1 (2, _) (Or.inl (List.mem_singleton.mpr rfl))

end MicroCcl

import MicroCcl.Frame
import MicroCcl.Chunking
import MicroCcl.ReduceOps
import MicroCcl.RingIndex

namespace MicroCcl
open Network

variable {P : ℕ} {α β : Type}

section Code

variable (ops : Ops α) (R : Fin P) (call : ℕ) (a : AllreduceArgs) (chunks : List ChunkRange)

def reduceScatterMismatch (expected got : ℕ) : Exn :=
  .runtimeError ("allreduce_ring: reduce-scatter recv size mismatch, expected " ++
    toString expected ++ " got " ++ toString got ++ " -- ranks disagree on chunk size")

def ringAllgatherMismatch (expected got : ℕ) : Exn :=
  .runtimeError ("allreduce_ring: allgather recv size mismatch, expected " ++
    toString expected ++ " got " ++ toString got ++ " -- ranks disagree on chunk size")

def ringScratchTooSmall (capacity largest : ℕ) : Exn :=
  .runtimeError ("allreduce_ring: scratch buffer (" ++ toString capacity ++
    " elems) smaller than largest chunk (" ++ toString largest ++ " elems)")

def ringCountExceeds : Exn :=
  .runtimeError "allreduce_ring: count exceeds registered data buffer length"

/-- One turn of the loop of phase 1. -/
def reduceScatterStep (step : ℕ) : Proc P α β Unit := do
  let elemSize := dtypeSize a.dtype
  let sendTo := modP P (R.val + 1)
  let recvFrom := modP P (R.val - 1)
  let sendChunk := chunks.getD (modP P (R.val - step)).toNat default
  let recvChunk := chunks.getD (modP P (R.val - step - 1)).toNat default
  -- with fewer elements than ranks some chunks are empty and not sent at all
  if recvChunk.count > 0 then
    postRecv (← qp R recvFrom) a.scratchMr a.scratch 0 (szMul recvChunk.count elemSize) 0
      ⟨call, step⟩
  if sendChunk.count > 0 then
    postSend (← qp R sendTo) a.dataMr a.data (szMul sendChunk.offset elemSize)
      (szMul sendChunk.count elemSize) 0 ⟨call, step⟩
  if sendChunk.count > 0 then
    let _ ← waitCompletion .send
  if recvChunk.count > 0 then
    let wc ← waitCompletion .recv
    let expected := szMul recvChunk.count elemSize
    if wc.byteLen ≠ expected then
      .throw (reduceScatterMismatch expected wc.byteLen)
    .upd (a.reduce ops (szMul recvChunk.offset elemSize) recvChunk.count) (.pure ())

/-- One turn of the loop of phase 2. -/
def ringAllgatherStep (step : ℕ) : Proc P α β Unit := do
  let elemSize := dtypeSize a.dtype
  let sendTo := modP P (R.val + 1)
  let recvFrom := modP P (R.val - 1)
  let sendChunk := chunks.getD (modP P (R.val - step + 1)).toNat default
  let recvChunk := chunks.getD (modP P (R.val - step)).toNat default
  if recvChunk.count > 0 then
    postRecv (← qp R recvFrom) a.dataMr a.data (szMul recvChunk.offset elemSize)
      (szMul recvChunk.count elemSize) 0 ⟨call, P - 1 + step⟩
  if sendChunk.count > 0 then
    postSend (← qp R sendTo) a.dataMr a.data (szMul sendChunk.offset elemSize)
      (szMul sendChunk.count elemSize) 0 ⟨call, P - 1 + step⟩
  if sendChunk.count > 0 then
    let _ ← waitCompletion .send
  if recvChunk.count > 0 then
    let wc ← waitCompletion .recv
    let expected := szMul recvChunk.count elemSize
    if wc.byteLen ≠ expected then
      .throw (ringAllgatherMismatch expected wc.byteLen)

def allreduceRing : Proc P α β Unit := do
  let elemSize := dtypeSize a.dtype
  if szMul a.count elemSize > a.dataMr.length then
    .throw ringCountExceeds
  else if P = 1 then
    .pure ()
  else
    let chunks ← Proc.ofExcept (computeChunks a.count P)
    let maxChunkElems := chunks.foldl (fun m c => max m c.count) 0
    if a.scratchCapacityElems < maxChunkElems then
      .throw (ringScratchTooSmall a.scratchCapacityElems maxChunkElems)
    (List.range (P - 1)).forM (reduceScatterStep ops R call a chunks)
    (List.range (P - 1)).forM (ringAllgatherStep R call a chunks)

end Code

section Rounds

variable (ops : Ops α) (call : ℕ) (a : Fin P → AllreduceArgs)

/-- The part that moves chunk `recvChunk` in and chunk `sendChunk` out. -/
def ringXfer (r : Fin P) (a : AllreduceArgs) (tag : Tag) (sendChunk : ChunkRange)
    (recvChunk : ChunkRange) (v : RecvPart α β) : Xfer P α β where
  recv := if 0 < recvChunk.count then some (prev r, v) else none
  send := if 0 < sendChunk.count then
      some (next r, workRequest a.dataMr a.data (szMul sendChunk.offset 4)
        (szMul sendChunk.count 4) tag)
    else none

def reduceScatterRecv (a : AllreduceArgs) (tag : Tag) (c : ChunkRange) : RecvPart α β where
  wr := workRequest a.scratchMr a.scratch 0 (szMul c.count 4) tag
  expected := szMul c.count 4
  mismatch := reduceScatterMismatch (szMul c.count 4)
  reduce := some (a.reduce ops (szMul c.offset 4) c.count)

def ringAllgatherRecv (a : AllreduceArgs) (tag : Tag) (c : ChunkRange) : RecvPart α β where
  wr := workRequest a.dataMr a.data (szMul c.offset 4) (szMul c.count 4) tag
  expected := szMul c.count 4
  mismatch := ringAllgatherMismatch (szMul c.count 4)
  reduce := none

def reduceScatterRound (step : ℕ) : Round P α β := fun r =>
  let recvChunk := chunkAt (a r).count P (back P r (step + 1))
  ringXfer r (a r) ⟨call, step⟩ (chunkAt (a r).count P (back P r step)) recvChunk
    (reduceScatterRecv ops (a r) ⟨call, step⟩ recvChunk)

def ringAllgatherRound (step : ℕ) : Round P α β := fun r =>
  let recvChunk := chunkAt (a r).count P (back P r step)
  ringXfer r (a r) ⟨call, P - 1 + step⟩ (chunkAt (a r).count P (back P (next r) step)) recvChunk
    (ringAllgatherRecv (a r) ⟨call, P - 1 + step⟩ recvChunk)

def ringRounds : List (Round P α β) :=
  (List.range (P - 1)).map (reduceScatterRound ops call a) ++
    (List.range (P - 1)).map (ringAllgatherRound call a)

end Rounds

theorem ringRounds_recv {ops : Ops α} {call : ℕ} {a : Fin P → AllreduceArgs} {G : Round P α β}
    (hG : G ∈ ringRounds ops call a) {r : Fin P} {z : Fin P × RecvPart α β}
    (hz : z ∈ (G r).recv) : ∃ s,
      z.2 = reduceScatterRecv ops (a r) ⟨call, s⟩ (chunkAt (a r).count P (back P r (s + 1))) ∨
      z.2 = ringAllgatherRecv (a r) ⟨call, P - 1 + s⟩ (chunkAt (a r).count P (back P r s)) := by
  rcases List.mem_append.mp hG with hG | hG
  · obtain ⟨s, -, rfl⟩ := List.mem_map.mp hG
    simp only [reduceScatterRound, ringXfer, Option.mem_def] at hz
    split_ifs at hz
    obtain rfl := Option.some.inj hz
    exact ⟨s, Or.inl rfl⟩
  · obtain ⟨s, -, rfl⟩ := List.mem_map.mp hG
    simp only [ringAllgatherRound, ringXfer, Option.mem_def] at hz
    split_ifs at hz
    obtain rfl := Option.some.inj hz
    exact ⟨s, Or.inr rfl⟩

theorem getD_chunks {n : ℕ} {i : ℤ} {j : ℕ} (hi : i = (j : ℤ)) (hj : j < P) :
    ((List.range P).map (chunkAt n P)).getD i.toNat default = chunkAt n P j := by
  subst i
  simp [List.getD_eq_getElem?_getD, hj]

theorem reduceScatterStep_eq (ops : Ops α) (call : ℕ) (a : Fin P → AllreduceArgs) (r : Fin P)
    (hP : 2 ≤ P) {step : ℕ} (hs : step < P - 1) :
    reduceScatterStep ops r call (a r) ((List.range P).map (chunkAt (a r).count P)) step =
      (reduceScatterRound (β := β) ops call a step r).proc := by
  have hsend := getD_chunks (n := (a r).count) (modP_sub r (s := step) (by omega))
    (back_lt r step)
  have hrecv := getD_chunks (n := (a r).count) (modP_sub_sub_one r (s := step) (by omega))
    (back_lt r (step + 1))
  unfold reduceScatterStep reduceScatterRound ringXfer Xfer.proc
  simp only [hsend, hrecv, modP_succ, modP_pred, qp_eq (next_ne hP r), qp_eq (prev_ne hP r)]
  by_cases h1 : 0 < (chunkAt (a r).count P (back P r (step + 1))).count <;>
    by_cases h2 : 0 < (chunkAt (a r).count P (back P r step)).count <;>
    simp [h1, h2, Xfer.postRecv, Xfer.postSend, Xfer.waitSend, Xfer.waitRecv, postRecv, postSend,
      RecvPart.finish_def, reduceScatterRecv, workRequest]

theorem ringAllgatherStep_eq (call : ℕ) (a : Fin P → AllreduceArgs) (r : Fin P)
    (hP : 2 ≤ P) {step : ℕ} (hs : step < P - 1) :
    ringAllgatherStep r call (a r) ((List.range P).map (chunkAt (a r).count P)) step =
      (ringAllgatherRound (α := α) (β := β) call a step r).proc := by
  have hidx : modP P (((r : ℕ) : ℤ) - (step : ℤ) + 1) = (back P (next r) step : ℕ) := by
    rw [← modP_sub (next r) (by omega), ← modP_succ, modP_eq_emod (by omega),
      modP_eq_emod (by omega), modP_eq_emod (by omega), Int.emod_sub_emod]
    congr 1
    ring
  have hsend := getD_chunks (n := (a r).count) hidx (back_lt (next r) step)
  have hrecv := getD_chunks (n := (a r).count) (modP_sub r (s := step) (by omega))
    (back_lt r step)
  unfold ringAllgatherStep ringAllgatherRound ringXfer Xfer.proc
  simp only [hsend, hrecv, modP_succ, modP_pred, qp_eq (next_ne hP r), qp_eq (prev_ne hP r)]
  by_cases h1 : 0 < (chunkAt (a r).count P (back P r step)).count <;>
    by_cases h2 : 0 < (chunkAt (a r).count P (back P (next r) step)).count <;>
    simp [h1, h2, Xfer.postRecv, Xfer.postSend, Xfer.waitSend, Xfer.waitRecv, postRecv, postSend,
      RecvPart.finish_def, ringAllgatherRecv, workRequest]

theorem foldl_max_le {cs : List ChunkRange} {m n : ℕ} (hm : m ≤ n) (h : ∀ c ∈ cs, c.count ≤ n) :
    cs.foldl (fun m c => max m c.count) m ≤ n := by
  induction cs generalizing m with
  | nil => exact hm
  | cons c cs ih => exact ih (max_le hm (h c (by simp))) fun d hd => h d (by simp [hd])

theorem le_foldl_max (cs : List ChunkRange) (m : ℕ) :
    m ≤ cs.foldl (fun m c => max m c.count) m := by
  induction cs generalizing m with
  | nil => exact le_rfl
  | cons c cs ih => exact (le_max_left m c.count).trans (ih _)

theorem foldl_max_chunks (hP : 0 < P) (n : ℕ) :
    ((List.range P).map (chunkAt n P)).foldl (fun m c => max m c.count) 0 = (n + P - 1) / P := by
  apply le_antisymm
  · refine foldl_max_le (Nat.zero_le _) fun c hc => ?_
    obtain ⟨i, -, rfl⟩ := List.mem_map.mp hc
    exact chunkCount_le_ceil hP i
  · obtain ⟨k, rfl⟩ : ∃ k, P = k + 1 := ⟨P - 1, by omega⟩
    rw [List.range_succ_eq_map, List.map_cons, List.foldl_cons, ← chunkCount_zero hP]
    exact (le_max_right 0 _).trans (le_foldl_max _ _)

/-- Both guards of `allreduce_ring`; the product is one of `size_t`. -/
def RingGuards (P : ℕ) (a : AllreduceArgs) : Prop :=
  szMul a.count 4 ≤ a.dataMr.length ∧ (P = 1 ∨ (a.count + P - 1) / P ≤ a.scratchCapacityElems)

instance (P : ℕ) (a : AllreduceArgs) : Decidable (RingGuards P a) :=
  inferInstanceAs (Decidable (_ ∧ _))

/-- What `allreduce_ring` throws when one of its guards does not hold. -/
def ringRefusal (P : ℕ) (a : AllreduceArgs) : Exn :=
  if szMul a.count 4 > a.dataMr.length then ringCountExceeds
  else ringScratchTooSmall a.scratchCapacityElems ((a.count + P - 1) / P)

theorem roundsProc_ringRounds (ops : Ops α) (call : ℕ) (a : Fin P → AllreduceArgs) (r : Fin P)
    (hP : 2 ≤ P) : roundsProc (ringRounds (β := β) ops call a) r =
      ((List.range (P - 1)).forM (reduceScatterStep ops r call (a r)
        ((List.range P).map (chunkAt (a r).count P))) >>= fun _ =>
      (List.range (P - 1)).forM (ringAllgatherStep r call (a r)
        ((List.range P).map (chunkAt (a r).count P)))) := by
  rw [ringRounds, roundsProc_append,
    forM_eq_roundsProc fun s hs => reduceScatterStep_eq ops call a r hP (List.mem_range.mp hs),
    forM_eq_roundsProc fun s hs => ringAllgatherStep_eq call a r hP (List.mem_range.mp hs)]

theorem allreduceRing_guards (ops : Ops α) (call : ℕ) (a : Fin P → AllreduceArgs) (r : Fin P)
    (hcount : (a r).count < 2 ^ 64) : allreduceRing ops r call (a r) =
      if RingGuards P (a r) then roundsProc (ringRounds (β := β) ops call a) r
      else .throw (ringRefusal P (a r)) := by
  unfold allreduceRing ringRefusal
  simp only [dtypeSize_eq]
  by_cases hfit : szMul (a r).count 4 > (a r).dataMr.length
  · have hno : ¬ RingGuards P (a r) := fun h => absurd h.1 (not_le.mpr hfit)
    rw [if_pos hfit, if_pos hfit, if_neg hno]
  rw [if_neg hfit, if_neg hfit]
  obtain hP | hP : P = 1 ∨ 2 ≤ P := by have := r.isLt; omega
  · subst hP
    have hyes : RingGuards 1 (a r) := ⟨not_lt.mp hfit, Or.inl rfl⟩
    rw [if_pos rfl, if_pos hyes]
    rfl
  rw [if_neg (show P ≠ 1 by omega), computeChunks_eq hcount (by omega)]
  simp only [Proc.ofExcept, Proc.pure_bind', foldl_max_chunks (show 0 < P by omega)]
  by_cases hscr : (a r).scratchCapacityElems < ((a r).count + P - 1) / P
  · have hno : ¬ RingGuards P (a r) := by
      rintro ⟨-, h⟩
      omega
    rw [if_pos hscr, if_neg hno]
    rfl
  · have hyes : RingGuards P (a r) := ⟨not_lt.mp hfit, Or.inr (not_lt.mp hscr)⟩
    rw [if_neg hscr, if_pos hyes]
    exact (roundsProc_ringRounds ops call a r hP).symm

theorem allreduceRing_eq (ops : Ops α) (call : ℕ) (a : Fin P → AllreduceArgs) (r : Fin P)
    (hfit : (a r).count * 4 ≤ (a r).dataMr.length) (hlen : (a r).dataMr.length < 2 ^ 64)
    (hscr : P = 1 ∨ ((a r).count + P - 1) / P ≤ (a r).scratchCapacityElems) :
    allreduceRing ops r call (a r) = roundsProc (ringRounds (β := β) ops call a) r := by
  have hyes : RingGuards P (a r) := ⟨(Nat.mod_le _ _).trans hfit, hscr⟩
  rw [allreduceRing_guards ops call a r (by omega), if_pos hyes]

section Agree

variable {a : Fin P → AllreduceArgs} {count : ℕ} {dtype : Dtype} {op : ReduceOp}

theorem ringXfer_paired (hP : 2 ≤ P) {G : Round P α β} {tag : Tag} {sc rc : Fin P → ChunkRange}
    {v : Fin P → RecvPart α β} (hG : ∀ r, G r = ringXfer r (a r) tag (sc r) (rc r) (v r))
    (hchunk : ∀ r, rc (next r) = sc r)
    (hlen : ∀ r, (v r).wr.length = szMul (rc r).count 4 % 2 ^ 32) (htag : ∀ r, (v r).wr.tag = tag)
    (hap : ∀ r, (workRequest (a r).dataMr (a r).data (szMul (sc r).offset 4)
      (szMul (sc r).count 4) tag).Apart
      (v r).wr) : G.Paired where
  apart := by
    intro r y hy z hz
    simp only [hG, ringXfer, Option.mem_def] at hy hz
    split_ifs at hy hz
    obtain rfl := Option.some.inj hy
    obtain rfl := Option.some.inj hz
    exact hap r
  send_recv := by
    intro i j wr h
    simp only [hG, ringXfer] at h
    split_ifs at h with hc
    obtain ⟨rfl, rfl⟩ := Prod.mk.inj (Option.some.inj h)
    refine ⟨next_ne hP i, v (next i), ?_, ?_, ?_⟩
    · rw [hG, ringXfer, hchunk, if_pos hc, prev_next]
    · rw [hlen, hchunk]
      rfl
    · rw [htag]
      rfl
  recv_send := by
    intro i j w h
    simp only [hG, ringXfer] at h
    split_ifs at h with hc
    obtain ⟨rfl, rfl⟩ := Prod.mk.inj (Option.some.inj h)
    have hcp := hchunk (prev j)
    rw [next_prev] at hcp
    exact ⟨_, by rw [hG, ringXfer, ← hcp, if_pos hc, next_prev]⟩

section Alike

variable (h : Alike a count dtype op)
include h

theorem Alike.chunk_off {i : ℕ} (hi : i < P) :
    szMul (chunkOffset count P i) 4 = chunkOffset count P i * 4 := by
  have he : chunkOffset count P i + chunkCount count P i ≤ count := chunk_end_le hi
  have hlt := h.bytes_lt
  exact Nat.mod_eq_of_lt (by omega)

omit h in
theorem chunk_bytes_disjoint (count : ℕ) {c d : ℕ} (hne : c ≠ d) :
    chunkOffset count P c * 4 + szMul (chunkCount count P c) 4 % 2 ^ 32 ≤
        chunkOffset count P d * 4 ∨
      chunkOffset count P d * 4 + szMul (chunkCount count P d) 4 % 2 ^ 32 ≤
        chunkOffset count P c * 4 := by
  have h1 := szMul_mod_le (chunkCount count P c)
  have h2 := szMul_mod_le (chunkCount count P d)
  rcases chunk_disjoint count P hne with hlt | hlt
  · apply Or.inl
    omega
  · apply Or.inr
    omega

theorem reduceScatterRound_paired (hP : 2 ≤ P) (ops : Ops α) (call : ℕ) {step : ℕ}
    (hs : step < P - 1) : (reduceScatterRound (β := β) ops call a step).Paired := by
  refine ringXfer_paired hP (fun r => rfl) (fun r => ?_) (fun r => rfl) (fun r => rfl)
    (fun r => Or.inl (h.apart r))
  simp only [h.count_eq, back_next r (show step + 1 ≤ P by omega)]

theorem ringAllgatherRound_paired (hP : 2 ≤ P) (call : ℕ) {step : ℕ}
    (hs : step < P - 1) : (ringAllgatherRound (α := α) (β := β) call a step).Paired := by
  refine ringXfer_paired hP (fun r => rfl) (fun r => ?_) (fun r => rfl) (fun r => rfl)
    (fun r => Or.inr ?_)
  · simp only [h.count_eq]
  · have hne : back P (next r) step ≠ back P r step := back_next_ne hP r (by omega)
    have hbytes := chunk_bytes_disjoint (P := P) count hne
    simp only [workRequest, ringAllgatherRecv, chunkAt, h.count_eq, h.chunk_off (back_lt r _),
      h.chunk_off (back_lt (next r) _)]
    omega

theorem ringRounds_paired (hP : 2 ≤ P) (ops : Ops α) (call : ℕ) :
    ∀ G ∈ ringRounds (β := β) ops call a, G.Paired := by
  intro G hG
  rcases List.mem_append.mp hG with hG | hG
  · obtain ⟨s, hs, rfl⟩ := List.mem_map.mp hG
    exact reduceScatterRound_paired h hP ops call (List.mem_range.mp hs)
  · obtain ⟨s, hs, rfl⟩ := List.mem_map.mp hG
    exact ringAllgatherRound_paired h hP call (List.mem_range.mp hs)

omit h in
theorem reduceScatterRecv_apply (ops : Ops α) (a : AllreduceArgs) (tag : Tag) (c : ChunkRange)
    (l : Local α β) :
    (reduceScatterRecv ops a tag c).apply l = a.reduce ops (szMul c.offset 4) c.count l := rfl

theorem reduceScatterRound_recv (ops : Ops α) (call step : ℕ) {r : Fin P}
    (hc : 0 < chunkCount count P (back P r (step + 1))) :
    (reduceScatterRound (β := β) ops call a step r).recv = some (prev r,
      reduceScatterRecv ops (a r) ⟨call, step⟩ (chunkAt count P (back P r (step + 1)))) := by
  simp only [reduceScatterRound, ringXfer, h.count_eq, chunkAt, if_pos hc]

theorem reduceScatterRound_store (ops : Ops α) (call : ℕ) {step : ℕ} (hs : step < P - 1)
    (l : Fin P → Local α β) {r : Fin P} (hc : 0 < chunkCount count P (back P r (step + 1)))
    (hshort : chunkCount count P (back P r (step + 1)) * 4 < 2 ^ 32) (b : Buf) (i : ℕ) :
    ((reduceScatterRecv ops (a r) ⟨call, step⟩ (chunkAt count P (back P r (step + 1)))).store (l r)
        ((reduceScatterRound ops call a step).payload l (prev r))).mem b i =
      if b = (a r).scratch ∧ i < chunkCount count P (back P r (step + 1)) then
        (l (prev r)).mem (a (prev r)).data (chunkOffset count P (back P r (step + 1)) + i)
      else (l r).mem b i := by
  have hchunk := back_prev r (show step + 1 ≤ P by omega)
  have hsend : (reduceScatterRound (β := β) ops call a step (prev r)).send = some (r,
      workRequest (a (prev r)).dataMr (a (prev r)).data
        (chunkOffset count P (back P r (step + 1)) * 4)
        (szMul (chunkCount count P (back P r (step + 1))) 4) ⟨call, step⟩) := by
    simp only [reduceScatterRound, ringXfer, h.count_eq, hchunk, chunkAt, if_pos hc, next_prev,
      h.chunk_off (back_lt r _)]
  rw [Round.payload_of_send _ hsend]
  simp only [reduceScatterRecv, RecvPart.store, chunkAt,
    workRequest_move (szMul_mod_of_short hshort), Nat.mul_div_cancel _ (show 0 < 4 by omega),
    Nat.zero_div, Nat.zero_add, Nat.sub_zero, Nat.zero_le, true_and]

theorem reduceScatterRound_sync (ops : Ops α) (call : ℕ) {step : ℕ} (hs : step < P - 1)
    (l : Fin P → Local α β) (r : Fin P)
    (hshort : chunkCount count P (back P r (step + 1)) * 4 < 2 ^ 32) {b : Buf}
    (hb : b ≠ (a r).scratch) (i : ℕ) : ((reduceScatterRound ops call a step).sync l r).mem b i =
      if b = (a r).data ∧ InChunk count P (back P r (step + 1)) i then
        ops dtype op ((l r).mem b i) ((l (prev r)).mem (a (prev r)).data i)
      else (l r).mem b i := by
  by_cases hc : 0 < chunkCount count P (back P r (step + 1))
  · have hstore := reduceScatterRound_store h ops call hs l hc hshort
    rw [Round.sync_of_recv _ (reduceScatterRound_recv h ops call step hc), reduceScatterRecv_apply]
    simp only [AllreduceArgs.reduce, reduceInplace_apply ops (h.apart r), hstore, h.dtype_eq,
      h.op_eq, if_neg (fun h' : _ ∧ _ => h.apart r h'.1), if_neg (fun h' : _ ∧ _ => hb h'.1)]
    simp only [chunkAt, h.chunk_off (back_lt r _), Nat.mul_div_cancel _ (show 0 < 4 by omega),
      InChunk]
    refine ite_congr rfl (fun h1 => ?_) fun _ => rfl
    obtain ⟨rfl, h1, h2⟩ := h1
    rw [if_pos ⟨trivial, by omega⟩, Nat.add_sub_cancel' h1]
  · have hrecv : (reduceScatterRound (β := β) ops call a step r).recv = none := by
      simp only [reduceScatterRound, ringXfer, h.count_eq, chunkAt, if_neg hc]
    rw [Round.sync_of_idle _ hrecv, if_neg]
    rintro ⟨-, h1, h2⟩
    omega

end Alike

variable (h : Ready a count dtype op ((count + P - 1) / P))
include h

theorem Ready.chunk_short (hP : 2 ≤ P) (i : ℕ) : chunkCount count P i * 4 < 2 ^ 32 := by
  have hc : chunkCount count P i ≤ (count + P - 1) / P := chunkCount_le_ceil (by omega) i
  have hs := h.short
  omega

theorem Ready.chunk_off (r : Fin P) {i : ℕ} (hi : i < P) :
    szMul (chunkOffset count P i) 4 = chunkOffset count P i * 4 := (h.alike r).chunk_off hi

theorem Ready.chunk_len (hP : 2 ≤ P) (i : ℕ) :
    szMul (chunkCount count P i) 4 % 2 ^ 32 = chunkCount count P i * 4 :=
  szMul_mod_of_short (h.chunk_short hP i)

theorem ringRounds_matched (ops : Ops α) (call : ℕ) :
    ∀ G ∈ ringRounds (β := β) ops call a, G.Matched := by
  intro G hG
  obtain hP | hP : P ≤ 1 ∨ 2 ≤ P := by omega
  · simp [ringRounds, show P - 1 = 0 by omega] at hG
  refine (ringRounds_paired (h.alike ⟨0, by omega⟩) hP ops call G hG).matched fun r z hz => ?_
  have hexp : ∀ i, szMul (chunkCount count P i) 4 = szMul (chunkCount count P i) 4 % 2 ^ 32 := by
    intro i
    have hs := h.chunk_short hP i
    exact (szMul_eq_mod_iff (by omega)).mpr hs
  obtain ⟨s, he | he⟩ := ringRounds_recv hG hz
  · rw [he, h.count_eq]
    exact hexp _
  · rw [he, h.count_eq]
    exact hexp _

theorem ringAllgatherRound_sync (hP : 2 ≤ P) (call step : ℕ) (l : Fin P → Local α β) (r : Fin P)
    (b : Buf) (i : ℕ) : ((ringAllgatherRound call a step).sync l r).mem b i =
      if b = (a r).data ∧ InChunk count P (back P r step) i then
        (l (prev r)).mem (a (prev r)).data i
      else (l r).mem b i := by
  have hcount := h.count_eq r
  by_cases hc : 0 < chunkCount count P (back P r step)
  · have hrecv : (ringAllgatherRound (α := α) (β := β) call a step r).recv = some (prev r,
        ringAllgatherRecv (a r) ⟨call, P - 1 + step⟩ (chunkAt count P (back P r step))) := by
      simp only [ringAllgatherRound, ringXfer, hcount, chunkAt, if_pos hc]
    have hsend : (ringAllgatherRound (α := α) (β := β) call a step (prev r)).send = some (r,
        workRequest (a (prev r)).dataMr (a (prev r)).data
          (chunkOffset count P (back P r step) * 4)
          (szMul (chunkCount count P (back P r step)) 4) ⟨call, P - 1 + step⟩) := by
      simp only [ringAllgatherRound, ringXfer, h.count_eq, next_prev, chunkAt, if_pos hc,
        h.chunk_off r (back_lt r _)]
    rw [Round.sync_of_recv _ hrecv, Round.payload_of_send _ hsend]
    simp only [RecvPart.apply, ringAllgatherRecv, RecvPart.store, chunkAt,
      workRequest_move (h.chunk_len hP _)]
    simp only [h.chunk_off r (back_lt r _), Nat.mul_div_cancel _ (show 0 < 4 by omega),
      InChunk]
    refine ite_congr rfl (fun h1 => ?_) fun _ => rfl
    congr 1
    omega
  · have hrecv : (ringAllgatherRound (α := α) (β := β) call a step r).recv = none := by
      simp only [ringAllgatherRound, ringXfer, hcount, chunkAt, if_neg hc]
    rw [Round.sync_of_idle _ hrecv, if_neg]
    rintro ⟨-, h1, h2⟩
    omega

omit h in
/-- A fold that starts with the value of rank `c` and goes around the ring. -/
def ringFold (f : α → α → α) (x : Fin P → α) (c : Fin P) : ℕ → α
  | 0 => x c
  | j + 1 => f (x ⟨(c + (j + 1)) % P, Nat.mod_lt _ c.pos⟩) (ringFold f x c j)

omit h in
theorem ringFold_back (f : α → α → α) (x : Fin P → α) (r c : Fin P) {j : ℕ}
    (hj : back P r c = j + 1) : ringFold f x c (j + 1) = f (x r) (ringFold f x c j) := by
  have hr : (⟨(c + (j + 1)) % P, Nat.mod_lt _ c.pos⟩ : Fin P) = r :=
    Fin.ext (by rw [← hj]; exact add_back_mod r c)
  rw [ringFold, hr]

omit h in
theorem ringFold_syncAll {F : ℕ → Round P α β} {f : α → α → α} (c : Fin P) {i : ℕ}
    (hi : InChunk count P c i)
    (hF : ∀ t < P - 1, ∀ l r, ((F t).sync l r).mem (a r).data i =
      if InChunk count P (back P r (t + 1)) i then
        f ((l r).mem (a r).data i) ((l (prev r)).mem (a (prev r)).data i)
      else (l r).mem (a r).data i) (x : Fin P → Local α β) {t : ℕ} (ht : t ≤ P - 1) (r : Fin P) :
    (syncAll ((List.range t).map F) x r).mem (a r).data i =
      if back P r c ≤ t then ringFold f (fun q => (x q).mem (a q).data i) c (back P r c)
      else (x r).mem (a r).data i := by
  induction t generalizing r with
  | zero =>
    by_cases hrc : back P r c = 0
    · obtain rfl := back_eq_zero.mp hrc
      rw [if_pos hrc.le, hrc]
      rfl
    · rw [if_neg (by omega)]
      rfl
  | succ t ih =>
    rw [syncAll_range_succ, hF t (by omega), ih (by omega) r, ih (by omega) (prev r)]
    -- the chunk that is reduced now is `c`, or the step leaves `c` alone
    by_cases hc : t + 1 = back P r c
    · have hback : back P r (t + 1) = c := (back_eq_iff r c (by omega)).mpr hc
      have hprev : back P (prev r) c = t := by
        rw [back_prev_left, if_neg (by omega)]
        omega
      rw [hback, if_pos hi, if_neg (by omega), hprev, if_pos le_rfl, ← hc, if_pos le_rfl,
        ringFold_back _ _ r c hc.symm]
    · rw [if_neg]
      · exact if_congr (by omega) rfl rfl
      · intro hin
        exact hc ((back_eq_iff r c (by omega)).mp (hin.unique hi))

theorem reduceScatter_syncAll (hP : 2 ≤ P) (ops : Ops α) (call : ℕ) (x : Fin P → Local α β) {t : ℕ}
    (ht : t ≤ P - 1) (r c : Fin P) {i : ℕ} (hi : InChunk count P c i) :
    (syncAll ((List.range t).map (reduceScatterRound ops call a)) x r).mem (a r).data i =
      if back P r c ≤ t then
        ringFold (ops dtype op) (fun q => (x q).mem (a q).data i) c (back P r c)
      else (x r).mem (a r).data i := by
  refine ringFold_syncAll c hi (fun t ht l q => ?_) x ht r
  rw [reduceScatterRound_sync (h.alike q) ops call ht l q (h.chunk_short hP _) (h.apart q)]
  exact if_congr (and_iff_right rfl) rfl rfl

theorem ringAllgather_syncAll (hP : 2 ≤ P) (call : ℕ) (x : Fin P → Local α β) (c : Fin P) {i : ℕ}
    (hi : InChunk count P c i) {y : α}
    (hx : ∀ r : Fin P, back P r c = P - 1 → (x r).mem (a r).data i = y) {t : ℕ} (ht : t ≤ P - 1)
    (r : Fin P) (hr : back P r c = P - 1 ∨ back P r c < t) :
    (syncAll ((List.range t).map (ringAllgatherRound call a)) x r).mem (a r).data i = y := by
  induction t generalizing r with
  | zero => exact hx r (by omega)
  | succ t ih =>
    rw [syncAll_range_succ, ringAllgatherRound_sync h hP]
    by_cases hc : t = back P r c
    -- the chunk comes in from a rank that has had it for a step
    · have hback : back P r t = c := (back_eq_iff r c (by omega)).mpr hc
      rw [hback, if_pos ⟨rfl, hi⟩]
      apply ih (by omega) (prev r)
      rw [back_prev_left]
      split_ifs <;> omega
    · rw [if_neg, ih (by omega) r (by omega)]
      rintro ⟨-, hin⟩
      exact hc ((back_eq_iff r c (by omega)).mp (hin.unique hi))

theorem ringRounds_data (ops : Ops α) (call : ℕ) (x : Fin P → Local α β) (r c : Fin P) {i : ℕ}
    (hi : InChunk count P c i) : (syncAll (ringRounds ops call a) x r).mem (a r).data i =
      ringFold (ops dtype op) (fun q => (x q).mem (a q).data i) c (P - 1) := by
  obtain hP | hP : P = 1 ∨ 2 ≤ P := by have := r.isLt; omega
  · subst hP
    rw [Subsingleton.elim r c]
    rfl
  · rw [ringRounds, syncAll_append]
    refine ringAllgather_syncAll h hP call _ c hi (fun q hq => ?_) le_rfl r ?_
    · rw [reduceScatter_syncAll h hP ops call x le_rfl q c hi, hq, if_pos le_rfl]
    · have := back_lt r c
      omega

theorem ringRounds_frame (ops : Ops α) (call : ℕ) (x : Fin P → Local α β) (r : Fin P) {b : Buf}
    {i : ℕ} (hb : b ≠ (a r).scratch) (hi : b = (a r).data → count ≤ i) :
    (syncAll (ringRounds ops call a) x r).mem b i = (x r).mem b i := by
  obtain hP | hP : P = 1 ∨ 2 ≤ P := by have := r.isLt; omega
  · subst hP
    rfl
  · have hout : ∀ s, ¬ (b = (a r).data ∧ InChunk count P (back P r s) i) := by
      rintro s ⟨hd, hin⟩
      have := hin.lt (back_lt r s)
      have := hi hd
      omega
    refine syncAll_frame (fun l => l.mem b i) (fun G hG l => ?_) x
    rcases List.mem_append.mp hG with hG | hG
    · obtain ⟨s, hs, rfl⟩ := List.mem_map.mp hG
      exact (reduceScatterRound_sync (h.alike r) ops call (List.mem_range.mp hs) l r
        (h.chunk_short hP _) hb i).trans (if_neg (hout _))
    · obtain ⟨s, hs, rfl⟩ := List.mem_map.mp hG
      exact (ringAllgatherRound_sync h hP call s l r b i).trans (if_neg (hout _))

theorem ringRounds_avoids (ops : Ops α) (call : ℕ) (r : Fin P) :
    Avoids (fun b i => b = (a r).data ∧ count ≤ i)
      (roundsProc (ringRounds (β := β) ops call a) r) := by
  obtain hP | hP : P = 1 ∨ 2 ≤ P := by have := r.isLt; omega
  · subst hP
    trivial
  have hcount := h.count_eq r
  refine roundsProc_all (fun G hG z hz => ?_) (fun G hG z hz f hf => ?_)
  · -- the requests: scratch in phase 1, a chunk of the data in phase 2
    obtain ⟨s, he | he⟩ := ringRounds_recv hG hz
    · rw [he]
      exact fun i _ _ hw => h.apart r hw.1.symm
    · rintro i - hi ⟨-, hw⟩
      have hend : chunkOffset count P (back P r s) + chunkCount count P (back P r s) ≤ count :=
        chunk_end_le (back_lt r s)
      simp only [he, ringAllgatherRecv, workRequest, chunkAt, hcount, h.chunk_off r (back_lt r _),
        h.chunk_len hP, Nat.mul_div_cancel _ (show 0 < 4 by omega)] at hi
      omega
  · -- the updates: only phase 1 reduces
    obtain ⟨s, he | he⟩ := ringRounds_recv hG hz
    · rw [he] at hf
      obtain rfl := Option.some.inj hf
      rintro l b i ⟨rfl, hw⟩
      have hend : chunkOffset count P (back P r (s + 1)) + chunkCount count P (back P r (s + 1)) ≤
        count := chunk_end_le (back_lt r (s + 1))
      simp only [AllreduceArgs.reduce, reduceInplace_apply ops (h.apart r), chunkAt, hcount,
        h.chunk_off r (back_lt r _), Nat.mul_div_cancel _ (show 0 < 4 by omega)]
      rw [if_neg]
      rintro ⟨-, -, hlt⟩
      omega
    · simp [he, ringAllgatherRecv] at hf

theorem Ready.allreduceRing_eq (ops : Ops α) (call : ℕ) (r : Fin P) :
    allreduceRing ops r call (a r) = roundsProc (ringRounds (β := β) ops call a) r := by
  refine MicroCcl.allreduceRing_eq ops call a r ?_ (h.size r) ?_
  · rw [h.count_eq]
    exact h.fits r
  · rw [h.count_eq]
    exact h.scratch r

end Agree

theorem ringRounds_vars (ops : Ops α) (call : ℕ) (a : Fin P → AllreduceArgs)
    (x : Fin P → Local α β) (r : Fin P) :
    (syncAll (ringRounds ops call a) x r).vars = (x r).vars := by
  refine syncAll_frame Local.vars (fun G hG l => Round.sync_vars G ?_ l) x
  intro z hz f hf m
  obtain ⟨s, he | he⟩ := ringRounds_recv hG hz
  · rw [he] at hf
    obtain rfl := Option.some.inj hf
    rfl
  · simp [he, ringAllgatherRecv] at hf

variable {a : Fin P → AllreduceArgs} {count : ℕ} {dtype : Dtype} {op : ReduceOp}

theorem allreduceRing_leads {cap : Fin P → Fin P → ℕ}
    (h : Ready a count dtype op ((count + P - 1) / P)) (ops : Ops α) (call : ℕ) {A : Type}
    (k : Fin P → Proc P α β A) (x : Fin P → Local α β) :
    Leads cap (fun r => allreduceRing ops r call (a r) >>= fun _ => k r) x k
      (syncAll (ringRounds ops call a) x) := by
  simp only [h.allreduceRing_eq]
  exact rounds_leads (ringRounds_matched h ops call) k x

theorem allreduceRing_disciplined (h : Ready a count dtype op ((count + P - 1) / P)) (ops : Ops α)
    (call : ℕ) (r : Fin P) :
    Disciplined none none (allreduceRing (β := β) ops r call (a r)) := by
  rw [h.allreduceRing_eq]
  exact rounds_disciplined (fun G hG => (ringRounds_matched h ops call G hG).apart) r

section Runs

variable (cap : Fin P → Fin P → ℕ) (ops : Ops α) (call : ℕ)
  (h : Ready a count dtype op ((count + P - 1) / P)) (x : Fin P → Local α β)
  {s : Fin P → RankState P α β Unit}
  (hs : Reaches (fabric P α β Unit cap) (start (fun r => allreduceRing ops r call (a r)) x) s)
include h

theorem allreduceRing_returns : Leads cap (fun r => allreduceRing ops r call (a r)) x
    (fun _ => .pure ()) (syncAll (ringRounds ops call a) x) := by
  simpa only [Proc.bind_unit] using allreduceRing_leads h ops call (fun _ => .pure ()) x

include hs

theorem allreduceRing_settles :
    ∃ e, Reaches (fabric P α β Unit cap) s e ∧ ∀ r, (e r).proc = .pure () := by
  obtain ⟨e, he, hq⟩ := (allreduceRing_returns cap ops call h x).settles
    (fun r => allreduceRing_disciplined h ops call r) hs
  exact ⟨e, he, fun r => (hq r).proc⟩

theorem allreduceRing_value {r : Fin P} (hr : (s r).proc = .pure ()) (c : Fin P) {i : ℕ}
    (hi : InChunk count P c i) : (s r).loc.mem (a r).data i =
      ringFold (ops dtype op) (fun q => (x q).mem (a q).data i) c (P - 1) := by
  have hres := (allreduceRing_returns cap ops call h x).result
    (fun r => allreduceRing_disciplined h ops call r) hs hr
  rw [hres.2, ringRounds_data h ops call x r c hi]

theorem allreduceRing_beyond (r : Fin P) {i : ℕ} (hi : count ≤ i) :
    (s r).loc.mem (a r).data i = (x r).mem (a r).data i := by
  -- not about the end of a run: the code never writes there
  have hav := ringRounds_avoids (β := β) h ops call r
  rw [← h.allreduceRing_eq] at hav
  exact Avoids.mem_eq (p := fun r => allreduceRing ops r call (a r)) hav hs ⟨rfl, hi⟩

end Runs

/-- In every run of `allreduce_ring` no rank throws, what lies beyond `count` is never
touched, and a rank that has returned holds the fold of every chunk, the same on all
ranks. From every reachable state all ranks can still return. -/
theorem allreduceRing_correct (cap : Fin P → Fin P → ℕ) (hP : 2 ≤ P) (ops : Ops α) (call : ℕ)
    (h : Ready a count dtype op ((count + P - 1) / P)) {chunks : List ChunkRange}
    (hchunks : computeChunks count P = .ok chunks) (x : Fin P → Local α β)
    {s : Fin P → RankState P α β Unit}
    (hs : Reaches (fabric P α β Unit cap) (start (fun r => allreduceRing ops r call (a r)) x) s) :
    (∀ r, (s r).proc = .pure () → ∀ c : Fin P, ∀ i,
      (chunks.getD c default).offset ≤ i →
      i < (chunks.getD c default).offset + (chunks.getD c default).count →
      (s r).loc.mem (a r).data i =
        ringFold (ops dtype op) (fun q => (x q).mem (a q).data i) c (P - 1)) ∧
    (∀ r q, (s r).proc = .pure () → (s q).proc = .pure () → ∀ i < count,
      (s r).loc.mem (a r).data i = (s q).loc.mem (a q).data i) ∧
    (∀ r e, (s r).proc ≠ .throw e) ∧
    (∀ r i, count ≤ i → (s r).loc.mem (a r).data i = (x r).mem (a r).data i) ∧
    ∃ e, Reaches (fabric P α β Unit cap) s e ∧ ∀ r, (e r).proc = .pure () := by
  have hlt : count < 2 ^ 64 := by
    have h1 := h.fits ⟨0, by omega⟩
    have h2 := h.size ⟨0, by omega⟩
    omega
  obtain rfl : _ = chunks :=
    Except.ok.inj ((computeChunks_eq hlt (by omega)).symm.trans hchunks)
  have hval : ∀ {r : Fin P}, (s r).proc = .pure () → ∀ (c : Fin P) {i}, InChunk count P c i →
      (s r).loc.mem (a r).data i =
        ringFold (ops dtype op) (fun q => (x q).mem (a q).data i) c (P - 1) :=
    fun hr c _ hi => allreduceRing_value cap ops call h x hs hr c hi
  refine ⟨fun r hr c i h1 h2 => ?_, fun r q hr hq i hi => ?_,
    (allreduceRing_returns cap ops call h x).never_throws
      (fun r => allreduceRing_disciplined h ops call r) hs,
    fun r i hi => allreduceRing_beyond cap ops call h x hs r hi,
    allreduceRing_settles cap ops call h x hs⟩
  · have hc : ((List.range P).map (chunkAt count P)).getD c default = chunkAt count P c := by
      simp [List.getD_eq_getElem?_getD]
    rw [hc] at h1 h2
    exact hval hr c ⟨h1, h2⟩
  · obtain ⟨c, hc, hin⟩ := exists_inChunk hi (show 0 < P by omega)
    rw [hval hr ⟨c, hc⟩ hin, hval hq ⟨c, hc⟩ hin]

/-- Two ranks, three elements and an operation that is neither commutative nor associative. -/
theorem allreduceRing_correct_two_ranks :
    ∃ s, Reaches (fabric 2 ℕ Unit Unit fun _ _ => 1)
      (start (fun r => allreduceRing (fun _ _ u v => 2 * u + v) r 0
        ⟨⟨0, 12⟩, 0, 3, .int32, .sum, ⟨1, 8⟩, 1, 2⟩) fun r => ⟨fun _ i => 10 * r + i, ()⟩) s ∧
      ∀ r, (s r).proc = .pure () ∧ (s r).loc.mem 0 0 = 20 ∧ (s r).loc.mem 0 2 = 16 := by
  have hready : Ready (P := 2) (fun _ => ⟨⟨0, 12⟩, 0, 3, .int32, .sum, ⟨1, 8⟩, 1, 2⟩) 3 .int32 .sum
      ((3 + 2 - 1) / 2) := by
    constructor <;> decide
  have hall := fun s => allreduceRing_correct (s := s) (fun _ _ => 1) le_rfl
    (fun _ _ u v => 2 * u + v) 0 hready rfl fun r => ⟨fun _ i => 10 * r + i, ()⟩
  obtain ⟨s, hs, hret⟩ := (hall _ .refl).2.2.2.2
  refine ⟨s, hs, fun r => ⟨hret r, ?_, ?_⟩⟩
  · exact (hall s hs).1 r (hret r) 0 0 (by decide) (by decide)
  · exact (hall s hs).1 r (hret r) 1 2 (by decide) (by decide)

end MicroCcl

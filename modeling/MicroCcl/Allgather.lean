import MicroCcl.Frame
import MicroCcl.Chunking
import MicroCcl.ReduceOps
import MicroCcl.RingIndex

namespace MicroCcl
open Network

structure AllgatherArgs where
  mr : MemoryRegion
  buf : Buf
  sendCount : ℕ
  dtype : Dtype
  deriving DecidableEq, Repr

variable {P : ℕ} {α β : Type}

section Code

variable (R : Fin P) (call : ℕ) (a : AllgatherArgs)

def allgatherMismatch (expected got : ℕ) : Exn :=
  .runtimeError ("allgather: recv size mismatch, expected " ++ toString expected ++ " got " ++
    toString got ++ " -- ranks disagree on send_count")

/-- One turn of the loop over the steps. -/
def allgatherStep (segBytes step : ℕ) : Proc P α β Unit := do
  let sendTo := modP P (R.val + 1)
  let recvFrom := modP P (R.val - 1)
  let sendIdx := modP P (R.val - step)
  let recvIdx := modP P (R.val - step - 1)
  postRecv (← qp R recvFrom) a.mr a.buf (szMul recvIdx.toNat segBytes) segBytes 0 ⟨call, step⟩
  postSend (← qp R sendTo) a.mr a.buf (szMul sendIdx.toNat segBytes) segBytes 0 ⟨call, step⟩
  let _ ← waitCompletion .send
  let wc ← waitCompletion .recv
  if wc.byteLen ≠ segBytes then
    .throw (allgatherMismatch segBytes wc.byteLen)

def allgather : Proc P α β Unit := do
  let elemSize := dtypeSize a.dtype
  let totalBytes := szMul (szMul P a.sendCount) elemSize
  if totalBytes > a.mr.length then
    .throw (.runtimeError "allgather: world_size * send_count exceeds registered buffer length")
  else if P = 1 then
    .pure ()
  else
    let segBytes := szMul a.sendCount elemSize
    (List.range (P - 1)).forM (allgatherStep R call a segBytes)

end Code

def allgatherRound (call : ℕ) (a : Fin P → AllgatherArgs) (step : ℕ) : Round P α β := fun r =>
  let segBytes := szMul (a r).sendCount 4
  { recv := some (prev r,
      { wr := workRequest (a r).mr (a r).buf (szMul (back P r (step + 1)) segBytes) segBytes
          ⟨call, step⟩
        expected := segBytes
        mismatch := allgatherMismatch segBytes
        reduce := none })
    send := some (next r,
      workRequest (a r).mr (a r).buf (szMul (back P r step) segBytes) segBytes ⟨call, step⟩) }

def allgatherRounds (call : ℕ) (a : Fin P → AllgatherArgs) : List (Round P α β) :=
  (List.range (P - 1)).map (allgatherRound call a)

theorem allgatherStep_eq (hP : 2 ≤ P) (call : ℕ) (a : Fin P → AllgatherArgs) (r : Fin P)
    {step : ℕ} (hs : step < P - 1) :
    allgatherStep r call (a r) (szMul (a r).sendCount 4) step =
      (allgatherRound (α := α) (β := β) call a step r).proc := by
  have hsend := modP_sub r (s := step) (by omega)
  have hrecv := modP_sub_sub_one r (s := step) (by omega)
  unfold allgatherStep allgatherRound Xfer.proc
  simp [hsend, hrecv, modP_succ, modP_pred, qp_eq (next_ne hP r), qp_eq (prev_ne hP r),
    Xfer.postRecv, Xfer.postSend, Xfer.waitSend, Xfer.waitRecv, postRecv, postSend,
    RecvPart.finish_def, workRequest]

/-- The guard of `allgather`; both products are products of `size_t`. -/
def AllgatherGuard (P : ℕ) (a : AllgatherArgs) : Prop :=
  szMul (szMul P a.sendCount) 4 ≤ a.mr.length

/-- What `allgather` does on a rank where its guard passes. -/
theorem allgather_of_guard (call : ℕ) (a : Fin P → AllgatherArgs) (r : Fin P)
    (h : AllgatherGuard P (a r)) :
    allgather r call (a r) = roundsProc (allgatherRounds (α := α) (β := β) call a) r := by
  unfold allgather
  simp only [dtypeSize_eq, if_neg (not_lt.mpr h)]
  obtain hP | hP : P = 1 ∨ 2 ≤ P := by have := r.isLt; omega
  · subst hP
    rfl
  · rw [if_neg (by omega)]
    exact forM_eq_roundsProc fun s hs => allgatherStep_eq hP call a r (List.mem_range.mp hs)

theorem allgather_refuses (R : Fin P) (call : ℕ) (a : AllgatherArgs) (h : ¬ AllgatherGuard P a) :
    ∃ e, allgather (α := α) (β := β) R call a = .throw e := by
  unfold allgather
  simp only [dtypeSize_eq, if_pos (not_le.mp h)]
  exact ⟨_, rfl⟩

theorem allgather_eq (call : ℕ) (a : Fin P → AllgatherArgs) (r : Fin P)
    (hfit : P * (a r).sendCount * 4 ≤ (a r).mr.length) :
    allgather r call (a r) = roundsProc (allgatherRounds (α := α) (β := β) call a) r := by
  apply allgather_of_guard
  exact (Nat.mod_le _ _).trans ((Nat.mul_le_mul_right 4 (Nat.mod_le _ _)).trans hfit)

structure AllgatherReady (a : Fin P → AllgatherArgs) (sendCount : ℕ) : Prop where
  count_eq : ∀ r, (a r).sendCount = sendCount
  fits : ∀ r, P * sendCount * 4 ≤ (a r).mr.length
  size : ∀ r, (a r).mr.length < 2 ^ 64
  short : P = 1 ∨ sendCount * 4 < 2 ^ 32

section Agree

variable {a : Fin P → AllgatherArgs} {n : ℕ}

theorem segment_chunk (hP : 0 < P) (c : ℕ) :
    chunkOffset (P * n) P c = c * n ∧ chunkCount (P * n) P c = n := by
  simp [chunkOffset, chunkCount, Nat.mul_div_cancel_left n hP]

variable (h : AllgatherReady a n) (hP : 2 ≤ P)
include h hP

theorem AllgatherReady.seg_len : szMul n 4 % 2 ^ 32 = n * 4 ∧ szMul n 4 = n * 4 := by
  have hs := h.short.resolve_left (by omega)
  rw [szMul, Nat.mod_eq_of_lt (show n * 4 < 2 ^ 64 by omega), Nat.mod_eq_of_lt hs]
  exact ⟨rfl, rfl⟩

theorem AllgatherReady.seg_off {c : ℕ} (hc : c < P) :
    szMul c (szMul n 4) = chunkOffset (P * n) P c * 4 := by
  have h1 : c * n ≤ P * n := Nat.mul_le_mul_right n hc.le
  have h2 := h.fits ⟨0, by omega⟩
  have h3 := h.size ⟨0, by omega⟩
  rw [(h.seg_len hP).2, (segment_chunk (by omega) c).1, szMul, ← Nat.mul_assoc]
  exact Nat.mod_eq_of_lt (by omega)

theorem allgatherRound_matched (call : ℕ) {step : ℕ} (hs : step < P - 1) :
    (allgatherRound (α := α) (β := β) call a step).Matched where
  apart := by
    intro r y hy z hz
    obtain rfl := Option.some.inj hy
    obtain rfl := Option.some.inj hz
    have hne : back P r step ≠ back P r (step + 1) := by
      have hr := r.isLt
      simp only [back]
      split_ifs <;> omega
    obtain ⟨h1, -⟩ := h.seg_len hP
    have hd := chunk_disjoint (P * n) P hne
    rw [(segment_chunk (by omega) _).2, (segment_chunk (by omega) _).2] at hd
    simp only [Wr.Apart, workRequest, h.count_eq, h.seg_off hP (back_lt r _), h1,
      Nat.mul_div_cancel _ (show 0 < 4 by omega)]
    exact Or.inr hd
  send_recv := by
    intro i j wr hsend
    obtain ⟨rfl, rfl⟩ := Prod.mk.inj (Option.some.inj hsend)
    obtain ⟨h1, h2⟩ := h.seg_len hP
    refine ⟨next_ne hP i, _, by rw [allgatherRound, prev_next], ?_, ?_, rfl⟩
    · simp only [workRequest, h.count_eq]
    · simp only [workRequest, h.count_eq]
      rw [h1, h2]
  recv_send := by
    intro i j v hrecv
    obtain ⟨rfl, rfl⟩ := Prod.mk.inj (Option.some.inj hrecv)
    exact ⟨_, by rw [allgatherRound, next_prev]⟩

theorem allgatherRound_sync (call : ℕ) {step : ℕ} (hs : step < P - 1) (l : Fin P → Local α β)
    (r : Fin P) (b : Buf) (i : ℕ) :
    ((allgatherRound call a step).sync l r).mem b i =
      if b = (a r).buf ∧ InChunk (P * n) P (back P r (step + 1)) i then
        (l (prev r)).mem (a (prev r)).buf i
      else (l r).mem b i := by
  rw [Round.sync_of_recv _ rfl, Round.payload_of_send _ rfl]
  simp only [RecvPart.apply, RecvPart.store, h.count_eq, workRequest_move (h.seg_len hP).1,
    back_prev r (show step + 1 ≤ P by omega), h.seg_off hP (back_lt r _), InChunk,
    Nat.mul_div_cancel _ (show 0 < 4 by omega), (segment_chunk (show 0 < P by omega) _).2]
  refine ite_congr rfl (fun h1 => ?_) fun _ => rfl
  congr 1
  omega

/-- After `t` steps a rank holds the segments of the `t` ranks before it. -/
theorem allgather_syncAll (call : ℕ) (x : Fin P → Local α β) {t : ℕ} (ht : t ≤ P - 1)
    (r c : Fin P) {i : ℕ} (hi : InChunk (P * n) P c i) (hr : back P r c ≤ t) :
    (syncAll ((List.range t).map (allgatherRound call a)) x r).mem (a r).buf i =
      (x c).mem (a c).buf i := by
  induction t generalizing r with
  | zero =>
    obtain rfl := back_eq_zero.mp (Nat.le_zero.mp hr)
    rfl
  | succ t ih =>
    rw [syncAll_range_succ, allgatherRound_sync h hP call (by omega)]
    -- the segment that comes in now is `c`, or `c` is not touched
    by_cases hc : t + 1 = back P r c
    · have hback : back P r (t + 1) = c := (back_eq_iff r c (by omega)).mpr hc
      rw [hback, if_pos ⟨rfl, hi⟩]
      apply ih (by omega) (prev r)
      rw [back_prev_left]
      split_ifs <;> omega
    · rw [if_neg, ih (by omega) r (by omega)]
      rintro ⟨-, hin⟩
      exact hc ((back_eq_iff r c (by omega)).mp (hin.unique hi))

end Agree

section Agree

variable {a : Fin P → AllgatherArgs} {n : ℕ} (h : AllgatherReady a n)
include h

theorem allgatherRounds_data (call : ℕ) (x : Fin P → Local α β) (r s : Fin P) {j : ℕ}
    (hj : j < n) : (syncAll (allgatherRounds call a) x r).mem (a r).buf (s * n + j) =
      (x s).mem (a s).buf (s * n + j) := by
  obtain hP | hP : P = 1 ∨ 2 ≤ P := by have := r.isLt; omega
  · subst hP
    rw [Subsingleton.elim r s]
    rfl
  · obtain ⟨h1, h2⟩ := segment_chunk (n := n) (show 0 < P by omega) s
    have hi : InChunk (P * n) P s (s * n + j) := by
      rw [InChunk, h1, h2]
      omega
    have := back_lt r s
    exact allgather_syncAll h hP call x le_rfl r s hi (by omega)

theorem allgatherRounds_frame (call : ℕ) (x : Fin P → Local α β) (r : Fin P) {b : Buf} {i : ℕ}
    (hi : b = (a r).buf → P * n ≤ i) :
    (syncAll (allgatherRounds call a) x r).mem b i = (x r).mem b i := by
  obtain hP | hP : P = 1 ∨ 2 ≤ P := by have := r.isLt; omega
  · subst hP
    rfl
  · refine syncAll_frame (fun l => l.mem b i) (fun G hG l => ?_) x
    obtain ⟨s, hs, rfl⟩ := List.mem_map.mp hG
    refine (allgatherRound_sync h hP call (List.mem_range.mp hs) l r b i).trans (if_neg ?_)
    rintro ⟨hb, hin⟩
    exact absurd (hi hb) (not_le.mpr (hin.lt (back_lt r _)))

theorem allgatherRounds_matched (call : ℕ) :
    ∀ G ∈ allgatherRounds (α := α) (β := β) call a, G.Matched := by
  intro G hG
  obtain hP | hP : P ≤ 1 ∨ 2 ≤ P := by omega
  · simp [allgatherRounds, show P - 1 = 0 by omega] at hG
  · obtain ⟨s, hs, rfl⟩ := List.mem_map.mp hG
    exact allgatherRound_matched h hP call (List.mem_range.mp hs)

theorem AllgatherReady.allgather_eq (call : ℕ) (r : Fin P) :
    allgather r call (a r) = roundsProc (allgatherRounds (α := α) (β := β) call a) r := by
  apply MicroCcl.allgather_eq call a r
  rw [h.count_eq]
  exact h.fits r

end Agree

theorem allgatherRounds_vars (call : ℕ) (a : Fin P → AllgatherArgs) (x : Fin P → Local α β)
    (r : Fin P) : (syncAll (allgatherRounds call a) x r).vars = (x r).vars := by
  refine syncAll_frame Local.vars (fun G hG l => Round.sync_vars G ?_ l) x
  intro z hz f hf l
  obtain ⟨s, -, rfl⟩ := List.mem_map.mp hG
  obtain rfl := Option.some.inj hz
  simp at hf

section Runs

variable {a : Fin P → AllgatherArgs} {n : ℕ} (h : AllgatherReady a n) (cap : Fin P → Fin P → ℕ)
  (call : ℕ) (x : Fin P → Local α β)
include h

/-- No receive goes into the rank's own segment or behind the last one. -/
theorem allgatherRounds_avoids (r : Fin P) :
    Avoids (fun b i => b = (a r).buf ∧ (InChunk (P * n) P r i ∨ P * n ≤ i))
      (roundsProc (allgatherRounds (α := α) (β := β) call a) r) := by
  obtain hP | hP : P = 1 ∨ 2 ≤ P := by have := r.isLt; omega
  · subst hP
    trivial
  refine roundsProc_all (fun G hG z hz => ?_) (fun G hG z hz f hf => ?_)
  · obtain ⟨s, hs, rfl⟩ := List.mem_map.mp hG
    obtain rfl := Option.some.inj hz
    have hs := List.mem_range.mp hs
    intro i h1 h2 hw
    have hin : InChunk (P * n) P (back P r (s + 1)) i := by
      simp only [workRequest, h.count_eq, h.seg_off hP (back_lt r _), (h.seg_len hP).1,
        Nat.mul_div_cancel _ (show 0 < 4 by omega)] at h1 h2
      rw [InChunk, (segment_chunk (by omega) _).2]
      exact ⟨h1, h2⟩
    rcases hw.2 with hown | hbeyond
    · -- the segment that comes in is that of another rank
      have hself := (back_eq_iff r r (show s + 1 < P by omega)).mp (hin.unique hown)
      rw [back_eq_zero.mpr rfl] at hself
      omega
    · exact absurd hbeyond (not_le.mpr (hin.lt (back_lt r _)))
  · obtain ⟨s, -, rfl⟩ := List.mem_map.mp hG
    obtain rfl := Option.some.inj hz
    simp at hf

theorem allgather_returns : Leads cap (fun r => allgather r call (a r)) x (fun _ => .pure ())
    (syncAll (allgatherRounds call a) x) := by
  simp only [h.allgather_eq]
  simpa only [Proc.bind_unit] using
    rounds_leads (allgatherRounds_matched h call) (fun _ => .pure ()) x

omit x in
theorem allgather_disciplined (r : Fin P) :
    Disciplined none none (allgather (α := α) (β := β) r call (a r)) := by
  rw [h.allgather_eq]
  exact rounds_disciplined (fun G hG => (allgatherRounds_matched h call G hG).apart) r

theorem allgather_settles {s : Fin P → RankState P α β Unit}
    (hs : Reaches (fabric P α β Unit cap) (start (fun r => allgather r call (a r)) x) s) :
    ∃ e, Reaches (fabric P α β Unit cap) s e ∧ ∀ r, (e r).proc = .pure () := by
  obtain ⟨e, he, hq⟩ := (allgather_returns h cap call x).settles
    (fun r => allgather_disciplined h call r) hs
  exact ⟨e, he, fun r => (hq r).proc⟩

end Runs

/-- In every run of `allgather` no rank throws, its own segment and what lies beyond the last
segment are never touched, and a rank that has returned holds the segments of all ranks. From every
reachable state all ranks can still return. -/
theorem allgather_correct (cap : Fin P → Fin P → ℕ) (call : ℕ) {a : Fin P → AllgatherArgs} {n : ℕ}
    (h : AllgatherReady a n) (x : Fin P → Local α β) {s : Fin P → RankState P α β Unit}
    (hs : Reaches (fabric P α β Unit cap) (start (fun r => allgather r call (a r)) x) s) :
    (∀ r, (s r).proc = .pure () → ∀ q : Fin P, ∀ j < n,
      (s r).loc.mem (a r).buf (q * n + j) = (x q).mem (a q).buf (q * n + j)) ∧
    (∀ r, ∀ j < n, (s r).loc.mem (a r).buf (r * n + j) = (x r).mem (a r).buf (r * n + j)) ∧
    (∀ r i, P * n ≤ i → (s r).loc.mem (a r).buf i = (x r).mem (a r).buf i) ∧
    (∀ r e, (s r).proc ≠ .throw e) ∧
    ∃ e, Reaches (fabric P α β Unit cap) s e ∧ ∀ r, (e r).proc = .pure () := by
  have hd := fun r => allgather_disciplined (α := α) (β := β) h call r
  have hav : ∀ (r : Fin P) i, InChunk (P * n) P r i ∨ P * n ≤ i →
      (s r).loc.mem (a r).buf i = (x r).mem (a r).buf i := by
    intro r i hi
    have hround := allgatherRounds_avoids (α := α) (β := β) h call r
    rw [← h.allgather_eq] at hround
    exact Avoids.mem_eq (p := fun r => allgather r call (a r)) hround hs ⟨rfl, hi⟩
  refine ⟨fun r hr q j hj => ?_, fun r j hj => hav r _ (Or.inl ?_),
    fun r i hi => hav r i (Or.inr hi), (allgather_returns h cap call x).never_throws hd hs,
    allgather_settles h cap call x hs⟩
  · rw [((allgather_returns h cap call x).result hd hs hr).2]
    exact allgatherRounds_data h call x r q hj
  · obtain ⟨h1, h2⟩ := segment_chunk (n := n) r.pos r
    rw [InChunk, h1, h2]
    omega

/-- Three ranks with two elements each. -/
theorem allgather_correct_three_ranks :
    ∃ s, Reaches (fabric 3 ℕ Unit Unit fun _ _ => 1)
      (start (fun r => allgather r 0 ⟨⟨0, 28⟩, 0, 2, .int32⟩)
        fun r => ⟨fun _ i => 10 * r + i, ()⟩) s ∧
      ∀ r, (s r).proc = .pure () ∧ (s r).loc.mem 0 1 = 1 ∧ (s r).loc.mem 0 4 = 24 := by
  have hready : AllgatherReady (P := 3) (fun _ => ⟨⟨0, 28⟩, 0, 2, .int32⟩) 2 := by
    constructor <;> decide
  have hall := fun s => allgather_correct (s := s) (fun _ _ => 1) 0 hready
    fun r => ⟨fun _ i => 10 * r + i, ()⟩
  obtain ⟨s, hs, hret⟩ := (hall _ .refl).2.2.2.2
  refine ⟨s, hs, fun r => ⟨hret r, ?_, ?_⟩⟩
  · exact (hall s hs).1 r (hret r) 0 1 (by decide)
  · exact (hall s hs).1 r (hret r) 2 0 (by decide)

end MicroCcl

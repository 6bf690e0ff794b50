import MicroCcl.History
import MicroCcl.Programs

namespace MicroCcl
open Network

variable {P : ℕ} {α β : Type}

/-- `Ready` without a bound on the messages. -/
structure Agreed (a : Fin P → AllreduceArgs) (count : ℕ) (dtype : Dtype) (op : ReduceOp)
    (largest : ℕ) : Prop where
  count_eq : ∀ r, (a r).count = count
  dtype_eq : ∀ r, (a r).dtype = dtype
  op_eq : ∀ r, (a r).op = op
  fits : ∀ r, count * 4 ≤ (a r).dataMr.length
  size : ∀ r, (a r).dataMr.length < 2 ^ 64
  apart : ∀ r, (a r).data ≠ (a r).scratch
  scratch : ∀ r, largest ≤ (a r).scratchCapacityElems

theorem Agreed.ready {a : Fin P → AllreduceArgs} {count : ℕ} {dtype : Dtype} {op : ReduceOp}
    {largest : ℕ} (h : Agreed a count dtype op largest) (hshort : largest * 4 < 2 ^ 32) :
    Ready a count dtype op largest :=
  { h with scratch := fun r => Or.inr (h.scratch r), short := Or.inr hshort }

theorem Agreed.bytes_lt {a : Fin P → AllreduceArgs} {count : ℕ} {dtype : Dtype} {op : ReduceOp}
    {largest : ℕ} (h : Agreed a count dtype op largest) (r : Fin P) : count * 4 < 2 ^ 64 :=
  (h.fits r).trans_lt (h.size r)

structure AllgatherAgreed (a : Fin P → AllgatherArgs) (sendCount : ℕ) : Prop where
  count_eq : ∀ r, (a r).sendCount = sendCount
  fits : ∀ r, P * sendCount * 4 ≤ (a r).mr.length
  size : ∀ r, (a r).mr.length < 2 ^ 64

structure BroadcastAgreed (a : Fin P → BroadcastArgs) (count : ℕ) : Prop where
  count_eq : ∀ r, (a r).count = count
  fits : ∀ r, count * 4 ≤ (a r).mr.length
  size : ∀ r, (a r).mr.length < 2 ^ 64

/-- The ranks agree on the arguments and the exact sizes fit their regions. -/
def Call.Agreed : Call P → Prop
  | .allreduceRing a => ∃ count dtype op, MicroCcl.Agreed a count dtype op ((count + P - 1) / P)
  | .allreduceRecursiveDoubling a => ∃ count dtype op, MicroCcl.Agreed a count dtype op count
  | .allgather a => ∃ sendCount, AllgatherAgreed a sendCount
  | .broadcast a _ => ∃ count, BroadcastAgreed a count
  | .barrier => True

/-- The exact number of bytes of some message of the call. -/
def Call.Message : Call P → ℕ → Prop
  | .allreduceRing a, n => ∃ r, ∃ i < P, n = chunkCount (a r).count P i * 4
  | .allreduceRecursiveDoubling a, n => ∃ r, n = (a r).count * 4
  | .allgather a, n => ∃ r, n = (a r).sendCount * 4
  | .broadcast a _, n => ∃ r, n = (a r).count * 4
  | .barrier, _ => False

/-- The rank takes part as a receiver: all but the root of a broadcast do. -/
def Call.Receiver (r : Fin P) : Call P → Prop
  | .broadcast _ root => root ≠ r.val
  | _ => True

section Short

variable {cap : Fin P → Fin P → ℕ} {l : Fin P → Local α β} {s : Fin P → RankState P α β Unit}
  {r : Fin P}

theorem expected_lt_of_returned {p : Fin P → Proc P α β Unit} {Gs : List (Round P α β)}
    (hp : ∀ q, p q = roundsProc Gs q)
    (hsend : ∀ q, ∀ G ∈ Gs, ∀ y ∈ (G q).send, y.2.length < 2 ^ 32)
    (hs : Reaches (fabric P α β Unit cap) (start p l) s) (hr : (s r).proc = .pure ())
    {G : Round P α β} (hG : G ∈ Gs) {z : Fin P × RecvPart α β} (hz : z ∈ (G r).recv) :
    z.2.expected < 2 ^ 32 := by
  rw [funext hp] at hs
  obtain ⟨wr, hwr, he⟩ := expected_of_returned (S := fun wr => wr.length < 2 ^ 32) hsend hs hr hG hz
  rwa [he]

theorem workRequest_length_lt (mr : MemoryRegion) (buf : Buf) (off len : ℕ) (tag : Tag) :
    (workRequest mr buf off len tag).length < 2 ^ 32 := Nat.mod_lt _ (Nat.two_pow_pos 32)

section Ring

variable {ops : Ops α} {call : ℕ} {a : Fin P → AllreduceArgs} {count : ℕ} {dtype : Dtype}
  {op : ReduceOp}

theorem ringRounds_send_lt (q : Fin P) : ∀ G ∈ ringRounds (β := β) ops call a,
    ∀ y ∈ (G q).send, y.2.length < 2 ^ 32 := by
  intro G hG y hy
  rcases List.mem_append.mp hG with hG | hG <;>
  · obtain ⟨step, -, rfl⟩ := List.mem_map.mp hG
    simp only [reduceScatterRound, ringAllgatherRound, ringXfer, Option.mem_def] at hy
    split_ifs at hy
    obtain rfl := Option.some.inj hy
    exact workRequest_length_lt _ _ _ _ _

variable (ops call a) in
/-- Every rank receives every chunk that is not empty. -/
theorem ringRounds_recv_chunk (hP : 2 ≤ P) (r c : Fin P) (hc : 0 < chunkCount (a r).count P c) :
    ∃ G ∈ ringRounds (β := β) ops call a, ∃ z ∈ (G r).recv,
      z.2.expected = szMul (chunkCount (a r).count P c) 4 := by
  by_cases hrc : r = c
  · -- its own chunk comes back in the first step of phase 2
    refine ⟨ringAllgatherRound call a 0, List.mem_append_right _ ?_, (prev r,
      ringAllgatherRecv (a r) ⟨call, P - 1 + 0⟩ (chunkAt (a r).count P c)), ?_, rfl⟩
    · exact List.mem_map.mpr ⟨0, List.mem_range.mpr (by omega), rfl⟩
    · have hback : back P r 0 = c := (back_eq_iff r c (by omega)).mpr (back_eq_zero.mpr hrc).symm
      simp only [ringAllgatherRound, ringXfer, hback, chunkAt, Option.mem_def, if_pos hc]
  · have hlt := back_lt r c
    have hpos : 0 < back P r c := Nat.pos_of_ne_zero (fun h => hrc (back_eq_zero.mp h))
    have hback : back P r (back P r c - 1 + 1) = c :=
      (back_eq_iff r c (by omega)).mpr (by omega)
    refine ⟨reduceScatterRound ops call a (back P r c - 1), List.mem_append_left _ ?_, (prev r,
      reduceScatterRecv ops (a r) ⟨call, back P r c - 1⟩ (chunkAt (a r).count P c)), ?_, rfl⟩
    · exact List.mem_map.mpr ⟨_, List.mem_range.mpr (by omega), rfl⟩
    · simp only [reduceScatterRound, ringXfer, hback, chunkAt, Option.mem_def, if_pos hc]

theorem allreduceRing_short (hP : 2 ≤ P) (h : Agreed a count dtype op ((count + P - 1) / P))
    (hs : Reaches (fabric P α β Unit cap) (start (fun r => allreduceRing ops r call (a r)) l) s)
    (hr : (s r).proc = .pure ()) : (count + P - 1) / P * 4 < 2 ^ 32 := by
  have hp : ∀ q, allreduceRing ops q call (a q) =
      roundsProc (ringRounds (β := β) ops call a) q := by
    intro q
    apply allreduceRing_eq ops call a q _ (h.size q) (Or.inr _)
    · rw [h.count_eq]
      exact h.fits q
    · rw [h.count_eq]
      exact h.scratch q
  rw [← chunkCount_zero (show 0 < P by omega)]
  rcases Nat.eq_zero_or_pos (chunkCount count P 0) with h0 | hpos
  · omega
  · obtain ⟨G, hG, z, hz, hexp⟩ := ringRounds_recv_chunk (β := β) ops call a hP r
      ⟨0, by omega⟩ (by rwa [h.count_eq])
    have hlt : szMul (chunkCount count P 0) 4 < 2 ^ 32 := by
      rw [← h.count_eq r, ← hexp]
      exact expected_lt_of_returned hp ringRounds_send_lt hs hr hG hz
    have hend : chunkOffset count P 0 + chunkCount count P 0 ≤ count := chunk_end_le (by omega)
    have hbytes := h.bytes_lt r
    rwa [szMul, Nat.mod_eq_of_lt (by omega)] at hlt

end Ring

section Doubling

variable {ops : Ops α} {call : ℕ} {a : Fin P → AllreduceArgs} {count : ℕ} {dtype : Dtype}
  {op : ReduceOp}

theorem allreduceRecursiveDoubling_short (hP : 2 ≤ P) (h : Agreed a count dtype op count)
    (hs : Reaches (fabric P α β Unit cap)
      (start (fun r => allreduceRecursiveDoubling ops r call (a r)) l) s)
    (hr : (s r).proc = .pure ()) : (∃ m, P = 2 ^ m) ∧ count * 4 < 2 ^ 32 := by
  by_cases hpow : isPowerOfTwo P = true
  · obtain ⟨m, hm⟩ := exists_two_pow_of_isPowerOfTwo hpow
    have hp : ∀ q, allreduceRecursiveDoubling ops q call (a q) =
        roundsProc (doublingRounds (β := β) ops call a m) q := by
      intro q
      apply allreduceRecursiveDoubling_eq hm ops call a q _ (Or.inr _)
      · rw [h.count_eq]
        exact h.fits q
      · rw [h.count_eq]
        exact h.scratch q
    have hm0 : 0 < m := by
      apply Nat.pos_of_ne_zero
      rintro rfl
      omega
    have hlt : szMul count 4 < 2 ^ 32 := by
      rw [← h.count_eq r]
      refine expected_lt_of_returned hp ?_ hs hr
        (List.mem_map.mpr ⟨0, List.mem_range.mpr hm0, rfl⟩) (z := (partner 0 r, _)) rfl
      intro q G hG y hy
      obtain ⟨step, -, rfl⟩ := List.mem_map.mp hG
      obtain rfl := Option.some.inj hy
      exact workRequest_length_lt _ _ _ _ _
    rw [szMul, Nat.mod_eq_of_lt (h.bytes_lt r)] at hlt
    exact ⟨⟨m, hm⟩, hlt⟩
  · -- otherwise every rank throws at once
    have hthrow : ∃ e, allreduceRecursiveDoubling (β := β) ops r call (a r) = .throw e :=
      allreduceRecursiveDoubling_refuses ops r call (a r) fun h => hpow h.2.1
    obtain ⟨e, he⟩ := hthrow
    have hend := throw_reaches (r := r) he hs
    rw [hr] at hend
    cases hend

end Doubling

section Allgather

variable {call : ℕ} {a : Fin P → AllgatherArgs} {n : ℕ}

theorem allgather_short (hP : 2 ≤ P) (h : AllgatherAgreed a n)
    (hs : Reaches (fabric P α β Unit cap) (start (fun r => allgather r call (a r)) l) s)
    (hr : (s r).proc = .pure ()) : n * 4 < 2 ^ 32 := by
  have hp : ∀ q, allgather q call (a q) =
      roundsProc (allgatherRounds (α := α) (β := β) call a) q := by
    intro q
    apply allgather_eq call a q
    rw [h.count_eq]
    exact h.fits q
  have hlt : szMul n 4 < 2 ^ 32 := by
    rw [← h.count_eq r]
    refine expected_lt_of_returned hp ?_ hs hr
      (List.mem_map.mpr ⟨0, List.mem_range.mpr (show 0 < P - 1 by omega), rfl⟩)
      (z := (prev r, _)) rfl
    intro q G hG y hy
    obtain ⟨step, -, rfl⟩ := List.mem_map.mp hG
    obtain rfl := Option.some.inj hy
    exact workRequest_length_lt _ _ _ _ _
  have hle : n * 4 ≤ P * (n * 4) := Nat.le_mul_of_pos_left _ (by omega)
  rw [← Nat.mul_assoc] at hle
  have hbytes := (h.fits r).trans_lt (h.size r)
  rwa [szMul, Nat.mod_eq_of_lt (by omega)] at hlt

end Allgather

section Broadcast

variable {call : ℕ} {a : Fin P → BroadcastArgs} {count : ℕ} {root : ℤ}

theorem broadcast_short (h : BroadcastAgreed a count)
    (hs : Reaches (fabric P α β Unit cap) (start (fun r => broadcast r call (a r) root) l) s)
    (hr : (s r).proc = .pure ()) (hroot : root ≠ r.val) :
    (∃ q : Fin P, root = q.val) ∧ count * 4 < 2 ^ 32 := by
  by_cases hin : root < 0 ∨ root ≥ P
  · have hthrow : (start (fun r => broadcast r call (a r) root) l r).proc =
        .throw (.invalidArgument "broadcast: root out of range") := by
      change broadcast r call (a r) root = _
      unfold broadcast
      rw [if_pos hin]
    have hend := throw_reaches hthrow hs
    rw [hr] at hend
    cases hend
  · obtain ⟨q, rfl⟩ : ∃ q : Fin P, root = q.val := ⟨⟨root.toNat, by omega⟩, by simp; omega⟩
    have hne : r ≠ q := by
      rintro rfl
      exact hroot rfl
    have hlt : szMul count 4 < 2 ^ 32 := by
      rw [← h.count_eq r]
      refine expected_lt_of_returned (broadcast_eq call a q) ?_ hs hr
        (List.mem_map.mpr ⟨r, List.mem_finRange r, rfl⟩) (z := (q,
          ⟨workRequest (a r).mr (a r).buf 0 (szMul (a r).count 4) ⟨call, r⟩, szMul (a r).count 4,
            broadcastMismatch (szMul (a r).count 4), none⟩)) ?_
      · intro p G hG y hy
        obtain ⟨peer, -, rfl⟩ := List.mem_map.mp hG
        obtain ⟨-, -, -, hwr⟩ := broadcastRound_send (show _ = some (y.1, y.2) from hy)
        rw [hwr]
        exact workRequest_length_lt _ _ _ _ _
      · rw [broadcastRound, if_neg hne, if_neg hne, if_pos rfl]
        rfl
    rw [szMul, Nat.mod_eq_of_lt ((h.fits r).trans_lt (h.size r))] at hlt
    exact ⟨⟨q, rfl⟩, hlt⟩

end Broadcast

end Short

theorem Call.Agreed.short {cap : Fin P → Fin P → ℕ} (hP : 2 ≤ P) {c : Call P} (hc : c.Agreed)
    (ops : Ops α) (call : ℕ) {x : Fin P → Local α β} {s : Fin P → RankState P α β Unit}
    (hs : Reaches (fabric P α β Unit cap) (start (fun r => c.proc ops r call) x) s) {r : Fin P}
    (hr : (s r).proc = .pure ()) (hrecv : c.Receiver r) :
    (∀ n, c.Message n → n < 2 ^ 32) ∧ c.Ready := by
  cases c with
  | allreduceRing a =>
    obtain ⟨count, dtype, op, h⟩ := hc
    have hshort := allreduceRing_short hP h hs hr
    refine ⟨?_, count, dtype, op, h.ready hshort⟩
    rintro n ⟨q, i, -, rfl⟩
    have hle : chunkCount count P i ≤ (count + P - 1) / P := chunkCount_le_ceil (by omega) i
    rw [h.count_eq]
    omega
  | allreduceRecursiveDoubling a =>
    obtain ⟨count, dtype, op, h⟩ := hc
    obtain ⟨hpow, hshort⟩ := allreduceRecursiveDoubling_short hP h hs hr
    refine ⟨?_, hpow, count, dtype, op, h.ready hshort⟩
    rintro n ⟨q, rfl⟩
    rwa [h.count_eq]
  | allgather a =>
    obtain ⟨n, h⟩ := hc
    have hshort := allgather_short hP h hs hr
    refine ⟨?_, n, { h with short := Or.inr hshort }⟩
    rintro n' ⟨q, rfl⟩
    rwa [h.count_eq]
  | broadcast a root =>
    obtain ⟨count, h⟩ := hc
    obtain ⟨hroot, hshort⟩ := broadcast_short h hs hr hrecv
    refine ⟨?_, hroot, count, h.count_eq, Or.inr hshort⟩
    rintro n ⟨q, rfl⟩
    rwa [h.count_eq]
  | barrier => exact ⟨fun n hn => hn.elim, trivial⟩

/-- Whatever the lengths: in every run, a rank that returns, other than the root of a broadcast,
holds what the call specifies, and no message of the call has 2^32 bytes or more. -/
theorem call_returned_exact (cap : Fin P → Fin P → ℕ) (hcap : ∀ i j, 0 < cap i j) (hP : 2 ≤ P)
    {c : Call P} (hc : c.Agreed) (ops : Ops α) (call : ℕ) (x : Fin P → Local α β)
    {s : Fin P → RankState P α β Unit}
    (hs : Reaches (fabric P α β Unit cap) (start (fun r => c.proc ops r call) x) s) {r : Fin P}
    (hr : (s r).proc = .pure ()) (hrecv : c.Receiver r) :
    (∃ x', c.Spec ops x x' ∧ (s r).loc = x' r) ∧ ∀ n, c.Message n → n < 2 ^ 32 := by
  obtain ⟨hmsg, hready⟩ := hc.short hP ops call hs hr hrecv
  obtain ⟨x', hspec, hleads⟩ := hready.leads (A := Unit) hcap ops call x
  have hret : Leads cap (fun r => c.proc ops r call) x (fun _ => .pure ()) x' := by
    simpa only [Proc.bind_unit] using hleads fun _ => .pure ()
  refine ⟨⟨x', hspec, ?_⟩, hmsg⟩
  exact (hret.result (fun r => hready.disciplined ops call r) hs hr).2

/-- A buffer of 2^32 bytes, of which each of two ranks sends half at a time. -/
def fourGiB (_ : Fin 2) : AllreduceArgs :=
  ⟨⟨0, 2 ^ 32⟩, 0, 2 ^ 30, .int32, .sum, ⟨1, 2 ^ 31⟩, 1, 2 ^ 29⟩

theorem call_returned_exact_fourGiB :
    ∃ s, Reaches (fabric 2 ℕ Unit Unit fun _ _ => 1)
        (start (fun r => (Call.allreduceRing fourGiB).proc (fun _ _ u v => u + v) r 0)
          fun r => ⟨fun _ i => 10 * r + i, ()⟩) s ∧
      (s 0).proc = .pure () ∧ (∃ x', (Call.allreduceRing fourGiB).Spec (fun _ _ u v => u + v)
        (fun r => ⟨fun _ i => 10 * r + i, ()⟩) x' ∧ (s 0).loc = x' 0) ∧
      ∀ n, (Call.allreduceRing fourGiB).Message n → n < 2 ^ 32 := by
  have hagreed : Agreed fourGiB (2 ^ 30) .int32 .sum ((2 ^ 30 + 2 - 1) / 2) := by
    constructor <;> decide
  have hc : (Call.allreduceRing fourGiB).Agreed := ⟨2 ^ 30, .int32, .sum, hagreed⟩
  have hall := fun s => call_returned_exact (s := s) (r := 0) (fun _ _ => 1)
    (fun _ _ => Nat.one_pos) le_rfl hc (fun _ _ u v => u + v) 0
    (fun r => ⟨fun _ i => 10 * r + i, ()⟩)
  obtain ⟨s, hs, hret⟩ := allreduceRing_settles (fun _ _ => 1) (fun _ _ u v => u + v) 0
    (hagreed.ready (by decide)) (fun r => ⟨fun _ i => 10 * r + i, ()⟩) .refl
  exact ⟨s, hs, hret 0, hall s hs (hret 0) trivial⟩

end MicroCcl

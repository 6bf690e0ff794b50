import MicroCcl.Frame
import MicroCcl.ReduceOps
import Mathlib.Data.List.FinRange

namespace MicroCcl
open Network

structure BroadcastArgs where
  mr : MemoryRegion
  buf : Buf
  count : ℕ
  dtype : Dtype
  deriving DecidableEq, Repr

variable {P : ℕ} {α β : Type}

section Code

variable (R : Fin P) (call : ℕ) (a : BroadcastArgs)

def broadcastMismatch (expected got : ℕ) : Exn :=
  .runtimeError ("broadcast: size mismatch, expected " ++ toString expected ++
    " bytes from root but got " ++ toString got ++ " -- ranks disagree on message size")

def broadcast (root : ℤ) : Proc P α β Unit := do
  if root < 0 ∨ root ≥ P then
    .throw (.invalidArgument "broadcast: root out of range")
  else
    let bytes := szMul a.count (dtypeSize a.dtype)
    if R.val = root then
      (List.finRange P).forM fun peer => do
        if (peer.val : ℤ) ≠ root then
          send (← qp R peer.val) a.mr a.buf 0 bytes ⟨call, peer⟩
    else
      let got ← recv (← qp R root) a.mr a.buf 0 bytes ⟨call, R⟩
      if got ≠ bytes then
        .throw (broadcastMismatch bytes got)

end Code

section Rounds

variable (call : ℕ) (a : Fin P → BroadcastArgs) (root : Fin P)

/-- The round in which the root serves `peer`. -/
def broadcastRound (peer : Fin P) : Round P α β := fun r =>
  let bytes := szMul (a r).count 4
  let wr := workRequest (a r).mr (a r).buf 0 bytes ⟨call, peer⟩
  if peer = root then ⟨none, none⟩
  else if r = root then ⟨none, some (peer, wr)⟩
  else if r = peer then ⟨some (root, ⟨wr, bytes, broadcastMismatch bytes, none⟩), none⟩
  else ⟨none, none⟩

def broadcastRounds : List (Round P α β) := (List.finRange P).map (broadcastRound call a root)

end Rounds

theorem idle_proc : (Xfer.proc ⟨none, none⟩ : Proc P α β Unit) = .pure () := rfl

/-- A loop in which only one turn does something. -/
theorem forM_single {S : Type} {f : S → Proc P α β Unit} {ss : List S} {q : S} (hq : q ∈ ss)
    (hss : ss.Nodup) (h : ∀ s ∈ ss, s ≠ q → f s = .pure ()) : ss.forM f = f q := by
  have hidle : ∀ ts : List S, (∀ s ∈ ts, f s = .pure ()) → ts.forM f = .pure () := by
    intro ts hts
    induction ts with
    | nil => rfl
    | cons t ts ih =>
      rw [Proc.forM_cons, hts t (by simp), Proc.pure_bind', ih fun s hs => hts s (by simp [hs])]
  induction ss with
  | nil => simp at hq
  | cons t ss ih =>
    obtain ⟨ht, hss⟩ := List.nodup_cons.mp hss
    rw [Proc.forM_cons]
    by_cases htq : t = q
    · subst t
      rw [hidle ss fun s hs => h s (by simp [hs]) fun he => ht (he ▸ hs)]
      exact Proc.bind_unit _
    · rw [h t (by simp) htq, Proc.pure_bind']
      exact ih ((List.mem_cons.mp hq).resolve_left (Ne.symm htq)) hss
        fun s hs => h s (by simp [hs])

/-- What `broadcast` does with a valid root. -/
theorem broadcast_eq (call : ℕ) (a : Fin P → BroadcastArgs) (root r : Fin P) :
    broadcast r call (a r) root.val =
      roundsProc (broadcastRounds (α := α) (β := β) call a root) r := by
  have hroot : ¬ ((root.val : ℤ) < 0 ∨ (root.val : ℤ) ≥ P) := by omega
  have hval : ∀ u v : Fin P, (u.val : ℤ) = v.val ↔ u = v := fun u v => by
    rw [Fin.ext_iff]
    omega
  unfold broadcast
  simp only [if_neg hroot, dtypeSize_eq, hval, ne_eq]
  by_cases hr : r = root
  · subst r
    rw [if_pos rfl]
    refine forM_eq_roundsProc fun peer _ => ?_
    by_cases hp : peer = root
    · simp [hp, broadcastRound, idle_proc]
    · have hqp : qp (α := α) (β := β) root peer.val = .pure peer := qp_eq (Ne.symm hp)
      simp [hp, broadcastRound, hqp, send, postSend, Xfer.proc, Xfer.postRecv, Xfer.postSend,
        Xfer.waitSend, Xfer.waitRecv, workRequest]
  · rw [if_neg hr, broadcastRounds, ← forM_eq_roundsProc (f := fun peer =>
      (broadcastRound call a root peer r).proc) fun _ _ => rfl,
      forM_single (List.mem_finRange r) (List.nodup_finRange P)]
    · have hqp : qp (α := α) (β := β) r root.val = .pure root := qp_eq hr
      simp [hr, broadcastRound, hqp, recv, postRecv, Xfer.proc, Xfer.postRecv, Xfer.postSend,
        Xfer.waitSend, Xfer.waitRecv, workRequest, RecvPart.finish_def]
    · intro peer _ hp
      simp [broadcastRound, hr, Ne.symm hp, idle_proc]

structure BroadcastReady (a : Fin P → BroadcastArgs) (count : ℕ) : Prop where
  count_eq : ∀ r, (a r).count = count
  short : P = 1 ∨ count * 4 < 2 ^ 32

section Agree

variable {a : Fin P → BroadcastArgs} {count : ℕ}

theorem broadcastRound_send {call : ℕ} {root peer i j : Fin P} {wr : Wr}
    (h : (broadcastRound (α := α) (β := β) call a root peer i).send = some (j, wr)) :
    peer ≠ root ∧ i = root ∧ j = peer ∧
      wr = workRequest (a i).mr (a i).buf 0 (szMul (a i).count 4) ⟨call, peer⟩ := by
  unfold broadcastRound at h
  split_ifs at h with h1 h2
  obtain ⟨rfl, rfl⟩ := Prod.mk.inj (Option.some.inj h)
  exact ⟨h1, h2, rfl, rfl⟩

theorem broadcastRound_recv {call : ℕ} {root peer i j : Fin P} {v : RecvPart α β}
    (h : (broadcastRound (α := α) (β := β) call a root peer i).recv = some (j, v)) :
    peer ≠ root ∧ i ≠ root ∧ i = peer ∧ j = root ∧
      v = ⟨workRequest (a i).mr (a i).buf 0 (szMul (a i).count 4) ⟨call, peer⟩,
        szMul (a i).count 4, broadcastMismatch (szMul (a i).count 4), none⟩ := by
  unfold broadcastRound at h
  split_ifs at h with h1 h2 h3
  obtain ⟨rfl, rfl⟩ := Prod.mk.inj (Option.some.inj h)
  exact ⟨h1, h2, h3, rfl, rfl⟩

variable (h : BroadcastReady a count)
include h

theorem BroadcastReady.len {r q : Fin P} (hrq : r ≠ q) :
    szMul count 4 % 2 ^ 32 = count * 4 ∧ szMul count 4 = count * 4 := by
  have h1 : P ≠ 1 := by
    rintro rfl
    exact hrq (Subsingleton.elim r q)
  have hs := h.short.resolve_left h1
  rw [szMul, Nat.mod_eq_of_lt (show count * 4 < 2 ^ 64 by omega), Nat.mod_eq_of_lt hs]
  exact ⟨rfl, rfl⟩

theorem broadcastRound_matched (call : ℕ) (root peer : Fin P) :
    (broadcastRound (α := α) (β := β) call a root peer).Matched where
  apart := by
    rintro r ⟨q, wr⟩ hy ⟨q', v⟩ hz
    exact absurd (broadcastRound_send hy).2.1 (broadcastRound_recv hz).2.1
  send_recv := by
    intro i j wr hsend
    obtain ⟨hp, rfl, rfl, rfl⟩ := broadcastRound_send hsend
    obtain ⟨h1, h2⟩ := h.len hp
    refine ⟨Ne.symm hp, _, by rw [broadcastRound, if_neg hp, if_neg hp, if_pos rfl], ?_, ?_, rfl⟩
    · simp only [workRequest, h.count_eq]
    · simp only [workRequest, h.count_eq]
      rw [h1, h2]
  recv_send := by
    intro i j v hrecv
    obtain ⟨hp, hne, rfl, rfl, rfl⟩ := broadcastRound_recv hrecv
    exact ⟨_, by rw [broadcastRound, if_neg hp, if_pos rfl]⟩

theorem broadcastRound_sync (call : ℕ) (root peer : Fin P) (l : Fin P → Local α β) (r : Fin P)
    (b : Buf) (i : ℕ) : ((broadcastRound call a root peer).sync l r).mem b i =
      if r = peer ∧ r ≠ root ∧ b = (a r).buf ∧ i < count then (l root).mem (a root).buf i
      else (l r).mem b i := by
  by_cases hr : r = peer ∧ r ≠ root
  · obtain ⟨rfl, hne⟩ := hr
    have hrecv : (broadcastRound (α := α) (β := β) call a root r r).recv = some (root,
        ⟨workRequest (a r).mr (a r).buf 0 (szMul count 4) ⟨call, r⟩, szMul count 4,
          broadcastMismatch (szMul count 4), none⟩) := by
      rw [broadcastRound, if_neg hne, if_neg hne, if_pos rfl, h.count_eq]
    have hsend : (broadcastRound (α := α) (β := β) call a root r root).send = some (r,
        workRequest (a root).mr (a root).buf 0 (szMul count 4) ⟨call, r⟩) := by
      rw [broadcastRound, if_neg hne, if_pos rfl, h.count_eq]
    rw [Round.sync_of_recv _ hrecv, Round.payload_of_send _ hsend]
    simp only [RecvPart.apply, RecvPart.store, workRequest_move (h.len hne).1, Nat.zero_div,
      Nat.zero_le, Nat.zero_add, Nat.sub_zero, true_and, hne, ne_eq, not_false_eq_true]
  · have hrecv : (broadcastRound (α := α) (β := β) call a root peer r).recv = none := by
      rw [Option.eq_none_iff_forall_ne_some]
      rintro ⟨q, v⟩ hv
      obtain ⟨-, hne, hp, -⟩ := broadcastRound_recv hv
      exact hr ⟨hp, hne⟩
    rw [Round.sync_of_idle _ hrecv, if_neg]
    exact fun h' => hr ⟨h'.1, h'.2.1⟩

theorem broadcast_syncAll (call : ℕ) (root : Fin P) (x : Fin P → Local α β) (peers : List (Fin P))
    (r : Fin P) (b : Buf) (i : ℕ) :
    (syncAll (peers.map (broadcastRound call a root)) x r).mem b i =
      if r ∈ peers ∧ r ≠ root ∧ b = (a r).buf ∧ i < count then (x root).mem (a root).buf i
      else (x r).mem b i := by
  induction peers generalizing x with
  | nil => simp [syncAll]
  | cons peer peers ih =>
    rw [List.map_cons, syncAll, List.foldl_cons]
    apply (ih _).trans
    rw [broadcastRound_sync h, broadcastRound_sync h,
      if_neg (show ¬ (root = peer ∧ root ≠ root ∧ _) from fun h' => h'.2.1 rfl)]
    by_cases h1 : r ≠ root ∧ b = (a r).buf ∧ i < count
    · simp only [and_iff_left h1, List.mem_cons]
      grind
    · simp only [h1, and_false, if_false]

theorem broadcastRounds_data (call : ℕ) (root : Fin P) (x : Fin P → Local α β) (r : Fin P) {i : ℕ}
    (hi : i < count) : (syncAll (broadcastRounds call a root) x r).mem (a r).buf i =
      (x root).mem (a root).buf i := by
  rw [broadcastRounds, broadcast_syncAll h]
  by_cases hr : r = root
  · simp [hr]
  · rw [if_pos ⟨List.mem_finRange r, hr, rfl, hi⟩]

theorem broadcastRounds_frame (call : ℕ) (root : Fin P) (x : Fin P → Local α β) (r : Fin P)
    {b : Buf} {i : ℕ} (hi : r = root ∨ (b = (a r).buf → count ≤ i)) :
    (syncAll (broadcastRounds call a root) x r).mem b i = (x r).mem b i := by
  rw [broadcastRounds, broadcast_syncAll h, if_neg]
  rintro ⟨-, hr, hb, hlt⟩
  exact absurd (hi.resolve_left hr hb) (not_le.mpr hlt)

theorem broadcastRounds_matched (call : ℕ) (root : Fin P) :
    ∀ G ∈ broadcastRounds (α := α) (β := β) call a root, G.Matched := by
  intro G hG
  obtain ⟨peer, -, rfl⟩ := List.mem_map.mp hG
  exact broadcastRound_matched h call root peer

end Agree

theorem broadcastRounds_vars (call : ℕ) (a : Fin P → BroadcastArgs) (root : Fin P)
    (x : Fin P → Local α β) (r : Fin P) :
    (syncAll (broadcastRounds call a root) x r).vars = (x r).vars := by
  refine syncAll_frame Local.vars (fun G hG l => Round.sync_vars G ?_ l) x
  intro z hz f hf l
  obtain ⟨peer, -, rfl⟩ := List.mem_map.mp hG
  obtain ⟨-, -, -, -, hv⟩ := broadcastRound_recv hz
  rw [hv] at hf
  simp at hf

end MicroCcl

import MicroCcl.Broadcast
import MicroCcl.Outcomes
import MicroCcl.Traces

namespace MicroCcl
open Network

variable {P : ℕ} {α β : Type}

def completionError (status : WcStatus) : Exn :=
  .runtimeError ("completion error: " ++ status.str)

section Fates

variable (call : ℕ) (a : Fin P → BroadcastArgs) (root : Fin P)

def broadcastWr (peer r : Fin P) : Wr :=
  workRequest (a r).mr (a r).buf 0 (szMul (a r).count 4) ⟨call, peer⟩

/-- The message of the root is longer than the receive of `q`. -/
def Refuses (q : Fin P) : Prop :=
  q ≠ root ∧ szMul (a q).count 4 % 2 ^ 32 < szMul (a root).count 4 % 2 ^ 32

/-- The root fails before it comes to `q`. -/
def Unserved (q : Fin P) : Prop := ∃ p < q, Refuses a root p

instance (q : Fin P) : Decidable (Refuses a root q) :=
  inferInstanceAs (Decidable (q ≠ root ∧ _ < _))

instance (q : Fin P) : Decidable (Unserved a root q) :=
  inferInstanceAs (Decidable (∃ p < q, Refuses a root p))

/-- How the call ends on rank `r`. -/
def broadcastEnd (r : Fin P) : Option (Except Exn Unit) :=
  let bytes := szMul (a r).count 4
  let got := szMul (a root).count 4 % 2 ^ 32
  if r = root then
    if ∃ q, Refuses a root q then some (.error (completionError .remInvReqErr)) else some (.ok ())
  else if Unserved a root r then none
  else if Refuses a root r then some (.error (completionError .locLenErr))
  else if got ≠ bytes then some (.error (broadcastMismatch bytes got))
  else some (.ok ())

def broadcastLeft (l : Fin P → Local α β) (r : Fin P) : Local α β :=
  if r = root ∨ Unserved a root r then l r
  else deliver (broadcastWr call a r root) (broadcastWr call a r r) (l root) (l r)

def serveProc (peer : Fin P) : Proc P α β Unit :=
  .postSend peer (broadcastWr call a peer root) (.pollSend fun wc => checkWc wc >>= fun _ =>
    .pure ())

/-- What a peer does with its completion. -/
def peerAnswer (r : Fin P) (wc : Wc) : Proc P α β Unit :=
  checkWc wc >>= fun wc => if wc.byteLen ≠ szMul (a r).count 4 then
    .throw (broadcastMismatch (szMul (a r).count 4) wc.byteLen) else .pure ()

def peerProc (r : Fin P) : Proc P α β Unit :=
  .postRecv root (broadcastWr call a r r) (.pollRecv (peerAnswer a r))

theorem forM_filter {S : Type} (c : S → Prop) [DecidablePred c] {f g : S → Proc P α β Unit}
    (hf : ∀ s, ¬ c s → f s = .pure ()) (hg : ∀ s, c s → f s = g s) (ss : List S) :
    ss.forM f = (ss.filter fun s => c s).forM g := by
  induction ss with
  | nil => rfl
  | cons s ss ih =>
    rw [Proc.forM_cons, ih, List.filter_cons]
    by_cases hs : c s
    · rw [if_pos (decide_eq_true hs), Proc.forM_cons, hg s hs]
    · rw [if_neg (by simpa using hs), hf s hs, Proc.pure_bind']

theorem broadcast_root_eq : broadcast (α := α) (β := β) root call (a root) root.val =
    ((List.finRange P).filter fun peer => peer ≠ root).forM (serveProc call a root) := by
  rw [broadcast_eq, broadcastRounds, ← forM_eq_roundsProc (f := fun peer =>
    (broadcastRound call a root peer root).proc) fun _ _ => rfl]
  refine forM_filter (· ≠ root) (fun peer hp => ?_) (fun peer hp => ?_) _
  · rw [broadcastRound, if_pos (not_not.mp hp), idle_proc]
  · rw [broadcastRound, if_neg hp, if_pos rfl]
    simp [Xfer.proc, Xfer.postRecv, Xfer.postSend, Xfer.waitSend, Xfer.waitRecv, waitCompletion,
      serveProc, broadcastWr]

theorem broadcast_peer_eq {r : Fin P} (hr : r ≠ root) :
    broadcast (α := α) (β := β) r call (a r) root.val = peerProc call a root r := by
  have hroot : ¬ ((root.val : ℤ) < 0 ∨ (root.val : ℤ) ≥ P) := by omega
  have hval : ¬ (r.val : ℤ) = root.val := fun he => hr (Fin.ext (by omega))
  unfold broadcast peerProc peerAnswer
  simp only [if_neg hroot, dtypeSize_eq, if_neg hval, qp_eq hr]
  simp [recv, postRecv, waitCompletion, broadcastWr, workRequest]

end Fates

section Run

variable {call : ℕ} {a : Fin P → BroadcastArgs} {root : Fin P}

def Served (a : Fin P → BroadcastArgs) (root : Fin P) (ps : List (Fin P)) (r : Fin P) : Prop :=
  r ∈ ps ∧ ∀ q ∈ ps, q < r → ¬ Refuses a root q

theorem served_cons_of_refuses {q : Fin P} {ps : List (Fin P)} (hq : Refuses a root q)
    (hlt : ∀ r ∈ ps, q < r) (r : Fin P) : Served a root (q :: ps) r ↔ r = q := by
  constructor
  · rintro ⟨hr, hall⟩
    by_contra hne
    have hmem := (List.mem_cons.mp hr).resolve_left hne
    exact hall q (by simp) (hlt r hmem) hq
  · rintro rfl
    refine ⟨by simp, fun q hq' hqr => ?_⟩
    rcases List.mem_cons.mp hq' with rfl | hmem
    · exact absurd hqr (lt_irrefl _)
    · exact absurd (hlt q hmem) hqr.asymm

theorem served_cons_of_accepts {q : Fin P} {ps : List (Fin P)} (hq : ¬ Refuses a root q)
    (hlt : ∀ r ∈ ps, q < r) (r : Fin P) :
    Served a root (q :: ps) r ↔ r = q ∨ Served a root ps r := by
  constructor
  · rintro ⟨hr, hall⟩
    exact (List.mem_cons.mp hr).imp id fun hmem =>
      ⟨hmem, fun p hp hpr => hall p (List.mem_cons_of_mem q hp) hpr⟩
  · rintro (rfl | ⟨hmem, hall⟩)
    · refine ⟨by simp, fun p hp hpr => ?_⟩
      rcases List.mem_cons.mp hp with rfl | hp
      · exact hq
      · exact absurd (hlt p hp) hpr.asymm
    · refine ⟨List.mem_cons_of_mem q hmem, fun p hp hpr => ?_⟩
      rcases List.mem_cons.mp hp with rfl | hp
      · exact hq
      · exact hall p hp hpr

theorem sendStatus_of_refuses {q : Fin P} (hq : Refuses a root q) :
    sendStatus (broadcastWr call a q root) (broadcastWr call a q q) = .remInvReqErr :=
  if_neg (not_le.mpr hq.2)

theorem sendStatus_of_accepts {q : Fin P} (hne : q ≠ root) (hq : ¬ Refuses a root q) :
    sendStatus (broadcastWr call a q root) (broadcastWr call a q q) = .success :=
  if_pos (not_lt.mp fun hlt => hq ⟨hne, hlt⟩)

open Classical in
/-- The root goes through its peers until one refuses; those it comes to get their answer. -/
theorem serve_leads {cap : Fin P → Fin P → ℕ} {ps : List (Fin P)} (hsorted : ps.Pairwise (· < ·))
    (hroot : root ∉ ps) {p : Fin P → Proc P α β Unit} {l : Fin P → Local α β}
    (hpr : p root = ps.forM (serveProc call a root))
    (hpq : ∀ q ∈ ps, p q = peerProc call a root q) :
    Leads cap p l
      (fun r =>
        if r = root then
          if ∃ q ∈ ps, Refuses a root q then .throw (completionError .remInvReqErr) else .pure ()
        else if Served a root ps r then
          peerAnswer a r (completionOf (root, broadcastWr call a r root, broadcastWr call a r r))
        else p r)
      (fun r => if Served a root ps r then
        deliver (broadcastWr call a r root) (broadcastWr call a r r) (l root) (l r) else l r) := by
  induction ps generalizing p l with
  | nil =>
    have hnone : ∀ r, ¬ Served a root [] r := fun r h => by simp [Served] at h
    convert Leads.refl p l using 1
    · funext r
      by_cases hr : r = root
      · rw [if_pos hr, hr, hpr]
        simp
      · rw [if_neg hr, if_neg (hnone r)]
    · funext r
      rw [if_neg (hnone r)]
  | cons q ps ih =>
    obtain ⟨hlt, hsorted⟩ := List.pairwise_cons.mp hsorted
    obtain ⟨hne, hroot⟩ : root ≠ q ∧ root ∉ ps := by simpa using hroot
    rw [Proc.forM_cons] at hpr
    have hmsg : Leads cap p l _ _ := message_leads hne hpr (hpq q (by simp)) rfl
    simp only [two, Function.update_eq_self] at hmsg
    by_cases hq : Refuses a root q
    · -- all other peers are behind `q`
      convert hmsg using 1
      · funext r
        by_cases hrq : r = q
        · subst r
          rw [if_neg hne.symm, if_pos ((served_cons_of_refuses hq hlt q).mpr rfl),
            Function.update_self]
        · rw [Function.update_of_ne hrq]
          by_cases hr : r = root
          · subst r
            rw [if_pos rfl, if_pos ⟨q, by simp, hq⟩, Function.update_self,
              sendStatus_of_refuses hq]
            rfl
          · rw [if_neg hr, if_neg (mt (served_cons_of_refuses hq hlt r).mp hrq),
              Function.update_of_ne hr]
      · funext r
        by_cases hrq : r = q
        · subst r
          rw [if_pos ((served_cons_of_refuses hq hlt q).mpr rfl), Function.update_self]
        · rw [if_neg (mt (served_cons_of_refuses hq hlt r).mp hrq), Function.update_of_ne hrq]
    · rw [sendStatus_of_accepts hne.symm hq] at hmsg
      have hqps : q ∉ ps := fun hmem => lt_irrefl q (hlt q hmem)
      have hserved : ¬ Served a root ps q := fun h => hqps h.1
      have hrest := ih hsorted hroot (p := Function.update (Function.update p root
        (ps.forM (serveProc call a root))) q (peerAnswer a q (completionOf (root,
          broadcastWr call a q root, broadcastWr call a q q))))
        (l := Function.update l q (deliver (broadcastWr call a q root) (broadcastWr call a q q)
          (l root) (l q))) (by rw [Function.update_of_ne hne, Function.update_self]) (by
          intro x hx
          rw [Function.update_of_ne (by rintro rfl; exact hqps hx),
            Function.update_of_ne (by rintro rfl; exact hroot hx)]
          exact hpq x (List.mem_cons_of_mem q hx))
      convert hmsg.trans hrest using 1
      · funext r
        by_cases hr : r = root
        · rw [if_pos hr, if_pos hr]
          simp only [List.exists_mem_cons_iff, hq, false_or]
        rw [if_neg hr, if_neg hr, served_cons_of_accepts hq hlt]
        by_cases hrq : r = q
        · subst r
          rw [if_pos (Or.inl rfl), if_neg hserved, Function.update_self]
        · rw [Function.update_of_ne hrq, Function.update_of_ne hr, or_iff_right hrq]
      · funext r
        rw [served_cons_of_accepts hq hlt]
        by_cases hrq : r = q
        · subst r
          rw [if_pos (Or.inl rfl), if_neg hserved, Function.update_self]
        · rw [Function.update_of_ne hrq, Function.update_of_ne hne, or_iff_right hrq]

theorem served_iff (r : Fin P) :
    Served a root ((List.finRange P).filter fun q => q ≠ root) r ↔
      r ≠ root ∧ ¬ Unserved a root r := by
  simp only [Served, Unserved, List.mem_filter, List.mem_finRange, true_and, decide_eq_true_eq]
  constructor
  · rintro ⟨hr, hall⟩
    exact ⟨hr, fun ⟨q, hlt, hq⟩ => hall q hq.1 hlt hq⟩
  · rintro ⟨hr, hnone⟩
    exact ⟨hr, fun q _ hlt hq => hnone ⟨q, hlt, hq⟩⟩

theorem endsAs_peerAnswer {r : Fin P} (hr : r ≠ root) (hserved : ¬ Unserved a root r)
    {st : RankState P α β Unit} (hst : st.proc = peerAnswer a r
      (completionOf (root, broadcastWr call a r root, broadcastWr call a r r))) :
    EndsAs (broadcastEnd a root r) st := by
  rw [broadcastEnd, if_neg hr, if_neg hserved]
  by_cases hq : Refuses a root r
  · have hwc : completionOf (root, broadcastWr call a r root, broadcastWr call a r r) =
        ⟨.locLenErr, 0⟩ := if_neg (not_le.mpr hq.2)
    rw [hwc] at hst
    rw [if_pos hq]
    exact hst
  · have hwc : completionOf (root, broadcastWr call a r root, broadcastWr call a r r) =
        ⟨.success, szMul (a root).count 4 % 2 ^ 32⟩ := if_pos (not_lt.mp fun hlt => hq ⟨hr, hlt⟩)
    have hanswer : st.proc = if szMul (a root).count 4 % 2 ^ 32 ≠ szMul (a r).count 4 then
        .throw (broadcastMismatch (szMul (a r).count 4) (szMul (a root).count 4 % 2 ^ 32))
        else .pure () := by
      rw [hst, hwc]
      rfl
    rw [if_neg hq]
    split_ifs at hanswer ⊢
    · exact hanswer
    · exact hanswer

theorem broadcast_disciplined (r : Fin P) :
    Disciplined none none (broadcast (α := α) (β := β) r call (a r) root.val) := by
  rw [broadcast_eq]
  refine rounds_disciplined (fun G hG r => ?_) r
  obtain ⟨peer, -, rfl⟩ := List.mem_map.mp hG
  rintro ⟨q, wr⟩ hy ⟨q', v⟩ hz
  exact absurd (broadcastRound_send hy).2.1 (broadcastRound_recv hz).2.1

variable (call a root) in
theorem exists_served (cap : Fin P → Fin P → ℕ) (l : Fin P → Local α β) :
    ∃ t, Reaches (fabric P α β Unit cap) (start (fun r => broadcast r call (a r) root.val) l) t ∧
      Quiet (if ∃ q, Refuses a root q then .throw (completionError .remInvReqErr) else .pure ())
        (l root) (t root) ∧
      ∀ r, r ≠ root →
        (¬ Unserved a root r → Quiet (peerAnswer a r (completionOf (root,
            broadcastWr call a r root, broadcastWr call a r r)))
          (deliver (broadcastWr call a r root) (broadcastWr call a r r) (l root) (l r)) (t r)) ∧
        (Unserved a root r → Quiet (peerProc call a root r) (l r) (t r)) := by
  have hsorted : ((List.finRange P).filter fun q => q ≠ root).Pairwise (· < ·) :=
    (List.pairwise_lt_finRange P).filter _
  have hserve : Leads cap (fun r => broadcast r call (a r) root.val) l _ _ :=
    serve_leads hsorted (by simp) (broadcast_root_eq call a root)
      fun q hq => broadcast_peer_eq call a root (by simpa using hq)
  obtain ⟨t, ht, hquiet⟩ := hserve _ (start_quiet _ _)
  simp only [served_iff] at hquiet
  refine ⟨t, ht, ?_, fun r hr => ⟨fun hserved => ?_, fun hserved => ?_⟩⟩
  · have hpeers : (∃ q ∈ (List.finRange P).filter fun q => q ≠ root, Refuses a root q) ↔
        ∃ q, Refuses a root q := by
      simp only [List.mem_filter, List.mem_finRange, true_and, decide_eq_true_eq]
      exact exists_congr fun q => and_iff_right_of_imp And.left
    have h := hquiet root
    have hself : ¬ (root ≠ root ∧ ¬ Unserved a root root) := fun h => h.1 rfl
    simp only [if_true, if_neg hself] at h
    by_cases hq : ∃ q, Refuses a root q
    · rw [if_pos hq]
      rwa [if_pos (hpeers.mpr hq)] at h
    · rw [if_neg hq]
      rwa [if_neg (mt hpeers.mp hq)] at h
  · simpa only [if_neg hr, if_pos (And.intro hr hserved)] using hquiet r
  · rw [← broadcast_peer_eq call a root hr]
    simpa only [if_neg hr, if_neg (not_and_not_right.mpr fun _ => hserved)] using hquiet r

end Run

/-- The call asks for no more than its region has, and for less than 4 GiB. -/
def BroadcastArgs.Fits (a : BroadcastArgs) : Prop :=
  a.count * 4 ≤ a.mr.length ∧ a.count * 4 < 2 ^ 32

theorem BroadcastArgs.Fits.bytes {a : BroadcastArgs} (h : a.Fits) :
    szMul a.count 4 = a.count * 4 ∧ szMul a.count 4 % 2 ^ 32 = a.count * 4 := by
  have hlt := h.2
  have hmul : szMul a.count 4 = a.count * 4 := Nat.mod_eq_of_lt (by omega)
  exact ⟨hmul, by rw [hmul, Nat.mod_eq_of_lt hlt]⟩

theorem broadcastEnd_ok_iff {a : Fin P → BroadcastArgs} (ha : ∀ r, (a r).Fits) (root : Fin P) :
    (∀ r, broadcastEnd a root r = some (.ok ())) ↔ ∀ q, (a q).count = (a root).count := by
  constructor
  · intro h q
    by_cases hq : q = root
    · rw [hq]
    have hend := h q
    rw [broadcastEnd, if_neg hq] at hend
    split_ifs at hend with h1 h2 h3
    · simp at hend
    · simp at hend
    · rw [not_not, (ha root).bytes.2, (ha q).bytes.1] at h3
      omega
  · intro h r
    have hnone : ∀ q, ¬ Refuses a root q := by
      rintro q ⟨-, hlt⟩
      rw [h q] at hlt
      exact lt_irrefl _ hlt
    have hserved : ¬ Unserved a root r := fun ⟨q, _, hq⟩ => hnone q hq
    have hsize : szMul (a root).count 4 % 2 ^ 32 = szMul (a r).count 4 := by
      rw [(ha root).bytes.2, (ha r).bytes.1, h r]
    rw [broadcastEnd]
    by_cases hr : r = root
    · rw [if_pos hr, if_neg fun ⟨q, hq⟩ => hnone q hq]
    · rw [if_neg hr, if_neg hserved, if_neg (hnone r), if_neg (not_not.mpr hsize)]

/-- The root is through with the peers it serves, and those behind a peer that refuses wait. -/
theorem exists_broadcast_end (cap : Fin P → Fin P → ℕ) (call : ℕ) (a : Fin P → BroadcastArgs)
    (root : Fin P) (l : Fin P → Local α β) :
    ∃ e, Reaches (fabric P α β Unit cap)
        (start (fun r => broadcast r call (a r) root.val) l) e ∧
      ∀ r, EndsAs (broadcastEnd a root r) (e r) ∧ (e r).loc = broadcastLeft call a root l r ∧
        Halted (e r) := by
  obtain ⟨t, ht, hroot, hpeers⟩ := exists_served call a root cap l
  -- those behind a peer that refuses post their receive and wait
  let e : Fin P → RankState P α β Unit := fun r =>
    if r ≠ root ∧ Unserved a root r then
      { t r with
        proc := .pollRecv (peerAnswer a r)
        recvQ := Function.update (fun _ => []) root [broadcastWr call a r r] }
    else t r
  have hte : Reaches (fabric P α β Unit cap) t e := by
    refine reaches_of_moves fun r => ?_
    by_cases hr : r ≠ root ∧ Unserved a root r
    · have hquiet := (hpeers r hr.1).2 hr.2
      refine Moves.one .op ?_
      simp [fabric, actStep, opStep, hquiet.proc, peerProc, hquiet.recvQ, e, hr]
    · simp only [e, if_neg hr]
      exact .refl
  refine ⟨e, ht.trans hte, fun r => ?_⟩
  by_cases hr : r = root
  · subst r
    have he : e root = t root := if_neg (by simp)
    have hends : EndsAs (broadcastEnd a root root) (e root) := by
      rw [he, broadcastEnd, if_pos rfl]
      split_ifs with hq
      · exact hroot.proc.trans (if_pos hq)
      · exact hroot.proc.trans (if_neg hq)
    refine ⟨hends, ?_, hends.halted (he ▸ hroot.sendQ) (he ▸ hroot.acks)⟩
    rw [he, hroot.loc, broadcastLeft, if_pos (Or.inl rfl)]
  by_cases hserved : Unserved a root r
  · have hquiet := (hpeers r hr).2 hserved
    have he : e r = _ := if_pos ⟨hr, hserved⟩
    have hends : EndsAs (broadcastEnd a root r) (e r) := by
      rw [broadcastEnd, if_neg hr, if_pos hserved, he]
      exact ⟨_, rfl, hquiet.recvCq⟩
    refine ⟨hends, ?_, hends.halted (he ▸ hquiet.sendQ) (he ▸ hquiet.acks)⟩
    rw [he, broadcastLeft, if_pos (Or.inr hserved)]
    exact hquiet.loc
  · have hquiet := (hpeers r hr).1 hserved
    have he : e r = t r := if_neg fun h => hserved h.2
    have hends : EndsAs (broadcastEnd a root r) (e r) :=
      endsAs_peerAnswer hr hserved (he ▸ hquiet.proc)
    refine ⟨hends, ?_, hends.halted (he ▸ hquiet.sendQ) (he ▸ hquiet.acks)⟩
    rw [he, hquiet.loc, broadcastLeft, if_neg (not_or.mpr ⟨hr, hserved⟩)]

theorem broadcast_in_region {cap : Fin P → Fin P → ℕ} {call : ℕ} {a : Fin P → BroadcastArgs}
    (ha : ∀ r, (a r).Fits) {root : Fin P} {l : Fin P → Local α β}
    {s : Fin P → RankState P α β Unit} (hs : Reaches (fabric P α β Unit cap)
      (start (fun r => broadcast r call (a r) root.val) l) s) (r : Fin P) :
    (∀ y ∈ (s r).sent, y.2.mr = (a r).mr ∧ y.2.off + y.2.length ≤ (a r).mr.length) ∧
      ∀ e ∈ (s r).log, e.2.2.mr = (a r).mr ∧ e.2.2.off + e.2.2.length ≤ (a r).mr.length := by
  have halong : Along (fun _ _ => True) (roundsEvents (broadcastRounds call a root) r) (s r) := by
    refine Follows.along (p := fun r => broadcast r call (a r) root.val) ?_ hs
    rw [broadcast_eq]
    exact rounds_follows fun _ _ _ _ _ _ => trivial
  have hend : 0 + szMul (a r).count 4 % 2 ^ 32 ≤ (a r).mr.length := by
    rw [(ha r).bytes.2, Nat.zero_add]
    exact (ha r).1
  constructor
  · intro y hy
    have hmem := halong.sent_prefix.subset hy
    rw [sendsPosted_roundsEvents] at hmem
    obtain ⟨G, hG, hsend⟩ := List.mem_flatMap.mp hmem
    obtain ⟨peer, -, rfl⟩ := List.mem_map.mp hG
    obtain ⟨-, -, -, hwr⟩ := broadcastRound_send (Option.mem_toList.mp hsend)
    rw [hwr]
    exact ⟨rfl, hend⟩
  · intro e he
    have hmem := halong.log_prefix.subset (List.mem_map_of_mem he)
    rw [recvsPosted_roundsEvents] at hmem
    obtain ⟨G, hG, hrecv⟩ := List.mem_flatMap.mp hmem
    obtain ⟨peer, -, rfl⟩ := List.mem_map.mp hG
    obtain ⟨⟨q, v⟩, hv, heq⟩ := List.mem_map.mp hrecv
    obtain ⟨-, -, -, -, rfl⟩ := broadcastRound_recv (Option.mem_toList.mp hv)
    rw [← congrArg Prod.snd heq]
    exact ⟨rfl, hend⟩

/-- Whatever counts the ranks pass, as long as each fits its own region and is below 4 GiB: every
run of `broadcast` goes on to one and the same end, no rank returns or throws in it in any other
way, and no request leaves its region. All ranks return exactly if all counts are that of the root.
-/
theorem broadcast_outcome (cap : Fin P → Fin P → ℕ) (call : ℕ) {a : Fin P → BroadcastArgs}
    (ha : ∀ r, (a r).Fits) (root : Fin P) (l : Fin P → Local α β) :
    ∃ e, Reaches (fabric P α β Unit cap)
        (start (fun r => broadcast r call (a r) root.val) l) e ∧ Final (fabric P α β Unit cap) e ∧
      (∀ r, EndsAs (broadcastEnd a root r) (e r) ∧ (e r).loc = broadcastLeft call a root l r) ∧
      (∀ s, Reaches (fabric P α β Unit cap)
        (start (fun r => broadcast r call (a r) root.val) l) s →
        Reaches (fabric P α β Unit cap) s e ∧
        ∀ r, ((s r).proc = .pure () → broadcastEnd a root r = some (.ok ()) ∧
            (s r).loc = broadcastLeft call a root l r) ∧
          (∀ x, (s r).proc = .throw x → broadcastEnd a root r = some (.error x)) ∧
          (∀ y ∈ (s r).sent, y.2.mr = (a r).mr ∧ y.2.off + y.2.length ≤ (a r).mr.length) ∧
          ∀ d ∈ (s r).log, d.2.2.mr = (a r).mr ∧ d.2.2.off + d.2.2.length ≤ (a r).mr.length) ∧
      ((∀ r, (e r).proc = .pure ()) ↔ ∀ q, (a q).count = (a root).count) := by
  obtain ⟨e, hse, hend⟩ := exists_broadcast_end cap call a root l
  have hd : ∀ r, Disciplined none none (broadcast (α := α) (β := β) r call (a r) root.val) :=
    fun r => broadcast_disciplined r
  have hhalt := fun r => (hend r).2.2
  refine ⟨e, hse, final_of_halted hhalt, fun r => ⟨(hend r).1, (hend r).2.1⟩, fun s hs =>
    ⟨reaches_end hd hse hhalt hs, fun r =>
      ⟨fun hr => ?_, fun x hr => ?_, broadcast_in_region ha hs r⟩⟩, ?_⟩
  · obtain ⟨hproc, hloc⟩ := returned_at_end hd hse hhalt hs hr
    exact ⟨(hend r).1.of_pure hproc, hloc.symm.trans (hend r).2.1⟩
  · exact (hend r).1.of_throw (thrown_at_end hd hse hhalt hs hr)
  · rw [← broadcastEnd_ok_iff ha]
    refine forall_congr' fun r => ⟨fun hr => (hend r).1.of_pure hr, fun hr => ?_⟩
    have hends := (hend r).1
    rwa [hr] at hends

def threeTwoThree (r : Fin 3) : BroadcastArgs :=
  if r = 1 then ⟨⟨0, 8⟩, 0, 2, .int32⟩ else ⟨⟨0, 12⟩, 0, 3, .int32⟩

theorem broadcast_outcome_three_two_three :
    ∃ e, Reaches (fabric 3 ℕ Unit Unit fun _ _ => 1) (start (fun r => broadcast r 0
        (threeTwoThree r) 0) fun r => ⟨fun _ i => 10 * r + i, ()⟩) e ∧
      (e 0).proc = .throw (completionError .remInvReqErr) ∧
      (e 1).proc = .throw (completionError .locLenErr) ∧ ∃ k, (e 2).proc = .pollRecv k := by
  have hfits : ∀ r, (threeTwoThree r).Fits := by
    intro r
    unfold threeTwoThree
    split_ifs <;> constructor <;> decide
  obtain ⟨e, he, -, hend, -, -⟩ := broadcast_outcome (fun _ _ => 1) 0 hfits 0
    fun r => (⟨fun _ i => 10 * r + i, ()⟩ : Local ℕ Unit)
  refine ⟨e, he, (hend 0).1, (hend 1).1, ?_⟩
  obtain ⟨k, hk, -⟩ := (hend 2).1
  exact ⟨k, hk⟩

end MicroCcl

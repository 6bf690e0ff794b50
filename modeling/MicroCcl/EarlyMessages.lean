import MicroCcl.EarlyReturn
import MicroCcl.Sessions

namespace MicroCcl
open Network

variable {P : ℕ} {α β A : Type}

/-- The process begins by posting. -/
def PostsAtOnce (p : Proc P α β A) : Prop :=
  (∃ q wr k, p = .postRecv q wr k) ∨ ∃ q wr k, p = .postSend q wr k

theorem Xfer.postsAtOnce {x : Xfer P α β} (hx : x.recv ≠ none ∨ x.send ≠ none)
    (k : Unit → Proc P α β A) : PostsAtOnce (x.proc >>= k) := by
  obtain ⟨_ | ⟨q, v⟩, _ | ⟨q', wr⟩⟩ := x
  · simp at hx
  · exact Or.inr ⟨q', wr, _, rfl⟩
  · exact Or.inl ⟨q, v.wr, _, rfl⟩
  · exact Or.inl ⟨q, v.wr, _, rfl⟩

theorem roundsProc_postsAtOnce {G : Round P α β} (Gs : List (Round P α β)) {r : Fin P}
    (hG : (G r).recv ≠ none ∨ (G r).send ≠ none) (k : Unit → Proc P α β A) :
    PostsAtOnce (roundsProc (G :: Gs) r >>= k) := by
  rw [roundsProc_cons, bind_assoc]
  exact Xfer.postsAtOnce hG _

/-- The call moves something, if only messages of length 0. -/
def Call.Moving : Call P → Prop
  | .allreduceRing a => ∀ r, 0 < (a r).count
  | .barrier => False
  | _ => True

section Root

variable {root : Fin P} (hroot : root.val = 0) (hP : 2 ≤ P)
include hroot hP

theorem allreduceRing_postsAtOnce {a : Fin P → AllreduceArgs} (hcount : 0 < (a root).count)
    (ops : Ops α) (call : ℕ) (k : Unit → Proc P α β A) :
    PostsAtOnce (roundsProc (ringRounds ops call a) root >>= k) := by
  obtain ⟨n, hn⟩ : ∃ n, P - 1 = n + 1 := ⟨P - 2, by omega⟩
  rw [ringRounds, hn, List.range_succ_eq_map, List.map_cons, List.cons_append]
  apply roundsProc_postsAtOnce
  -- in step 0 rank 0 sends chunk 0, which is the largest
  have hchunk : 0 < chunkCount (a root).count P (back P root 0) := by
    have hback : back P root 0 = 0 := by simp [back, hroot]
    rw [hback, chunkCount_zero (by omega)]
    exact Nat.div_pos (by omega) (by omega)
  refine Or.inr ?_
  simp only [reduceScatterRound, ringXfer]
  rw [if_pos (show 0 < (chunkAt (a root).count P (back P root 0)).count from hchunk)]
  exact Option.some_ne_none _

theorem broadcast_postsAtOnce (a : Fin P → BroadcastArgs) (source : Fin P) (call : ℕ)
    (k : Unit → Proc P α β A) :
    PostsAtOnce (roundsProc (broadcastRounds call a source) root >>= k) := by
  obtain ⟨n, rfl⟩ : ∃ n, P = n + 2 := ⟨P - 2, by omega⟩
  obtain rfl : root = 0 := Fin.ext hroot
  rw [broadcastRounds, List.finRange_succ, List.map_cons]
  by_cases h0 : source = 0
  · -- nobody serves the source itself; then it sends to rank 1
    subst h0
    have hidle : broadcastRound (α := α) (β := β) call a 0 0 0 = ⟨none, none⟩ := by
      simp [broadcastRound]
    rw [List.finRange_succ, List.map_cons, List.map_cons, roundsProc_cons, hidle, idle_proc,
      Proc.pure_bind']
    apply roundsProc_postsAtOnce
    simp [broadcastRound]
  · apply roundsProc_postsAtOnce
    simp [broadcastRound, Ne.symm h0]

theorem Call.Ready.postsAtOnce {c : Call P} (hc : c.Ready) (hmove : c.Moving) (ops : Ops α)
    (call : ℕ) (k : Unit → Proc P α β A) : PostsAtOnce (c.proc ops root call >>= k) := by
  obtain ⟨n, hn⟩ : ∃ n, P - 1 = n + 1 := ⟨P - 2, by omega⟩
  cases c with
  | allreduceRing a =>
    obtain ⟨count, dtype, op, h⟩ := hc
    rw [Call.proc, h.allreduceRing_eq]
    exact allreduceRing_postsAtOnce hroot hP (hmove root) ops call k
  | allreduceRecursiveDoubling a =>
    obtain ⟨⟨m, hm⟩, count, dtype, op, h⟩ := hc
    obtain ⟨m, rfl⟩ : ∃ n, m = n + 1 := Nat.exists_eq_succ_of_ne_zero (by rintro rfl; omega)
    rw [Call.proc, h.allreduceRecursiveDoubling_eq hm, doublingRounds, List.range_succ_eq_map,
      List.map_cons]
    exact roundsProc_postsAtOnce _ (Or.inl (Option.some_ne_none _)) k
  | allgather a =>
    obtain ⟨count, h⟩ := hc
    rw [Call.proc, h.allgather_eq, allgatherRounds, hn, List.range_succ_eq_map, List.map_cons]
    exact roundsProc_postsAtOnce _ (Or.inl (Option.some_ne_none _)) k
  | broadcast a source =>
    obtain ⟨⟨source, rfl⟩, count, h⟩ := hc
    rw [Call.proc, broadcast_eq]
    exact broadcast_postsAtOnce hroot hP a source call k
  | barrier => exact hmove.elim

end Root

/-- A rank that comes to a collective without a barrier posts without hearing from anybody. -/
theorem works_moves_to_post {cap : Fin P → Fin P → ℕ} {root : Fin P} (hroot : root.val = 0)
    (hP : 2 ≤ P) {ws : List (Work P α)} (hws : ∀ w ∈ ws, w.Ready)
    (hmove : ∀ c, Work.call c ∈ ws → c ≠ .barrier → c.Moving) (hmeets : ¬ MeetsFirst ws)
    (ops : Ops α) (call round : ℕ) {st : RankState P α (Comm P) Unit}
    (hst : st.proc = works ops root call round ws) :
    ∃ st', Moves (fabric P α (Comm P) Unit cap) root st st' ∧ st'.HasPosted := by
  induction ws generalizing call st with
  | nil => exact absurd trivial hmeets
  | cons w ws ih =>
    have hrest := fun v hv => hws v (List.mem_cons_of_mem w hv)
    cases w with
    | touch f =>
      let st₁ : RankState P α (Comm P) Unit :=
        { st with
          proc := works ops root (call + 1) round ws
          loc := { st.loc with mem := f root st.loc.mem } }
      have hstep : Moves (fabric P α (Comm P) Unit cap) root st st₁ :=
        Moves.one Act.op (by simp [fabric, actStep, opStep, hst, works, Work.proc, st₁])
      have hst₁ : st₁.proc = works ops root (call + 1) round ws := rfl
      obtain ⟨st', hmoves, hposted⟩ := ih hrest
        (fun c hc => hmove c (List.mem_cons_of_mem _ hc)) hmeets (call + 1) hst₁
      exact ⟨st', hstep.trans hmoves, hposted⟩
    | call c =>
      have hne : c ≠ .barrier := hmeets
      rw [works, Work.proc, countedCall_of_ne hne] at hst
      have hready : c.Ready := hws (.call c) (by simp)
      have hfirst := hready.postsAtOnce hroot hP (hmove c (by simp) hne) ops call
        fun _ => works ops root (call + 1) (nextRound round c) ws
      rw [← hst] at hfirst
      obtain ⟨q, wr, k, hk⟩ | ⟨q, wr, k, hk⟩ := hfirst
      · refine ⟨_, Moves.one Act.op (by simp [fabric, actStep, opStep, hk]; rfl), ?_⟩
        exact Or.inr (Or.inl ⟨q, by simp⟩)
      · refine ⟨_, Moves.one Act.op (by simp [fabric, actStep, opStep, hk]; rfl), ?_⟩
        exact Or.inl ⟨q, by simp⟩

/-- As long as the entries of all ranks can be counted in 32 bits: that no rank posts before all
queue pairs are in RTS, whatever the sockets buffer, holds exactly of the sessions that begin with a
barrier. -/
theorem session_connected_iff (hP : 2 ≤ P) (hlen : P * (P - 1) < 2 ^ 32) (E : Setup P)
    {ws : List (Work P α)} (hws : ∀ w ∈ ws, w.Ready)
    (hmove : ∀ c, Work.call c ∈ ws → c ≠ .barrier → c.Moving) (ops : Ops α) (m : Fin P → Mem α) :
    (∀ cap : Fin P → Fin P → ℕ, (∀ i j, 0 < cap i j) →
      ∀ s, Reaches (fabric P α (Comm P) Unit cap) (startSession E ops ws m) s →
      ∀ r, (s r).HasPosted → ∀ x q, q ≠ x →
        ∃ qp, (s x).loc.vars.qps q = some qp ∧ qp.state = .rts) ↔ MeetsFirst ws := by
  constructor
  · intro hready
    by_contra hmeets
    let root : Fin P := ⟨0, by omega⟩
    let peer : Fin P := ⟨1, by omega⟩
    have hne : peer ≠ root := by simp [peer, root]
    let cap : Fin P → Fin P → ℕ := fun _ _ => reflectedBytes P + 1
    have hcap : ∀ i j, 0 < cap i j := fun _ _ => Nat.succ_pos _
    have hlt : P < 2 ^ 31 := by
      by_contra hge
      have : 2 ^ 31 * 4 ≤ P * (P - 1) := Nat.mul_le_mul (by omega) (by omega)
      omega
    obtain ⟨s, hs, hret, hinit⟩ :=
      root_returns_first hcap (fun _ _ => Nat.le_succ _) E hlt root rfl m
    -- the same run, with the rest of the session to come
    have hgo := reaches_bind hs fun r _ => works ops r 0 1 ws
    have hnext : ((s root).bind fun _ => works ops root 0 1 ws).proc = works ops root 0 1 ws := by
      simp [RankState.bind, hret]
    obtain ⟨st', hmoves, hposted⟩ :
        ∃ st', Moves (fabric P α (Comm P) Unit cap) root _ st' ∧ st'.HasPosted :=
      works_moves_to_post rfl hP hws hmove hmeets ops 0 1 hnext
    have hreach := hgo.trans (Moves.reaches (N := fabric P α (Comm P) Unit cap)
      (s := fun r => (s r).bind fun _ => works ops r 0 1 ws) hmoves)
    obtain ⟨qp, hqp, hstate⟩ := hready cap hcap _ hreach root
      (by rw [Function.update_self]; exact hposted) peer root hne.symm
    rw [Function.update_of_ne hne] at hqp
    obtain rfl := Option.some.inj ((hinit peer hne).symm.trans hqp)
    exact initQp_not_ready E peer root (Or.inr hstate)
  · intro hmeets cap hcap s hs r hr x q hq
    exact session_connected cap hcap hlen E hws hmeets ops m hs hr x q hq

/-- Without the barrier of `fillMeetSum`, some run of it posts too early. -/
theorem session_connected_iff_fillMeetSum :
    ¬ ∀ cap : Fin 2 → Fin 2 → ℕ, (∀ i j, 0 < cap i j) →
      ∀ s, Reaches (fabric 2 ℕ (Comm 2) Unit cap) (startSession twoPorts (fun _ _ u v => u + v)
        (fillMeetSum.eraseIdx 1) fun _ _ _ => 0) s →
      ∀ r, (s r).HasPosted → ∀ x q, q ≠ x →
        ∃ qp, (s x).loc.vars.qps q = some qp ∧ qp.state = .rts := by
  have hready : ∀ w ∈ fillMeetSum.eraseIdx 1, w.Ready := fun w hw =>
    fillMeetSum_ready w (List.mem_of_mem_eraseIdx hw)
  rw [session_connected_iff le_rfl (by decide) twoPorts hready]
  · simp [fillMeetSum, MeetsFirst]
  · intro c hc _
    obtain rfl : c = _ := by simpa [fillMeetSum] using hc
    exact fun _ => Nat.succ_pos 2

end MicroCcl

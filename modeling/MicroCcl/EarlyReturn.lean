import MicroCcl.Communicator

namespace MicroCcl
open Network

variable {P : ℕ} {α β A : Type}

/-- The process writes `n` bytes to other ranks and does nothing else. -/
inductive SendOnly (r : Fin P) : Proc P α β Unit → ℕ → Prop
  | pure : SendOnly r (.pure ()) 0
  | byte {q : Fin P} (hq : q ≠ r) (b : UInt8) (t : Tag) {k : Proc P α β Unit} {n : ℕ}
      (hk : SendOnly r k n) : SendOnly r (.sendByte q b t k) (n + 1)

theorem SendOnly.seq {r : Fin P} {p q : Proc P α β Unit} {n m : ℕ} (hp : SendOnly r p n)
    (hq : SendOnly r q m) : SendOnly r (p >>= fun _ => q) (n + m) := by
  induction hp with
  | pure => simpa using hq
  | @byte q' hq' b t k n _ ih =>
    rw [Nat.add_right_comm]
    exact .byte hq' b t ih

theorem SendOnly.forM {S : Type} {r : Fin P} {f : S → Proc P α β Unit} {ss : List S} {n : ℕ}
    (h : ∀ s ∈ ss, SendOnly r (f s) n) : SendOnly r (ss.forM f) (ss.length * n) := by
  induction ss with
  | nil =>
    rw [List.length_nil, Nat.zero_mul]
    exact .pure
  | cons s ss ih =>
    rw [List.length_cons, Nat.succ_mul, Nat.add_comm]
    exact (h s (by simp)).seq (ih fun t ht => h t (by simp [ht]))

theorem sendExact_sendOnly {r q : Fin P} (hq : q ≠ r) (bs : List UInt8) (tag : Tag) :
    SendOnly r (sendExact (α := α) (β := β) q bs tag) bs.length := by
  induction bs with
  | nil => exact .pure
  | cons b bs ih => exact .byte hq b tag ih

theorem sendTable_sendOnly {r q : Fin P} (hq : q ≠ r) (tag : Tag) (table : List Entry) :
    SendOnly r (sendTable (α := α) (β := β) q tag table) (4 + table.length * entryWireSize) := by
  apply SendOnly.seq
  · exact sendExact_sendOnly hq (putU32 _) tag
  · apply SendOnly.forM
    intro e _
    rw [← encodeEntry_length e]
    exact sendExact_sendOnly hq (encodeEntry e) tag

/-- The rank gets all its bytes out when the sockets have room for them. The others only
find more in their receive buffers. -/
theorem SendOnly.reaches {cap : Fin P → Fin P → ℕ} {r : Fin P} {p : Proc P α β Unit} {n : ℕ}
    (hp : SendOnly r p n) {k : Unit → Proc P α β A} {s : Fin P → RankState P α β A}
    (hs : (s r).proc = p >>= k) (hroom : ∀ q, ((s q).inbox r).length + n ≤ cap q r) :
    ∃ s', Reaches (fabric P α β A cap) s s' ∧ s' r = { s r with proc := k () } ∧
      ∀ q, q ≠ r → ∃ inbox, s' q = { s q with inbox := inbox } := by
  induction hp generalizing s with
  | pure =>
    refine ⟨s, .refl, ?_, fun q _ => ⟨(s q).inbox, rfl⟩⟩
    rw [show k () = (s r).proc from hs.symm]
  | @byte q hq b t k' n hk ih =>
    let st : RankState P α β A :=
      { s q with inbox := Function.update (s q).inbox r ((s q).inbox r ++ [(b, t)]) }
    let s₁ := Function.update (Function.update s r { s r with proc := k' >>= k }) q st
    have hstep : Step (fabric P α β A cap) s s₁ := by
      refine Step.comm r q Chan.tcp hq.symm (m := Msg.byte b t)
        (g := fun _ => { s r with proc := k' >>= k }) (a := WcStatus.success) ?_ ?_
      · simp [fabric, outStep, hs]
      · have := hroom q
        simp [fabric, inpStep, st]
        omega
    have hr₁ : s₁ r = { s r with proc := k' >>= k } := by simp [s₁, hq.symm]
    have hroom₁ : ∀ q', ((s₁ q').inbox r).length + n ≤ cap q' r := by
      intro q'
      have hq' := hroom q'
      by_cases h : q' = q
      · subst q'
        simp [s₁, st]
        omega
      · by_cases h' : q' = r
        · subst q'
          simp [s₁, h]
          omega
        · simp [s₁, h, h']
          omega
    obtain ⟨s', hs', hr', hrest⟩ := ih (by rw [hr₁]) hroom₁
    refine ⟨s', .head hstep hs', by rw [hr', hr₁], fun q' hq' => ?_⟩
    obtain ⟨inbox, hin⟩ := hrest q' hq'
    refine ⟨inbox, ?_⟩
    rw [hin]
    by_cases h : q' = q
    · subst q'
      simp [s₁, st]
    · simp [s₁, h, hq']

/-- The queue pair can take a message. -/
def QueuePair.ReadyToReceive (qp : QueuePair) : Prop := qp.state = .rtr ∨ qp.state = .rts

/-- The bytes that rank 0 sends to all its peers in the constructor. -/
def reflectedBytes (P : ℕ) : ℕ := (P - 1) * (4 + P * (P - 1) * entryWireSize)

/-- With buffers that hold its answers, rank 0 can return before any queue pair of the other
ranks has left INIT. -/
theorem root_returns_first {cap : Fin P → Fin P → ℕ} (hcap : ∀ i j, 0 < cap i j)
    (hroom : ∀ i j, reflectedBytes P ≤ cap i j) (E : Setup P) (hP : P < 2 ^ 31) (root : Fin P)
    (hroot : root.val = 0) (m : Fin P → Mem α) :
    ∃ s, Reaches (fabric P α (Comm P) Unit cap) (startComm E m) s ∧ (s root).proc = .pure () ∧
      ∀ q, q ≠ root → (s q).loc.vars.qps root = some (E.initQp q root) := by
  let l : Fin P → Local α (Comm P) := fun r => ⟨m r, Comm.empty⟩
  have hgather := communicator_gather_leads E hcap hP (fun _ => Proc.pure (P := P)) l
  simp only [Proc.bind_pure'] at hgather
  obtain ⟨s₁, hs₁, hq₁⟩ := hgather (startComm E m) (start_quiet _ l)
  -- rank 0 writes its answers without anybody reading them
  have hsend : SendOnly root ((peers P).forM fun q =>
      sendTable (α := α) (β := Comm P) q ⟨0, P + q⟩ (fullTable E.outgoing)) (reflectedBytes P) := by
    have hbytes : reflectedBytes P =
        (peers P).length * (4 + (fullTable E.outgoing).length * entryWireSize) := by
      simp [reflectedBytes, fullTable_outgoing_length, peers]
    rw [hbytes]
    apply SendOnly.forM
    intro q hq
    apply sendTable_sendOnly
    intro h
    exact mem_peers.mp hq (h ▸ hroot)
  obtain ⟨s₂, hs₂, hroot₂, hrest₂⟩ := hsend.reaches (s := s₁)
    (k := fun _ => (otherRanks root).forM (connectQp E root
      (routed (rankKey root) (fullTable E.outgoing))))
    ((hq₁ root).proc.trans (if_pos hroot)) fun q => by simpa [(hq₁ q).inbox] using hroom q root
  -- then it needs nobody
  have hmoves := connectLoop_straight (α := α) E (R := root)
    (fun q hq => routed_outgoing E hP hq) Unit cap root .pure (s₂ root)
    (by rw [hroot₂]; exact (Proc.bind_pure' _).symm)
  refine ⟨_, (hs₁.trans hs₂).trans hmoves.reaches, by simp, fun q hq => ?_⟩
  obtain ⟨inbox, hin⟩ := hrest₂ q hq
  rw [Function.update_of_ne hq, hin]
  simp [(hq₁ q).loc, created, onQps, hq.symm]

theorem initQp_not_ready (E : Setup P) (q r : Fin P) : ¬ (E.initQp q r).ReadyToReceive := by
  simp [QueuePair.ReadyToReceive, Setup.initQp, QueuePair.modifyToInit]

/-- That a returned constructor finds every peer ready, whatever the sockets buffer, holds in
a world of one rank only. -/
theorem returned_finds_peers_ready_iff (E : Setup P) (hP : P < 2 ^ 31) (m : Fin P → Mem α) :
    (∀ cap : Fin P → Fin P → ℕ, (∀ i j, 0 < cap i j) →
      ∀ s, Reaches (fabric P α (Comm P) Unit cap) (startComm E m) s →
      ∀ r, (s r).proc = .pure () → ∀ q, q ≠ r →
        ∃ qp, (s q).loc.vars.qps r = some qp ∧ qp.ReadyToReceive) ↔ P ≤ 1 := by
  constructor
  · intro hready
    by_contra hgt
    let root : Fin P := ⟨0, by omega⟩
    let peer : Fin P := ⟨1, by omega⟩
    have hne : peer ≠ root := by simp [peer, root]
    let cap : Fin P → Fin P → ℕ := fun _ _ => reflectedBytes P + 1
    have hcap : ∀ i j, 0 < cap i j := fun _ _ => Nat.succ_pos _
    obtain ⟨s, hs, hret, hinit⟩ :=
      root_returns_first hcap (fun _ _ => Nat.le_succ _) E hP root rfl m
    obtain ⟨qp, hqp, hstate⟩ := hready cap hcap s hs root hret peer hne
    obtain rfl := Option.some.inj ((hinit peer hne).symm.trans hqp)
    exact initQp_not_ready E peer root hstate
  · intro hle cap _ s _ r _ q hqr
    exact absurd (Fin.ext (by omega)) hqr

theorem returned_finds_peers_ready_iff_two_ports :
    ¬ ∀ cap : Fin 2 → Fin 2 → ℕ, (∀ i j, 0 < cap i j) →
      ∀ s, Reaches (fabric 2 ℕ (Comm 2) Unit cap) (startComm twoPorts fun _ _ _ => 0) s →
      ∀ r, (s r).proc = .pure () → ∀ q, q ≠ r →
        ∃ qp, (s q).loc.vars.qps r = some qp ∧ qp.ReadyToReceive := by
  rw [returned_finds_peers_ready_iff twoPorts (by decide) fun _ _ _ => 0]
  decide

/-- Two ranks with 4 KiB of socket buffer: rank 0 has its communicator, and rank 1 holds its
queue pair for rank 0 in INIT. -/
theorem returned_peer_still_init :
    ∃ s, Reaches (fabric 2 ℕ (Comm 2) Unit fun _ _ => 4096) (startComm twoPorts fun _ _ _ => 0) s ∧
      (s 0).proc = .pure () ∧
      ∃ qp, (s 1).loc.vars.qps 0 = some qp ∧ qp.state = .init ∧ ¬ qp.ReadyToReceive := by
  have hcap : ∀ i j : Fin 2, 0 < (fun _ _ : Fin 2 => 4096) i j := by decide
  obtain ⟨s, hs, hret, hinit⟩ := root_returns_first hcap (fun _ _ => by decide) twoPorts
    (by decide) 0 rfl fun _ _ _ => 0
  exact ⟨s, hs, hret, _, hinit 1 (by decide), rfl, initQp_not_ready twoPorts 1 0⟩

end MicroCcl

import MicroCcl.Bootstrap

namespace MicroCcl
open Network

inductive Mtu where
  | mtu256
  | mtu512
  | mtu1024
  | mtu2048
  | mtu4096
  deriving DecidableEq, Repr

def Mtu.val : Mtu → ℕ
  | .mtu256 => 1
  | .mtu512 => 2
  | .mtu1024 => 3
  | .mtu2048 => 4
  | .mtu4096 => 5

structure Device where
  portNum : UInt8
  activeMtu : Mtu
  infiniband : Bool
  lid : UInt16
  gidIndex : ℕ
  gid : Gid

inductive QpState where
  | reset
  | init
  | rtr
  | rts
  deriving DecidableEq, Repr

/-- `ibv_ah_attr`; the fields the code leaves at 0 are not listed. -/
structure AhAttr where
  portNum : UInt8 := 0
  isGlobal : Bool := false
  dlid : UInt16 := 0
  dgid : Gid := fun _ => 0
  sgidIndex : UInt8 := 0
  hopLimit : UInt8 := 0

/-- A queue pair with the attributes it was last given. -/
structure QueuePair where
  qpNum : UInt32
  state : QpState := .reset
  portNum : UInt8 := 0
  pathMtu : ℕ := 0
  destQpNum : UInt32 := 0
  rqPsn : UInt32 := 0
  maxDestRdAtomic : UInt8 := 0
  minRnrTimer : UInt8 := 0
  ah : AhAttr := {}
  sqPsn : UInt32 := 0
  timeout : UInt8 := 0
  retryCnt : UInt8 := 0
  rnrRetry : UInt8 := 0
  maxRdAtomic : UInt8 := 0

namespace QueuePair

def modifyToInit (device : Device) (qp : QueuePair) : QueuePair :=
  { qp with state := .init, portNum := device.portNum }

def modifyToRtr (localDevice : Device) (remote : QpEndpointInfo) (qp : QueuePair) : QueuePair :=
  { qp with
    state := .rtr
    pathMtu := min localDevice.activeMtu.val remote.mtu.toNat
    destQpNum := remote.qpNum
    rqPsn := remote.psn
    maxDestRdAtomic := 1
    minRnrTimer := 12
    ah := if localDevice.infiniband then
        { portNum := localDevice.portNum, isGlobal := false, dlid := remote.lid }
      else
        { portNum := localDevice.portNum, isGlobal := true, dgid := remote.gid
          sgidIndex := UInt8.ofNat localDevice.gidIndex, hopLimit := 1 } }

def modifyToRts (localPsn : UInt32) (qp : QueuePair) : QueuePair :=
  { qp with
    state := .rts
    sqPsn := localPsn
    timeout := 14
    retryCnt := 7
    rnrRetry := 7
    maxRdAtomic := 1 }

def localInfo (device : Device) (rank localPsn : UInt32) (qp : QueuePair) : QpEndpointInfo :=
  let info : QpEndpointInfo :=
    { rank := rank, qpNum := qp.qpNum, psn := localPsn, portNum := device.portNum
      mtu := UInt8.ofNat device.activeMtu.val }
  if device.infiniband then { info with lid := device.lid }
  else { info with gidIndex := UInt8.ofNat device.gidIndex, gid := device.gid }

end QueuePair

/-- The queue pairs of a communicator by peer, and how often `barrier` was entered and left. -/
structure Comm (P : ℕ) where
  qps : Fin P → Option QueuePair
  entered : ℕ
  returned : ℕ

/-- What is decided outside of the code: the devices, the queue pair numbers and starting
PSNs, and the order in which the hash map of outgoing infos is iterated. -/
structure Setup (P : ℕ) where
  device : Fin P → Device
  qpNum : Fin P → Fin P → UInt32
  psn : Fin P → Fin P → UInt32
  order : Fin P → List (Fin P)
  order_perm : ∀ r, (order r).Perm ((List.finRange P).filter fun q => q ≠ r)

variable {P : ℕ} {α β A : Type}

def modifyQp (peer : Fin P) (f : Option QueuePair → Option QueuePair) (l : Local α (Comm P)) :
    Local α (Comm P) :=
  { l with vars := { l.vars with qps := Function.update l.vars.qps peer (f (l.vars.qps peer)) } }

section Code

variable (E : Setup P) (R : Fin P)

def updQp (peer : Fin P) (f : Option QueuePair → Option QueuePair) : Proc P α (Comm P) Unit :=
  .upd (modifyQp peer f) (.pure ())

def otherRanks : List (Fin P) := (List.finRange P).filter fun q => q ≠ R

def Setup.newQp (peer : Fin P) : QueuePair := { qpNum := E.qpNum R peer }

/-- What the rank tells `peer` about their queue pair. -/
def Setup.info (peer : Fin P) : QpEndpointInfo :=
  ((E.newQp R peer).modifyToInit (E.device R)).localInfo (E.device R) (UInt32.ofNat R)
    (E.psn R peer)

def Setup.outgoing : List Entry := (E.order R).map fun peer => (rankKey peer, E.info R peer)

def createQp (peer : Fin P) : Proc P α (Comm P) Unit := do
  updQp peer fun _ => some (E.newQp R peer)
  updQp peer (Option.map (QueuePair.modifyToInit (E.device R)))

def connectQp (incoming : PeerMap) (peer : Fin P) : Proc P α (Comm P) Unit :=
  match incoming (rankKey peer) with
  | none => .throw (.outOfRange "unordered_map::at")
  | some info => do
    updQp peer (Option.map (QueuePair.modifyToRtr (E.device R) info))
    updQp peer (Option.map (QueuePair.modifyToRts (E.psn R peer)))

/-- `Communicator::Communicator`, after the bootstrap sockets are connected. -/
def communicator : Proc P α (Comm P) Unit := do
  (otherRanks R).forM (createQp E R)
  let incoming ← exchange R 0 (E.outgoing R)
  (otherRanks R).forM (connectQp E R incoming)

def barrier {β : Type} (call : ℕ) : Proc P α β Unit := exchange R call [] >>= fun _ => .pure ()

end Code

theorem barrier_leads {cap : Fin P → Fin P → ℕ} (hcap : ∀ i j, 0 < cap i j) (call : ℕ)
    (k : Fin P → Proc P α β A) (l : Fin P → Local α β) :
    Leads cap (fun r => barrier r call >>= fun _ => k r) l k l := by
  have hlen : (fullTable fun _ : Fin P => []).length < 2 ^ 32 := by simp [fullTable]
  simpa only [barrier, bind_assoc, Proc.pure_bind'] using
    exchange_leads hcap call hlen (fun r _ => k r) l

theorem barrier_socketOnly (R : Fin P) (call : ℕ) :
    SocketOnly (barrier (α := α) (β := β) R call) :=
  (exchange_socketOnly R call []).bind fun _ => .pure ()

def Straight (p : Proc P α β Unit) (f : Local α β → Local α β) : Prop :=
  ∀ (A : Type) (cap : Fin P → Fin P → ℕ) (r : Fin P) (k : Unit → Proc P α β A)
    (st : RankState P α β A), st.proc = p >>= k →
    Moves (fabric P α β A cap) r st { st with proc := k (), loc := f st.loc }

theorem Straight.upd (f : Local α β → Local α β) : Straight (P := P) (.upd f (.pure ())) f := by
  intro A cap r k st h
  apply Moves.one Act.op
  simp [fabric, actStep, opStep, h]

theorem Straight.seq {p q : Proc P α β Unit} {f g : Local α β → Local α β} (hp : Straight p f)
    (hq : Straight q g) : Straight (p >>= fun _ => q) (fun l => g (f l)) := by
  intro A cap r k st h
  rw [bind_assoc] at h
  exact (hp A cap r _ st h).trans (hq A cap r k _ rfl)

theorem Straight.forM {S : Type} {p : S → Proc P α β Unit} {f : S → Local α β → Local α β}
    {ss : List S} (h : ∀ s ∈ ss, Straight (p s) (f s)) :
    Straight (ss.forM p) (fun l => ss.foldl (fun l s => f s l) l) := by
  induction ss with
  | nil =>
    intro A cap r k st hst
    have hk : { st with proc := k (), loc := st.loc } = st := by
      rw [show k () = st.proc from hst.symm]
    change Moves (fabric P α β A cap) r st { st with proc := k (), loc := st.loc }
    rw [hk]
  | cons s ss ih =>
    have hrest := ih fun t ht => h t (by simp [ht])
    exact Straight.seq (h s (by simp)) hrest

theorem Straight.leads (cap : Fin P → Fin P → ℕ) {p : Fin P → Proc P α β Unit}
    {f : Fin P → Local α β → Local α β} (h : ∀ r, Straight (p r) (f r))
    (k : Fin P → Unit → Proc P α β A) (l : Fin P → Local α β) :
    Leads cap (fun r => p r >>= k r) l (fun r => k r ()) (fun r => f r (l r)) := by
  intro s hs
  refine ⟨fun r => { s r with proc := k r (), loc := f r (s r).loc }, ?_, fun r => ?_⟩
  · apply reaches_of_moves
    intro r
    exact h r A cap r (k r) (s r) (hs r).proc
  · exact { hs r with proc := rfl, loc := congrArg (f r) (hs r).loc }

theorem modifyQp_modifyQp (peer : Fin P) (f g : Option QueuePair → Option QueuePair)
    (l : Local α (Comm P)) :
    modifyQp peer g (modifyQp peer f l) = modifyQp peer (fun x => g (f x)) l := by
  simp [modifyQp]

theorem mem_otherRanks {R q : Fin P} : q ∈ otherRanks R ↔ q ≠ R := by
  simp [otherRanks]

theorem otherRanks_nodup (R : Fin P) : (otherRanks R).Nodup := (List.nodup_finRange P).filter _

def onQps (R : Fin P) (F : Fin P → Option QueuePair → Option QueuePair) (l : Local α (Comm P)) :
    Local α (Comm P) :=
  { l with vars := { l.vars with
    qps := fun q => if q = R then l.vars.qps q else F q (l.vars.qps q) } }

theorem foldl_modifyQp {ss : List (Fin P)} (hss : ss.Nodup)
    (F : Fin P → Option QueuePair → Option QueuePair) (l : Local α (Comm P)) :
    ss.foldl (fun l q => modifyQp q (F q) l) l =
      { l with vars := { l.vars with
        qps := fun q => if q ∈ ss then F q (l.vars.qps q) else l.vars.qps q } } := by
  induction ss generalizing l with
  | nil => simp
  | cons p ss ih =>
    obtain ⟨hp, hss⟩ := List.nodup_cons.mp hss
    rw [List.foldl_cons, ih hss]
    simp only [modifyQp]
    congr 2
    funext q
    by_cases hq : q = p
    · subst q
      simp [hp]
    · simp [hq]

theorem qpLoop_straight {R : Fin P} {p : Fin P → Proc P α (Comm P) Unit}
    {F : Fin P → Option QueuePair → Option QueuePair}
    (h : ∀ q, q ≠ R → Straight (p q) (modifyQp q (F q))) :
    Straight ((otherRanks R).forM p) (onQps R F) := by
  have hloop := Straight.forM fun q hq => h q (mem_otherRanks.mp hq)
  have hfold : (fun l : Local α (Comm P) =>
      (otherRanks R).foldl (fun l q => modifyQp q (F q) l) l) = onQps R F := by
    funext l
    simp only [foldl_modifyQp (otherRanks_nodup R), onQps, mem_otherRanks, ne_eq, ite_not]
  rwa [hfold] at hloop

theorem updQp_straight (peer : Fin P) (f g : Option QueuePair → Option QueuePair) :
    Straight (α := α) (updQp peer f >>= fun _ => updQp peer g)
      (modifyQp peer fun x => g (f x)) := by
  have h : Straight (α := α) (updQp peer f >>= fun _ => updQp peer g) _ :=
    Straight.seq (.upd (modifyQp peer f)) (.upd (modifyQp peer g))
  simpa only [modifyQp_modifyQp] using h

section Wiring

variable (E : Setup P)

def Setup.initQp (R peer : Fin P) : QueuePair := (E.newQp R peer).modifyToInit (E.device R)

/-- The queue pair for `peer` after the second loop, when `peer` sent what it should. -/
def Setup.wiredQp (R peer : Fin P) : QueuePair :=
  ((E.initQp R peer).modifyToRtr (E.device R) (E.info peer R)).modifyToRts (E.psn R peer)

theorem createLoop_straight (R : Fin P) :
    Straight ((otherRanks R).forM (createQp (α := α) E R))
      (onQps R fun q _ => some (E.initQp R q)) :=
  qpLoop_straight fun q _ => updQp_straight q _ _

theorem connectLoop_straight {R : Fin P} {incoming : PeerMap}
    (h : ∀ q, q ≠ R → incoming (rankKey q) = some (E.info q R)) :
    Straight ((otherRanks R).forM (connectQp (α := α) E R incoming))
      (onQps R fun q => Option.map fun qp =>
        (qp.modifyToRtr (E.device R) (E.info q R)).modifyToRts (E.psn R q)) := by
  apply qpLoop_straight
  intro q hq
  rw [connectQp, h q hq]
  have := updQp_straight (α := α) q (Option.map (QueuePair.modifyToRtr (E.device R) (E.info q R)))
    (Option.map (QueuePair.modifyToRts (E.psn R q)))
  simpa only [Option.map_map, Function.comp_def] using this

theorem length_otherRanks (R : Fin P) : (otherRanks R).length = P - 1 := by
  have := List.length_erase_of_mem (List.mem_finRange R)
  rw [(List.nodup_finRange P).erase_eq_filter, List.length_finRange] at this
  rw [← this, otherRanks]
  congr 1
  apply List.filter_congr
  intro q _
  by_cases hq : q = R <;> simp [hq]

theorem outgoing_length (R : Fin P) : (E.outgoing R).length = P - 1 := by
  rw [Setup.outgoing, List.length_map, (E.order_perm R).length_eq]
  exact length_otherRanks R

theorem fullTable_outgoing_length : (fullTable E.outgoing).length = P * (P - 1) := by
  simp [fullTable, List.length_flatMap, outgoing_length]

theorem info_mem_outgoing {R q : Fin P} (h : R ≠ q) : (rankKey q, E.info R q) ∈ E.outgoing R := by
  apply List.mem_map.mpr
  refine ⟨q, (E.order_perm R).mem_iff.mpr ?_, rfl⟩
  simp [h.symm]

theorem outgoing_signed (hP : P < 2 ^ 31) : Signed E.outgoing where
  keys R := by
    have hnd : (E.order R).Nodup := (E.order_perm R).nodup_iff.mpr (otherRanks_nodup R)
    rw [Setup.outgoing, List.map_map]
    exact hnd.map (rankKey_injective hP)
  rank R e he := by
    obtain ⟨q, -, rfl⟩ := List.mem_map.mp he
    simp only [Setup.info, QueuePair.localInfo]
    split_ifs <;> rfl

theorem routed_outgoing (hP : P < 2 ^ 31) {R q : Fin P} (h : q ≠ R) :
    routed (rankKey R) (fullTable E.outgoing) (rankKey q) = some (E.info q R) :=
  (routed_fullTable hP (outgoing_signed E hP) R _ _).mpr ⟨q, rfl, info_mem_outgoing E h⟩

def wire (R : Fin P) : Local α (Comm P) → Local α (Comm P) :=
  onQps R fun q _ => some (E.wiredQp R q)

def created (R : Fin P) : Local α (Comm P) → Local α (Comm P) :=
  onQps R fun q _ => some (E.initQp R q)

theorem communicator_gather_leads {cap : Fin P → Fin P → ℕ} (hcap : ∀ i j, 0 < cap i j)
    (hP : P < 2 ^ 31) (k : Fin P → Unit → Proc P α (Comm P) A) (l : Fin P → Local α (Comm P)) :
    Leads cap (fun r => communicator E r >>= k r) l
      (reflecting 0 (fullTable E.outgoing) fun r incoming =>
        (otherRanks r).forM (connectQp E r incoming) >>= k r) (fun r => created E r (l r)) := by
  have hcreate := Straight.leads cap (createLoop_straight (α := α) E)
    (fun r _ => exchange r 0 (E.outgoing r) >>= fun incoming =>
      (otherRanks r).forM (connectQp E r incoming) >>= k r) l
  have hout : ∀ r, (E.outgoing r).length < 2 ^ 32 := fun r => by rw [outgoing_length]; omega
  have hgather := exchange_gather_leads (A := A) hcap 0 hout
    (fun r incoming => (otherRanks r).forM (connectQp (α := α) E r incoming) >>= k r)
    fun r => created E r (l r)
  simpa only [communicator, bind_assoc] using hcreate.trans hgather

theorem communicator_leads {cap : Fin P → Fin P → ℕ} (hcap : ∀ i j, 0 < cap i j)
    (hlen : P * (P - 1) < 2 ^ 32) (k : Fin P → Unit → Proc P α (Comm P) A)
    (l : Fin P → Local α (Comm P)) :
    Leads cap (fun r => communicator E r >>= k r) l (fun r => k r ())
      (fun r => wire E r (l r)) := by
  -- the bound on the table bounds the number of ranks as well
  have hP : P < 2 ^ 31 := by
    by_contra hge
    have : 2 ^ 31 * 4 ≤ P * (P - 1) := Nat.mul_le_mul (by omega) (by omega)
    omega
  have htable : (fullTable E.outgoing).length < 2 ^ 32 := by rwa [fullTable_outgoing_length]
  have hreflect := exchange_reflect_leads (A := A) hcap 0 htable
    (fun r incoming => (otherRanks r).forM (connectQp (α := α) E r incoming) >>= k r)
    fun r => created E r (l r)
  have hconnect := Straight.leads cap
    (fun r => connectLoop_straight (α := α) E fun q hq => routed_outgoing E hP (R := r) hq) k
    fun r => created E r (l r)
  have hend : ∀ r (l : Local α (Comm P)), onQps r (fun q => Option.map fun qp =>
      (qp.modifyToRtr (E.device r) (E.info q r)).modifyToRts (E.psn r q)) (created E r l) =
      wire E r l := by
    intro r l
    -- connecting what the first loop created is wiring
    simp only [onQps, created, wire, Setup.wiredQp]
    congr 2
    funext q
    by_cases hq : q = r <;> simp [hq]
  simpa only [hend] using
    ((communicator_gather_leads E hcap hP k l).trans hreflect).trans hconnect

end Wiring

theorem updQp_disciplined (peer : Fin P) (f : Option QueuePair → Option QueuePair) :
    Disciplined none none (updQp (α := α) peer f) := ⟨rfl, rfl, rfl, rfl⟩

theorem communicator_disciplined (E : Setup P) (R : Fin P) :
    Disciplined none none (communicator (α := α) E R) := by
  apply Disciplined.bind
  · exact Disciplined.forM (fun q => (updQp_disciplined q _).bind fun _ => updQp_disciplined q _) _
  intro _
  apply (exchange_socketOnly R 0 (E.outgoing R)).disciplined.bind
  intro incoming
  apply Disciplined.forM
  intro q
  unfold connectQp
  split
  · trivial
  · exact (updQp_disciplined q _).bind fun _ => updQp_disciplined q _

def Comm.empty : Comm P := ⟨fun _ => none, 0, 0⟩

def startComm (E : Setup P) (m : Fin P → Mem α) : Fin P → RankState P α (Comm P) Unit :=
  start (fun r => communicator E r) fun r => ⟨m r, Comm.empty⟩

/-- The two queue pairs of a connection fit together. -/
structure Wired (mine theirs : QueuePair) (here there : Device) : Prop where
  state : mine.state = .rts
  destQpNum : mine.destQpNum = theirs.qpNum
  rqPsn : mine.rqPsn = theirs.sqPsn
  isGlobal : mine.ah.isGlobal = !here.infiniband
  dlid : here.infiniband = true → mine.ah.dlid = there.lid
  dgid : here.infiniband = false → mine.ah.dgid = there.gid
  pathMtu : mine.pathMtu = min here.activeMtu.val there.activeMtu.val

theorem wiredQp_wired (E : Setup P) {r q : Fin P}
    (hlink : (E.device r).infiniband = (E.device q).infiniband) :
    Wired (E.wiredQp r q) (E.wiredQp q r) (E.device r) (E.device q) := by
  have hmtu : (UInt8.ofNat (E.device q).activeMtu.val).toNat = (E.device q).activeMtu.val := by
    cases (E.device q).activeMtu <;> rfl
  cases h : (E.device q).infiniband <;> rw [h] at hlink <;>
  · constructor <;>
      simp [Setup.wiredQp, Setup.initQp, Setup.info, Setup.newQp, QueuePair.modifyToRts,
        QueuePair.modifyToRtr, QueuePair.modifyToInit, QueuePair.localInfo, h, hlink, hmtu]

/-- Once two constructors have returned, the two ranks hold the two ends of one connection, with
the same path MTU; a rank has no queue pair to itself. All constructors do return. -/
theorem communicator_wires_full_mesh (cap : Fin P → Fin P → ℕ) (hcap : ∀ i j, 0 < cap i j)
    (hlen : P * (P - 1) < 2 ^ 32) (E : Setup P)
    (hlink : ∀ r q, (E.device r).infiniband = (E.device q).infiniband) (m : Fin P → Mem α)
    {s : Fin P → RankState P α (Comm P) Unit}
    (hs : Reaches (fabric P α (Comm P) Unit cap) (startComm E m) s) :
    (∀ r, (s r).proc = .pure () → (s r).loc.vars.qps r = none) ∧
    (∀ r q, r ≠ q → (s r).proc = .pure () → (s q).proc = .pure () →
      ∃ mine theirs, (s r).loc.vars.qps q = some mine ∧ (s q).loc.vars.qps r = some theirs ∧
        mine.qpNum = E.qpNum r q ∧ theirs.qpNum = E.qpNum q r ∧ mine.sqPsn = E.psn r q ∧
        Wired mine theirs (E.device r) (E.device q) ∧ mine.pathMtu = theirs.pathMtu) ∧
    (∀ r e, (s r).proc ≠ .throw e) ∧
    ∃ e, Reaches (fabric P α (Comm P) Unit cap) s e ∧ ∀ r, (e r).proc = .pure () := by
  have hleads := communicator_leads E hcap hlen (fun _ => Proc.pure (P := P))
    fun r => (⟨m r, Comm.empty⟩ : Local α (Comm P))
  simp only [Proc.bind_pure'] at hleads
  have hd := fun r => communicator_disciplined (α := α) E r
  refine ⟨fun r hr => ?_, fun r q hrq hr hq => ?_, hleads.never_throws hd hs, ?_⟩
  · rw [(hleads.result hd hs hr).2]
    simp [wire, onQps, Comm.empty]
  · refine ⟨E.wiredQp r q, E.wiredQp q r, ?_, ?_, rfl, rfl, rfl, wiredQp_wired E (hlink r q), ?_⟩
    · rw [(hleads.result hd hs hr).2]
      simp [wire, onQps, hrq.symm]
    · rw [(hleads.result hd hs hq).2]
      simp [wire, onQps, hrq]
    · rw [(wiredQp_wired E (hlink r q)).pathMtu, (wiredQp_wired E (hlink q r)).pathMtu, min_comm]
  · obtain ⟨e, he, hq⟩ := hleads.settles hd hs
    exact ⟨e, he, fun r => (hq r).proc⟩

def twoPorts : Setup 2 where
  device r := ⟨1, if r.val = 0 then .mtu1024 else .mtu4096, false, 0, 3, fun _ => UInt8.ofNat r⟩
  qpNum r _ := UInt32.ofNat (17 + r)
  psn r _ := UInt32.ofNat (100 + r)
  order r := (List.finRange 2).filter fun q => q ≠ r
  order_perm _ := List.Perm.refl _

theorem communicator_wires_full_mesh_two_ports :
    ∃ s, Reaches (fabric 2 ℕ (Comm 2) Unit fun _ _ => 1) (startComm twoPorts fun _ _ _ => 0) s ∧
      ∃ mine, (s 0).loc.vars.qps 1 = some mine ∧ mine.destQpNum = 18 ∧ mine.rqPsn = 101 ∧
        mine.pathMtu = 3 := by
  have hall := fun s => communicator_wires_full_mesh (s := s) (fun _ _ => 1)
    (fun _ _ => Nat.one_pos) (by decide) twoPorts (fun _ _ => rfl) fun _ _ _ => 0
  obtain ⟨s, hs, hret⟩ := (hall _ .refl).2.2.2
  obtain ⟨mine, theirs, hmine, htheirs, -, hnum, -, hwired, -⟩ :=
    (hall s hs).2.1 0 1 (by decide) (hret 0) (hret 1)
  obtain ⟨mine', theirs', hmine', htheirs', -, -, hpsn, -, -⟩ :=
    (hall s hs).2.1 1 0 (by decide) (hret 1) (hret 0)
  obtain rfl : theirs = mine' := Option.some.inj (htheirs.symm.trans hmine')
  refine ⟨s, hs, mine, hmine, ?_, ?_, ?_⟩
  · rw [hwired.destQpNum, hnum]
    decide
  · rw [hwired.rqPsn, hpsn]
    decide
  · rw [hwired.pathMtu]
    decide

end MicroCcl

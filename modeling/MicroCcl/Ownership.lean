import MicroCcl.Devices
import MicroCcl.Handles

namespace MicroCcl
open Handles

def OpenDevice.probe (target : IbvDevice) : Except Exn OpenDevice := do
  let (portNum, portAttr) ← findActivePort target
  if portAttr.linkLayer = .infiniband then
    return { context := target, portNum, portAttr }
  else
    let (gidIndex, gid) ← findRoceV2GidIndex target portNum
    return { context := target, portNum, portAttr, gidIndex, gid }

def openSelected (devs : List IbvDevice) (devName : String) (list : ℕ) :
    DrvM Exn (OpenDevice × ℕ) :=
  match selectDevice devs devName with
  | .error e => do
    destroy list
    throw e
  | .ok target => do
    -- this throws without freeing the list
    let context ← create (checkCall "ibv_open_device" target.openDevice) []
    destroy list
    match ← attempt (use [context] (OpenDevice.probe target)) with
    | .error e => do
      destroy context
      throw e
    | .ok device => return (device, context)

def deviceNew (list : Except String (List IbvDevice)) (devName : String) :
    DrvM Exn (OpenDevice × ℕ) := do
  let devs ← MonadExcept.ofExcept (checkCall "ibv_get_device_list" list)
  let list ← create (.ok ()) []
  openSelected devs devName list

def deviceDelete (device : OpenDevice × ℕ) : DrvM Exn Unit := destroy device.2

def protectionDomainNew (outcome : Except String Unit) (context : ℕ) : DrvM Exn ℕ :=
  create (checkCall "ibv_alloc_pd" outcome) [context]

def completionQueueNew (outcome : Except String Unit) (context : ℕ) : DrvM Exn ℕ :=
  create (checkCall "ibv_create_cq" outcome) [context]

def queuePairNew (outcome : Except String Unit) (pd sendCq recvCq : ℕ) : DrvM Exn ℕ :=
  create (checkCall "ibv_create_qp" outcome) [pd, sendCq, recvCq]

def memoryRegionNew (outcome : Except String Unit) (pd : ℕ) : DrvM Exn ℕ :=
  create (checkCall "ibv_reg_mr" outcome) [pd]

/-- The outcomes of the calls that `Communicator::Communicator` makes. The bootstrap uses no verbs;
`exchange` gives the ranks that it has an address of. -/
structure CommCalls where
  allocPd : Except String Unit
  createSendCq : Except String Unit
  createRecvCq : Except String Unit
  bootstrap : Except Exn Unit
  createQp : ℤ → Except String Unit
  modifyToInit : ℤ → Except String Unit
  exchange : Except Exn (List ℤ)
  modifyToRtr : ℤ → Except String Unit
  modifyToRts : ℤ → Except String Unit

def noSuchPeer : Exn := .outOfRange "unordered_map::at"

def peersOf (rank worldSize : ℤ) : List ℤ :=
  ((List.range worldSize.toNat).map Int.ofNat).filter (· ≠ rank)

def connectPeers (c : CommCalls) (rank worldSize : ℤ) (pd sendCq recvCq : ℕ) :
    FillM ℤ Exn Unit :=
  if worldSize < 1 ∨ rank < 0 ∨ rank ≥ worldSize then
    throw (.invalidArgument "Communicator: invalid rank/world_size")
  else do
    (peersOf rank worldSize).forM fun peer => do
      emplace peer (checkCall "ibv_create_qp" (c.createQp peer)) [pd, sendCq, recvCq]
      useAt peer noSuchPeer (checkCall "ibv_modify_qp(INIT)" (c.modifyToInit peer))
    let incoming ← MonadExcept.ofExcept c.exchange
    (peersOf rank worldSize).forM fun peer =>
      if peer ∉ incoming then throw noSuchPeer
      else do
        useAt peer noSuchPeer (checkCall "ibv_modify_qp(RTR)" (c.modifyToRtr peer))
        useAt peer noSuchPeer (checkCall "ibv_modify_qp(RTS)" (c.modifyToRts peer))

abbrev CommMembers := ℕ × ℕ × ℕ × Unit × List (ℤ × ℕ)

/-- The order in which a hash map is cleared. -/
structure MapOrder where
  order : List (ℤ × ℕ) → List (ℤ × ℕ)
  perm : ∀ l, (order l).Perm l

def communicatorNew (c : CommCalls) (o : MapOrder) (rank worldSize : ℤ) (context : ℕ) :
    DrvM Exn CommMembers :=
  member (protectionDomainNew c.allocPd context) destroy fun pd =>
  member (completionQueueNew c.createSendCq context) destroy fun sendCq =>
  member (completionQueueNew c.createRecvCq context) destroy fun recvCq =>
  member (MonadExcept.ofExcept c.bootstrap) (fun _ => pure ()) fun _ =>
  filled o.order (connectPeers c rank worldSize pd sendCq recvCq)

def communicatorDelete (o : MapOrder) : CommMembers → DrvM Exn Unit
  | (pd, sendCq, recvCq, _, qps) => do
    clear o.order qps
    destroy recvCq
    destroy sendCq
    destroy pd

def commHandles : CommMembers → List ℕ
  | (pd, sendCq, recvCq, _, qps) => qps.map Prod.snd ++ [recvCq, sendCq, pd]

def commOwns (context : ℕ) : CommMembers → List Grant
  | (pd, sendCq, recvCq, _, qps) => entries [pd, sendCq, recvCq] qps ++
      [⟨recvCq, [context]⟩, ⟨sendCq, [context]⟩, ⟨pd, [context]⟩]

theorem fills_connectPeers (c : CommCalls) (rank worldSize : ℤ) {pd sendCq recvCq : ℕ} {d : Driver}
    (hlive : d.Live [pd, sendCq, recvCq]) :
    Fills [pd, sendCq, recvCq] d (connectPeers c rank worldSize pd sendCq recvCq) := by
  unfold connectPeers
  split_ifs
  · exact fun l d' h => h
  · refine Fills.bind (Fills.forM (fun peer => ?_) _) fun _ => ?_
    · exact (Fills.emplace hlive _ _).bind fun _ => Fills.useAt _ _ _
    · refine (Fills.ofExcept _).bind fun incoming => Fills.forM (fun peer => ?_) _
      split_ifs
      · exact (Fills.useAt _ _ _).bind fun _ => Fills.useAt _ _ _
      · exact fun l d' h => h

theorem communicator_raii (c : CommCalls) (o : MapOrder) (rank worldSize : ℤ) (context : ℕ) :
    Raii [context] (communicatorNew c o rank worldSize context) (communicatorDelete o)
      (commOwns context) := by
  have hpd : Raii [context] (protectionDomainNew c.allocPd context) destroy (single [context]) :=
    raii_create _
  have hcq : ∀ outcome, Raii [context] (completionQueueNew outcome context) destroy
      (single [context]) := fun outcome => raii_create _
  have hqps : ∀ pd sendCq recvCq, Raii [pd, sendCq, recvCq]
      (filled o.order (connectPeers c rank worldSize pd sendCq recvCq)) (clear o.order)
      (entries [pd, sendCq, recvCq]) := fun _ _ _ =>
    raii_filled o.perm fun d hlive => fills_connectPeers c rank worldSize hlive
  have hall := hpd.member fun pd => ((hcq c.createSendCq).mono (by simp)).member fun sendCq =>
    ((hcq c.createRecvCq).mono (by simp)).member fun recvCq =>
    (raii_ofExcept c.bootstrap).member fun _ => (hqps pd sendCq recvCq).mono (by simp)
  convert hall using 1
  · rfl
  · funext x
    simp only [bind_assoc, pure_bind]
    rfl
  · funext x
    simp [commOwns]

def OpenFails (list : Except String (List IbvDevice)) (devName : String) : Prop :=
  ∃ devs target why, list = .ok devs ∧ selectDevice devs devName = .ok target ∧
    target.openDevice = .error why

theorem live_nil (d : Driver) : d.Live [] := by simp [Driver.Live]

theorem exec_deviceNew (devs : List IbvDevice) (devName : String) (d : Driver) :
    exec (deviceNew (.ok devs) devName) d = exec (openSelected devs devName d.next) (d.add []) := by
  have hdevs : exec (MonadExcept.ofExcept (checkCall "ibv_get_device_list" (.ok devs)) :
      DrvM Exn (List IbvDevice)) d = (.ok devs, d) := exec_ofExcept _
  rw [deviceNew, exec_bind_ok hdevs, exec_bind_ok (exec_create_ok (live_nil d))]

theorem openDevice_eq (devs : List IbvDevice) (devName : String) :
    openDevice (.ok devs) devName = selectDevice devs devName >>= fun target =>
      checkCall "ibv_open_device" target.openDevice >>= fun _ => OpenDevice.probe target := rfl

theorem device_throws {list : Except String (List IbvDevice)} {devName : String}
    (h : OpenFails list devName) (d : Driver) :
    ∃ e, exec (deviceNew list devName) d = (.error e, d.add []) ∧
      openDevice list devName = .error e := by
  obtain ⟨devs, target, why, rfl, hselect, hopen⟩ := h
  refine ⟨.runtimeError ("ibv_open_device" ++ ": " ++ why), ?_, ?_⟩
  · rw [exec_deviceNew, openSelected, hselect]
    simp only [hopen, checkCall]
    rw [exec_bind, exec_create_error (live_nil _)]
  · rw [openDevice_eq, hselect]
    change checkCall _ target.openDevice >>= _ = _
    rw [hopen]
    rfl

theorem openSelected_ends {devs : List IbvDevice} {devName : String} {d d₁ : Driver} {list : ℕ}
    (h : ¬ OpenFails (.ok devs) devName) (hlist : d.Grew (single [] list) d₁) :
    (∃ e d', exec (openSelected devs devName list) d₁ = (.error e, d') ∧ d.Same d' ∧
        openDevice (.ok devs) devName = .error e) ∨
      ∃ device d', exec (openSelected devs devName list) d₁ = (.ok device, d') ∧
        d.Grew (single [] device.2) d' ∧ openDevice (.ok devs) devName = .ok device.1 := by
  have hfree : ∀ {d d' : Driver} {x : ℕ}, d.Grew (single [] x) d' →
      ∃ d'', exec (destroy x : DrvM Exn Unit) d' = (.ok (), d'') ∧ d.Same d'' :=
    fun hgrew => (raii_create (.ok ())).gives_back (live_nil _) hgrew
  rw [openSelected, openDevice_eq]
  cases hselect : selectDevice devs devName with
  | error e =>
    obtain ⟨d', hd', hback⟩ := hfree hlist
    exact Or.inl ⟨e, d', exec_bind_ok hd', hback, rfl⟩
  | ok target =>
    have hopen : target.openDevice = .ok () := by
      cases hres : target.openDevice with
      | error why => exact absurd ⟨devs, target, why, rfl, hselect, hres⟩ h
      | ok u => rfl
    have hboth : d.Grew (single [] d₁.next ++ ⟨list, []⟩ :: []) (d₁.add []) :=
      hlist.trans (Driver.grew_add (live_nil d₁))
    -- the list goes first, under the context
    obtain ⟨d₂, hd₂, hcontext⟩ : ∃ d₂, exec (destroy list : DrvM Exn Unit) (d₁.add []) =
        (.ok (), d₂) ∧ d.Grew (single [] d₁.next) d₂ := exec_destroy hboth (by simp)
    have hprobe : exec (use [d₁.next] (OpenDevice.probe target)) d₂ =
        (OpenDevice.probe target, d₂) := by
      refine exec_use ?_ _
      simpa using hcontext.live_append (live_nil d)
    have hselected : (Except.ok target >>= fun target => checkCall "ibv_open_device"
        target.openDevice >>= fun _ => OpenDevice.probe target) = OpenDevice.probe target := by
      change checkCall _ target.openDevice >>= _ = _
      rw [hopen]
      rfl
    rw [hselected]
    simp only [hopen, checkCall]
    rw [exec_bind_ok (exec_create_ok (live_nil d₁)), exec_bind_ok hd₂,
      exec_bind_ok (exec_attempt _ _), hprobe]
    cases OpenDevice.probe target with
    | error e =>
      obtain ⟨d', hd', hback⟩ := hfree hcontext
      exact Or.inl ⟨e, d', exec_bind_ok hd', hback, rfl⟩
    | ok device => exact Or.inr ⟨(device, d₁.next), d₂, rfl, hcontext, rfl⟩

theorem device_raii {list : Except String (List IbvDevice)} {devName : String}
    (h : ¬ OpenFails list devName) :
    Raii [] (deviceNew list devName) deviceDelete fun device => single [] device.2 := by
  refine .of_ends (by simp) (fun {d} _ => ?_)
    fun hlive hgrew => (raii_create (.ok ())).gives_back hlive hgrew
  cases list with
  | error why => exact Or.inl ⟨_, d, rfl, .refl d⟩
  | ok devs =>
    rw [Ends, exec_deviceNew]
    obtain ⟨e, d', hd', hsame, -⟩ | ⟨device, d', hd', hgrew, -⟩ :=
      openSelected_ends h (Driver.grew_add (live_nil d))
    · exact Or.inl ⟨e, d', hd', hsame⟩
    · exact Or.inr ⟨device, d', hd', hgrew⟩

theorem deviceNew_result (list : Except String (List IbvDevice)) (devName : String) (d : Driver) :
    (exec (deviceNew list devName) d).1.map Prod.fst = openDevice list devName := by
  by_cases h : OpenFails list devName
  · obtain ⟨e, hd, he⟩ := device_throws h d
    rw [hd, he]
    rfl
  · cases list with
    | error why => rfl
    | ok devs =>
      rw [exec_deviceNew]
      obtain ⟨e, d', hd, -, he⟩ | ⟨device, d', hd, -, he⟩ :=
        openSelected_ends h (Driver.grew_add (live_nil d))
      · rw [hd, he]
        rfl
      · rw [hd, he]
        rfl

/-- The outcomes of all calls in a run of one of the programs. `regMr` is asked for one region after
the other, `work` for what is done between them and whether it passes the check behind it. -/
structure MainCalls where
  options : Except Exn Unit
  devices : Except String (List IbvDevice)
  rank : ℤ
  worldSize : ℤ
  comm : CommCalls
  order : MapOrder
  regMr : ℕ → Except String Unit
  work : ℕ → Except Exn Bool

section Mains

variable (c : MainCalls)

def withRegions (block : CommMembers → List ℕ → DrvM Exn ℕ) : DrvM Exn ℕ :=
  scope (deviceNew c.devices "") deviceDelete fun device =>
  scope (communicatorNew c.comm c.order c.rank c.worldSize device.2) (communicatorDelete c.order)
    fun comm =>
  scope (memoryRegionNew (c.regMr 0) comm.1) destroy fun dataMr =>
  scope (memoryRegionNew (c.regMr 1) comm.1) destroy fun scratchMr =>
  block comm (scratchMr :: dataMr :: commHandles comm)

def benchMain : DrvM Exn ℕ :=
  withRegions c fun _ hs => do
    let _ ← use hs (c.work 0)
    return 0

def mismatchedScratchRunRank : DrvM Exn ℕ :=
  withRegions c fun _ hs => do
    let _ ← use hs (c.work 0)
    return 1

/-- `run_rank` of `integration_allreduce_4rank`: it returns at the first check that fails. -/
def allreduceRunRank : DrvM Exn ℕ :=
  withRegions c fun comm hs => do
    if ← use hs (c.work 0) then
      scope (memoryRegionNew (c.regMr 2) comm.1) destroy fun rdScratchMr => do
        if ← use (rdScratchMr :: hs) (c.work 1) then
          scope (memoryRegionNew (c.regMr 3) comm.1) destroy fun gatherMr => do
            if ← use (gatherMr :: rdScratchMr :: hs) (c.work 2) then return 0 else return 1
        else return 1
    else return 1

/-- `main` of `pingpong`, after the options. `compute_stats` without a sample is left out: rank 0
crashes there, with every handle live. -/
def pingpongMain : DrvM Exn ℕ :=
  scope (deviceNew c.devices "") deviceDelete fun device =>
    scope (protectionDomainNew c.comm.allocPd device.2) destroy fun pd =>
    scope (completionQueueNew c.comm.createSendCq device.2) destroy fun sendCq =>
    scope (completionQueueNew c.comm.createRecvCq device.2) destroy fun recvCq =>
    scope (queuePairNew (c.comm.createQp 0) pd sendCq recvCq) destroy fun qp =>
    scope (memoryRegionNew (c.regMr 0) pd) destroy fun sendMr =>
    scope (memoryRegionNew (c.regMr 1) pd) destroy fun recvMr => do
      use [qp] (checkCall "ibv_modify_qp(INIT)" (c.comm.modifyToInit 0))
      scope (MonadExcept.ofExcept c.comm.bootstrap) (fun _ => pure ()) fun _ => do
        let incoming ← MonadExcept.ofExcept c.comm.exchange
        if 1 - c.rank ∉ incoming then throw noSuchPeer
        else do
          use [qp] (checkCall "ibv_modify_qp(RTR)" (c.comm.modifyToRtr 0))
          use [qp] (checkCall "ibv_modify_qp(RTS)" (c.comm.modifyToRts 0))
          let _ ← use [recvMr, sendMr, qp, recvCq, sendCq] (c.work 0)
          return 0

theorem handles_commOwns (context : ℕ) (comm : CommMembers) :
    handles (commOwns context comm) = commHandles comm := by
  simp [commOwns, commHandles]

theorem pd_mem_commHandles (comm : CommMembers) : comm.1 ∈ commHandles comm := by
  simp [commHandles]

variable {c}

theorem memoryRegion_raii {hs : List ℕ} (outcome : Except String Unit) {pd : ℕ} (hpd : pd ∈ hs) :
    Raii hs (memoryRegionNew outcome pd) destroy (single [pd]) :=
  (raii_create _).mono (by simpa using hpd)

theorem withRegions_neutral (h : ¬ OpenFails c.devices "")
    {block : CommMembers → List ℕ → DrvM Exn ℕ}
    (hblock : ∀ comm hs, commHandles comm ⊆ hs → Neutral hs (block comm hs)) :
    Neutral [] (withRegions c block) := by
  refine (device_raii h).scope fun device => ?_
  refine ((communicator_raii c.comm c.order c.rank c.worldSize device.2).mono (by simp)).scope
    fun comm => ?_
  rw [handles_commOwns]
  have hpd := pd_mem_commHandles comm
  refine (memoryRegion_raii _ (List.mem_append_left _ hpd)).scope fun dataMr => ?_
  refine (memoryRegion_raii _ ?_).scope fun scratchMr => ?_
  · exact List.mem_append_right _ (List.mem_append_left _ hpd)
  · refine (hblock comm (scratchMr :: dataMr :: commHandles comm) ?_).mono ?_
    · exact fun x hx => by simp [hx]
    · exact List.cons_subset_cons _ (List.cons_subset_cons _ (List.subset_append_left _ _))

theorem allreduceRunRank_neutral (h : ¬ OpenFails c.devices "") :
    Neutral [] (allreduceRunRank c) := by
  refine withRegions_neutral h fun comm hs hcomm => (neutral_use _).bind fun ok => ?_
  have hpd := hcomm (pd_mem_commHandles comm)
  cases ok with
  | false => exact neutral_pure _
  | true =>
    refine (memoryRegion_raii _ hpd).scope fun rdScratchMr => (neutral_use _).bind fun ok => ?_
    cases ok with
    | false => exact neutral_pure _
    | true =>
      refine (memoryRegion_raii _ (List.mem_append_right _ hpd)).scope fun gatherMr =>
        (neutral_use _).bind fun ok => ?_
      cases ok with
      | false => exact neutral_pure _
      | true => exact neutral_pure _

theorem pingpongMain_neutral (h : ¬ OpenFails c.devices "") : Neutral [] (pingpongMain c) := by
  refine (device_raii h).scope fun device => ?_
  have hcq : ∀ {hs : List ℕ} (outcome : Except String Unit), device.2 ∈ hs →
      Raii hs (completionQueueNew outcome device.2) destroy (single [device.2]) :=
    fun outcome hmem => (raii_create _).mono (by simpa using hmem)
  refine (raii_create _).scope fun pd => ?_
  refine (hcq _ (by simp)).scope fun sendCq => (hcq _ (by simp)).scope fun recvCq => ?_
  refine ((raii_create (checkCall "ibv_create_qp" _)).mono (by simp)).scope fun qp => ?_
  refine (memoryRegion_raii _ (by simp)).scope fun sendMr => ?_
  refine (memoryRegion_raii _ (by simp)).scope fun recvMr => ?_
  have huse : ∀ {hs : List ℕ} (outcome : Except Exn Unit), qp ∈ hs →
      Neutral hs (use [qp] outcome) := fun outcome hmem =>
    (neutral_use outcome).mono (by simpa using hmem)
  refine (huse _ (by simp)).bind fun _ => (raii_ofExcept _).scope fun _ => ?_
  refine (neutral_ofExcept _).bind fun incoming => ?_
  split_ifs
  · exact (huse _ (by simp)).bind fun _ => (huse _ (by simp)).bind fun _ =>
      ((neutral_use _).mono (by simp)).bind fun _ => neutral_pure _
  · exact neutral_throw _

end Mains

inductive Program where
  | bench
  | pingpong
  | allreduce4Rank
  | mismatchedScratch

def Program.options (c : MainCalls) : Program → Except Exn Unit
  | .bench | .pingpong => c.options
  | .allreduce4Rank | .mismatchedScratch => .ok ()

def Program.block (c : MainCalls) : Program → DrvM Exn ℕ
  | .bench => benchMain c
  | .pingpong => pingpongMain c
  | .allreduce4Rank => allreduceRunRank c
  | .mismatchedScratch => mismatchedScratchRunRank c

def Program.main (c : MainCalls) (p : Program) : DrvM Exn ℕ := do
  MonadExcept.ofExcept (p.options c)
  p.block c

def Program.Forgets (c : MainCalls) (p : Program) : Prop :=
  p.options c = .ok () ∧ OpenFails c.devices ""

section Programs

variable {p : Program} {c : MainCalls}

theorem withRegions_forgets (h : OpenFails c.devices "") (block : CommMembers → List ℕ → DrvM Exn ℕ)
    (d : Driver) : (exec (withRegions c block) d).2 = d.add [] := by
  obtain ⟨e, hd, -⟩ := device_throws h d
  rw [withRegions, scope, exec_bind, hd]

theorem pingpongMain_forgets (h : OpenFails c.devices "") (d : Driver) :
    (exec (pingpongMain c) d).2 = d.add [] := by
  obtain ⟨e, hd, -⟩ := device_throws h d
  rw [pingpongMain, scope, exec_bind, hd]

theorem block_forgets (h : OpenFails c.devices "") (d : Driver) :
    (exec (p.block c) d).2 = d.add [] := by
  cases p <;> simp only [Program.block]
  · exact withRegions_forgets h _ d
  · exact pingpongMain_forgets h d
  · exact withRegions_forgets h _ d
  · exact withRegions_forgets h _ d

theorem block_neutral (h : ¬ OpenFails c.devices "") : Neutral [] (p.block c) := by
  cases p <;> simp only [Program.block]
  · exact withRegions_neutral h fun comm hs _ => (neutral_use _).bind fun _ => neutral_pure _
  · exact pingpongMain_neutral h
  · exact allreduceRunRank_neutral h
  · exact withRegions_neutral h fun comm hs _ => (neutral_use _).bind fun _ => neutral_pure _

theorem main_forgets (h : p.Forgets c) (d : Driver) : (exec (p.main c) d).2 = d.add [] := by
  rw [Program.main, h.1, exec_bind_ok (exec_ofExcept _)]
  exact block_forgets h.2 d

theorem main_same (h : ¬ p.Forgets c) (d : Driver) : d.Same (exec (p.main c) d).2 := by
  rw [Program.main]
  cases hoptions : p.options c with
  | error e => exact .refl d
  | ok u =>
    rw [exec_bind_ok (exec_ofExcept _)]
    exact block_neutral (fun hopen => h ⟨hoptions, hopen⟩) d (live_nil d)

end Programs

/-- Whatever fails in one of the programs, at the end of `main` every handle it obtained has been
destroyed once. None was used or destroyed when it was not live, and none was destroyed while
another was made from it. The only exception is the list of devices, which is forgotten exactly if
the device cannot be opened. -/
theorem program_gives_back (p : Program) (c : MainCalls) (d : Driver) :
    (d.Same (exec (p.main c) d).2 ↔ ¬ p.Forgets c) ∧
      (p.Forgets c → d.Grew (single [] d.next) (exec (p.main c) d).2) := by
  have hgrew : p.Forgets c → d.Grew (single [] d.next) (exec (p.main c) d).2 := fun h =>
    main_forgets h d ▸ Driver.grew_add (live_nil d)
  refine ⟨⟨fun hsame h => ?_, fun h => main_same h d⟩, hgrew⟩
  have hlive := (hgrew h).live
  rw [hsame.live] at hlive
  simpa using congrArg List.length hlive

/-- An object of one of the five classes: its handle, which is null once the object was moved from,
and its other members. -/
structure Owner (β : Type) where
  handle : Option ℕ
  rest : β

namespace Owner

variable {β : Type}

def delete (x : Owner β) : DrvM Exn Unit :=
  match x.handle with
  | none => pure ()
  | some h => destroy h

def movedFrom (x : Owner β) : Owner β := { x with handle := none }

end Owner

structure Objects (β : Type) where
  objs : ℕ → Option (Owner β)
  driver : Driver

inductive ObjectOp (β : Type) where
  | construct (x : ℕ) (outcome : Except Exn Unit) (rest : β)
  | moveConstruct (x other : ℕ)
  | moveAssign (x other : ℕ)
  | destruct (x : ℕ)

namespace Objects

variable {β : Type}

def move (s : Objects β) (x other : ℕ) (o : Owner β) (d : Driver) : Objects β where
  objs := Function.update (Function.update s.objs x (some o)) other (some o.movedFrom)
  driver := d

/-- There is no object at an address before it is constructed, and one after it. -/
def step (s : Objects β) : ObjectOp β → Option (Objects β)
  | .construct x outcome rest =>
    match s.objs x with
    | some _ => none
    | none =>
      match exec (create outcome []) s.driver with
      | (.ok h, d) => some ⟨Function.update s.objs x (some ⟨some h, rest⟩), d⟩
      | (.error _, d) => some ⟨s.objs, d⟩
  | .moveConstruct x other =>
    match s.objs x, s.objs other with
    | none, some o => some (s.move x other o s.driver)
    | _, _ => none
  | .moveAssign x other =>
    match s.objs x, s.objs other with
    | some a, some o =>
      -- `if (this != &other)`
      if x = other then some s else some (s.move x other o (exec a.delete s.driver).2)
    | _, _ => none
  | .destruct x =>
    match s.objs x with
    | some a => some ⟨Function.update s.objs x none, (exec a.delete s.driver).2⟩
    | none => none

def run (s : Objects β) (ops : List (ObjectOp β)) : Option (Objects β) := ops.foldlM step s

def owned (s : Objects β) (x : ℕ) : Option ℕ := (s.objs x).bind Owner.handle

end Objects

structure OwnedOnce (d₀ : Driver) (owned : ℕ → Option ℕ) (d : Driver) : Prop where
  faults : d.faults = d₀.faults
  live : ∀ h, h ∈ handles d.live ↔ h ∈ handles d₀.live ∨ ∃ x, owned x = some h
  unique : ∀ x y h, owned x = some h → owned y = some h → x = y
  fresh : ∀ x h, owned x = some h → h ∉ handles d₀.live
  made_from : ∀ e ∈ d.live, e ∈ d₀.live ∨ e.madeFrom = []

namespace OwnedOnce

variable {d₀ d : Driver} {owned : ℕ → Option ℕ}

theorem update_eq_some {x y k : ℕ} {v : Option ℕ} (hx : owned x = none) :
    Function.update owned x v y = some k ↔ (y = x ∧ v = some k) ∨ owned y = some k := by
  by_cases hy : y = x
  · subst y
    simp [hx]
  · rw [Function.update_of_ne hy]
    simp [hy]

theorem update_none_eq_some {x y k : ℕ} :
    Function.update owned x none y = some k ↔ y ≠ x ∧ owned y = some k := by
  by_cases hy : y = x
  · subst y
    simp
  · rw [Function.update_of_ne hy]
    simp [hy]

theorem construct (h : OwnedOnce d₀ owned d) {x : ℕ} (hx : owned x = none) :
    OwnedOnce d₀ (Function.update owned x (some d.next)) (d.add []) := by
  have hgrew := Driver.grew_add (live_nil d)
  have hnext : d.next ∉ handles d.live := fun hmem => lt_irrefl _ (d.lt_next _ hmem)
  have hnew : ∀ y, owned y ≠ some d.next := fun y hy => hnext ((h.live _).mpr (Or.inr ⟨y, hy⟩))
  refine ⟨h.faults, fun k => ?_, fun y z k hy hz => ?_, fun y k hy => ?_, fun e he => ?_⟩
  · rw [hgrew.live, handles_append, List.mem_append, h.live k]
    simp only [handles_cons, handles_nil, List.mem_singleton, update_eq_some hx, exists_or,
      exists_eq_left, Option.some.injEq]
    rw [or_left_comm, eq_comm]
  · rw [update_eq_some hx] at hy hz
    rcases hy with ⟨rfl, hy⟩ | hy <;> rcases hz with ⟨rfl, hz⟩ | hz
    · rfl
    · exact absurd (hz.trans hy.symm) (hnew z)
    · exact absurd (hy.trans hz.symm) (hnew y)
    · exact h.unique y z k hy hz
  · rw [update_eq_some hx] at hy
    rcases hy with ⟨-, hy⟩ | hy
    · obtain rfl := Option.some.inj hy
      exact fun hmem => hnext ((h.live _).mpr (Or.inl hmem))
    · exact h.fresh y k hy
  · rw [hgrew.live] at he
    rcases List.mem_append.mp he with he | he
    · obtain rfl := List.mem_singleton.mp he
      exact Or.inr rfl
    · exact h.made_from e he

theorem delete (h : OwnedOnce d₀ owned d) {x k : ℕ} (hx : owned x = some k) :
    OwnedOnce d₀ (Function.update owned x none) (exec (destroy k : DrvM Exn Unit) d).2 := by
  have hlive : k ∈ handles d.live := (h.live k).mpr (Or.inr ⟨x, hx⟩)
  have hunused : d.Unused k := by
    intro e he hk
    rcases h.made_from e he with he | he
    · exact h.fresh x k hx (d₀.closed e he k hk)
    · simp [he] at hk
  have hd : (exec (destroy k : DrvM Exn Unit) d).2 = d.remove k hunused := by
    change dite _ _ _ = _
    rw [dif_pos ⟨hlive, hunused⟩]
  have hmem : ∀ y, y ∈ handles (d.remove k hunused).live ↔ y ∈ handles d.live ∧ y ≠ k := by
    intro y
    simp only [mem_handles, Driver.remove, List.mem_filter, decide_eq_true_eq]
    constructor
    · rintro ⟨e, ⟨he, hne⟩, rfl⟩
      exact ⟨⟨e, he, rfl⟩, hne⟩
    · rintro ⟨⟨e, he, rfl⟩, hne⟩
      exact ⟨e, ⟨he, hne⟩, rfl⟩
  rw [hd]
  refine ⟨h.faults, fun y => ?_, fun y z j hy hz => ?_, fun y j hy => ?_, fun e he => ?_⟩
  · rw [hmem, h.live]
    simp only [update_none_eq_some]
    constructor
    · rintro ⟨hy | ⟨z, hz⟩, hne⟩
      · exact Or.inl hy
      · refine Or.inr ⟨z, ?_, hz⟩
        rintro rfl
        exact hne (Option.some.inj (hz.symm.trans hx))
    · rintro (hy | ⟨z, hzx, hz⟩)
      · refine ⟨Or.inl hy, ?_⟩
        rintro rfl
        exact h.fresh x y hx hy
      · refine ⟨Or.inr ⟨z, hz⟩, ?_⟩
        rintro rfl
        exact hzx (h.unique z x y hz hx)
  · exact h.unique y z j (update_none_eq_some.mp hy).2 (update_none_eq_some.mp hz).2
  · exact h.fresh y j (update_none_eq_some.mp hy).2
  · exact h.made_from e (List.mem_filter.mp he).1

theorem move (h : OwnedOnce d₀ owned d) {x : ℕ} (hx : owned x = none) (other : ℕ) :
    OwnedOnce d₀ (Function.update (Function.update owned x (owned other)) other none) d := by
  have hmoved : ∀ {y k}, Function.update (Function.update owned x (owned other)) other none y =
      some k ↔ y ≠ other ∧ ((y = x ∧ owned other = some k) ∨ owned y = some k) := by
    intro y k
    rw [update_none_eq_some, update_eq_some hx]
  refine ⟨h.faults, fun k => (h.live k).trans (or_congr_right ?_), fun y z k hy hz => ?_,
    fun y k hy => ?_, h.made_from⟩
  · simp only [hmoved]
    constructor
    · rintro ⟨y, hy⟩
      by_cases hyo : y = other
      · subst y
        refine ⟨x, ?_, Or.inl ⟨rfl, hy⟩⟩
        rintro rfl
        simp [hx] at hy
      · exact ⟨y, hyo, Or.inr hy⟩
    · rintro ⟨y, -, ⟨-, hy⟩ | hy⟩
      · exact ⟨other, hy⟩
      · exact ⟨y, hy⟩
  · rw [hmoved] at hy hz
    rcases hy with ⟨hyo, ⟨rfl, hy⟩ | hy⟩ <;> rcases hz with ⟨hzo, ⟨rfl, hz⟩ | hz⟩
    · rfl
    · exact absurd (h.unique z other k hz hy) hzo
    · exact absurd (h.unique y other k hy hz) hyo
    · exact h.unique y z k hy hz
  · obtain ⟨-, ⟨-, hy⟩ | hy⟩ := hmoved.mp hy
    · exact h.fresh other k hy
    · exact h.fresh y k hy

end OwnedOnce

namespace Objects

variable {β : Type} {d₀ : Driver} {s t : Objects β}

def Sound (d₀ : Driver) (s : Objects β) : Prop := OwnedOnce d₀ s.owned s.driver

theorem owned_update (s : Objects β) (x : ℕ) (o : Option (Owner β)) :
    (fun y => (Function.update s.objs x o y).bind Owner.handle) =
      Function.update s.owned x (o.bind Owner.handle) := by
  funext y
  by_cases hy : y = x
  · subst y
    simp
  · simp [Function.update_of_ne hy, owned]

theorem sound_update {x : ℕ} {o : Option (Owner β)} {d : Driver} :
    Sound d₀ ⟨Function.update s.objs x o, d⟩ ↔
      OwnedOnce d₀ (Function.update s.owned x (o.bind Owner.handle)) d := by
  rw [← owned_update]
  rfl

theorem Sound.delete (h : Sound d₀ s) {x : ℕ} {a : Owner β} (hx : s.objs x = some a) :
    OwnedOnce d₀ (Function.update s.owned x none) (exec a.delete s.driver).2 := by
  have hown : s.owned x = a.handle := by rw [owned, hx, Option.bind_some]
  cases hhandle : a.handle with
  | none =>
    rw [Owner.delete, hhandle, Function.update_eq_self_iff.mpr (hown.trans hhandle).symm]
    exact h
  | some k =>
    rw [Owner.delete, hhandle]
    exact OwnedOnce.delete h (hown.trans hhandle)

theorem owned_move (s : Objects β) (x other : ℕ) {o : Owner β} (ho : s.objs other = some o)
    (d : Driver) : (s.move x other o d).owned =
      Function.update (Function.update s.owned x (s.owned other)) other none := by
  have hother : s.owned other = o.handle := by rw [owned, ho, Option.bind_some]
  funext y
  rw [hother]
  by_cases hyo : y = other
  · subst y
    simp [owned, move, Owner.movedFrom]
  · rw [Function.update_of_ne hyo]
    have hobjs : (s.move x other o d).objs y = Function.update s.objs x (some o) y :=
      Function.update_of_ne hyo _ _
    rw [owned, hobjs]
    exact congrFun (owned_update s x (some o)) y

theorem Sound.step (h : Sound d₀ s) {op : ObjectOp β} (hstep : s.step op = some t) :
    Sound d₀ t := by
  cases op with
  | construct x outcome rest =>
    cases hx : s.objs x with
    | some a => simp [Objects.step, hx] at hstep
    | none =>
      have hown : s.owned x = none := by rw [owned, hx, Option.bind_none]
      cases outcome with
      | error e =>
        rw [Objects.step, hx, exec_create_error (live_nil _)] at hstep
        exact Option.some.inj hstep ▸ h
      | ok u =>
        rw [Objects.step, hx, exec_create_ok (live_nil _)] at hstep
        obtain rfl := Option.some.inj hstep
        exact sound_update.mpr (OwnedOnce.construct h hown)
  | moveConstruct x other =>
    cases hx : s.objs x with
    | some a => simp [Objects.step, hx] at hstep
    | none =>
      cases ho : s.objs other with
      | none => simp [Objects.step, hx, ho] at hstep
      | some o =>
        simp only [Objects.step, hx, ho, Option.some.injEq] at hstep
        subst t
        rw [Sound, owned_move s x other ho]
        exact OwnedOnce.move h (by rw [owned, hx, Option.bind_none]) other
  | moveAssign x other =>
    cases hx : s.objs x with
    | none => simp [Objects.step, hx] at hstep
    | some a =>
      cases ho : s.objs other with
      | none => simp [Objects.step, hx, ho] at hstep
      | some o =>
        simp only [Objects.step, hx, ho] at hstep
        by_cases hself : x = other
        · rw [if_pos hself] at hstep
          exact Option.some.inj hstep ▸ h
        · rw [if_neg hself] at hstep
          obtain rfl := Option.some.inj hstep
          rw [Sound, owned_move s x other ho]
          have hdeleted := h.delete hx
          have hmoved := hdeleted.move (Function.update_self _ _ _) other
          rwa [Function.update_of_ne (Ne.symm hself), Function.update_idem] at hmoved
  | destruct x =>
    cases hx : s.objs x with
    | none => simp [Objects.step, hx] at hstep
    | some a =>
      simp only [Objects.step, hx, Option.some.injEq] at hstep
      subst t
      exact sound_update.mpr (h.delete hx)

theorem Sound.run (h : Sound d₀ s) {ops : List (ObjectOp β)} (hrun : s.run ops = some t) :
    Sound d₀ t := by
  induction ops generalizing s with
  | nil => exact Option.some.inj hrun ▸ h
  | cons op ops ih =>
    obtain ⟨s', hstep, hrest⟩ := Option.bind_eq_some_iff.mp hrun
    exact ih (h.step hstep) hrest

end Objects

/-- Objects of one class can be constructed, moved, assigned to each other and to themselves, and
destroyed in any order: no handle is ever destroyed twice or used up while another object has it,
each handle that is live has exactly one owner, and with the last object the last handle goes. -/
theorem moved_handles_owned_once {β : Type} (d : Driver) {ops : List (ObjectOp β)} {s : Objects β}
    (hrun : Objects.run ⟨fun _ => none, d⟩ ops = some s) :
    s.driver.faults = d.faults ∧
      (∀ h, h ∈ handles s.driver.live ↔ h ∈ handles d.live ∨ ∃ x, s.owned x = some h) ∧
      (∀ x y h, s.owned x = some h → s.owned y = some h → x = y) ∧
      ((∀ x, s.objs x = none) → ∀ h, h ∈ handles s.driver.live ↔ h ∈ handles d.live) := by
  have hstart : Objects.Sound d (⟨fun _ => none, d⟩ : Objects β) := {
    faults := rfl
    live := fun h => by simp [Objects.owned]
    unique := fun x y h hx _ => by simp [Objects.owned] at hx
    fresh := fun x h hx => by simp [Objects.owned] at hx
    made_from := fun e he => Or.inl he }
  have hs := hstart.run hrun
  refine ⟨hs.faults, hs.live, hs.unique, fun hnone h => (hs.live h).trans (or_iff_left ?_)⟩
  rintro ⟨x, hx⟩
  simp [Objects.owned, hnone x] at hx

def assignTwice : List (ObjectOp Unit) :=
  [.construct 0 (.ok ()) (), .construct 1 (.ok ()) (), .moveAssign 0 1, .moveAssign 0 0,
    .destruct 1, .destruct 0]

theorem moved_handles_owned_once_assignTwice :
    ∃ s, Objects.run ⟨fun _ => none, .empty⟩ assignTwice = some s ∧ s.driver.faults = [] ∧
      ∀ h, h ∉ handles s.driver.live := by
  obtain ⟨s, hrun, hnone⟩ : ∃ s, Objects.run ⟨fun _ => none, .empty⟩ assignTwice = some s ∧
      ∀ x, s.objs x = none := by
    refine ⟨_, rfl, fun x => ?_⟩
    by_cases h0 : x = 0
    · simp [Function.update, h0]
    · by_cases h1 : x = 1 <;> simp [Function.update, h0, h1, Objects.move]
  obtain ⟨hfaults, -, -, hend⟩ := moved_handles_owned_once .empty hrun
  exact ⟨s, hrun, hfaults, fun h hh => by simpa [Driver.empty] using (hend hnone h).mp hh⟩

end MicroCcl

import MicroCcl.Communicator

namespace MicroCcl

inductive PortState where
  | nop
  | down
  | init
  | armed
  | active
  | activeDefer
  deriving DecidableEq, Repr

inductive LinkLayer where
  | unspecified
  | infiniband
  | ethernet
  deriving DecidableEq, Repr

structure PortAttr where
  state : PortState
  linkLayer : LinkLayer
  lid : UInt16
  activeMtu : Mtu
  deriving DecidableEq, Repr

/-- A port: the answer to `ibv_query_port`, the first lines of its files under
`gid_attrs/types/` that can be opened, and the answers to `ibv_query_gid`. A call that fails gives
the text of its errno. -/
structure Port where
  query : Except String PortAttr
  gidType : ℕ → Option String
  queryGid : ℕ → Except String Gid

/-- An entry of `ibv_get_device_list`. Ports are numbered from 1 in a `uint8_t`. -/
structure IbvDevice where
  name : String
  openDevice : Except String Unit
  queryDevice : Except String Unit
  ports : List Port
  ports_lt : ports.length < 256

namespace IbvDevice

def port? (d : IbvDevice) (port : UInt8) : Option Port :=
  if port = 0 then none else d.ports[port.toNat - 1]?

def queryPort (d : IbvDevice) (port : UInt8) : Except String PortAttr :=
  match d.port? port with
  | some p => p.query
  | none => .error "Invalid argument"

def physPortCnt (d : IbvDevice) : UInt8 := UInt8.ofNat d.ports.length

end IbvDevice

def checkCall {A : Type} (call : String) : Except String A → Except Exn A
  | .ok a => .ok a
  | .error why => .error (.runtimeError (call ++ ": " ++ why))

def noActivePort : Exn :=
  .runtimeError "no active port on device (check `ibv_devinfo`, `rdma link show`)"

theorem IbvDevice.ne_zero_of_queryPort {d : IbvDevice} {port : UInt8} {attr : PortAttr}
    (h : d.queryPort port = .ok attr) : port ≠ 0 := by
  rintro rfl
  cases h

/-- The loop of `find_active_port` from `port` on. With 255 ports the counter wraps around. -/
def findActivePortFrom (d : IbvDevice) (port : UInt8) : Except Exn (UInt8 × PortAttr) :=
  if port ≤ d.physPortCnt then
    match _h : d.queryPort port with
    | .error why => .error (.runtimeError ("ibv_query_port" ++ ": " ++ why))
    | .ok attr =>
      if attr.state = .active then .ok (port, attr) else findActivePortFrom d (port + 1)
  else .error noActivePort
termination_by if port = 0 then 0 else 256 - port.toNat
decreasing_by
  have hne := IbvDevice.ne_zero_of_queryPort _h
  have hlt := port.toNat_lt
  have hadd : (port + 1).toNat = (port.toNat + 1) % 256 := UInt8.toNat_add port 1
  rw [if_neg hne]
  split_ifs with hwrap
  · omega
  · have hnext : (port + 1).toNat ≠ 0 := fun h0 => hwrap (UInt8.toNat_inj.mp h0)
    omega

def findActivePort (d : IbvDevice) : Except Exn (UInt8 × PortAttr) := do
  checkCall "ibv_query_device" d.queryDevice
  findActivePortFrom d 1

def IsRoceV2 (type : String) : Prop := "RoCE v2".toList <:+: type.toList

instance (type : String) : Decidable (IsRoceV2 type) := inferInstanceAs (Decidable (_ <:+: _))

def scanGidTypes (d : IbvDevice) (portNum : UInt8) (port : Port) :
    List ℕ → Except Exn (ℕ × Gid)
  | [] => .error (.runtimeError ("no RoCE v2 GID found on " ++ d.name ++ " port " ++
      toString portNum ++ " (Soft-RoCE should always expose one -- check `rdma link show`)"))
  | idx :: rest =>
    match port.gidType idx with
    -- gaps in the index range are normal
    | none => scanGidTypes d portNum port rest
    | some type =>
      if IsRoceV2 type then do
        let gid ← checkCall "ibv_query_gid" (port.queryGid idx)
        return (idx, gid)
      else scanGidTypes d portNum port rest

/-- The files of a port that does not exist cannot be opened. -/
def findRoceV2GidIndex (d : IbvDevice) (portNum : UInt8) : Except Exn (ℕ × Gid) :=
  scanGidTypes d portNum ((d.port? portNum).getD ⟨.error "", fun _ => none, fun _ => .error ""⟩)
    (List.range 256)

structure OpenDevice where
  context : IbvDevice
  portNum : UInt8
  portAttr : PortAttr
  gidIndex : ℤ := -1
  gid : Gid := fun _ => 0

def selectDevice (list : List IbvDevice) (devName : String) : Except Exn IbvDevice :=
  if devName = "" then
    match list with
    | [] => .error (.runtimeError
        "no RDMA devices found (is rdma_rxe loaded? see docs/setup.md)")
    | d :: _ => .ok d
  else
    match list.find? fun d => d.name = devName with
    | none => .error (.runtimeError ("RDMA device not found: " ++ devName))
    | some d => .ok d

/-- The constructor of `Device`; `list` is what `ibv_get_device_list` gives. -/
def openDevice (list : Except String (List IbvDevice)) (devName : String) :
    Except Exn OpenDevice := do
  let list ← checkCall "ibv_get_device_list" list
  let target ← selectDevice list devName
  checkCall "ibv_open_device" target.openDevice
  let (portNum, portAttr) ← findActivePort target
  if portAttr.linkLayer = .infiniband then
    return { context := target, portNum, portAttr }
  else
    let (gidIndex, gid) ← findRoceV2GidIndex target portNum
    return { context := target, portNum, portAttr, gidIndex, gid }

def Port.HasRoceV2 (p : Port) : Prop :=
  ∃ idx < 256, ∃ type, p.gidType idx = some type ∧ IsRoceV2 type

namespace IbvDevice

def Active (d : IbvDevice) (port : UInt8) : Prop :=
  ∃ attr, d.queryPort port = .ok attr ∧ attr.state = .active

def Inactive (d : IbvDevice) : Prop := ∀ port, ¬ d.Active port

/-- Every call on the device succeeds and each of its ports can be addressed. -/
structure Healthy (d : IbvDevice) : Prop where
  opens : d.openDevice = .ok ()
  queries : d.queryDevice = .ok ()
  portQueries : ∀ p ∈ d.ports, ∃ attr, p.query = .ok attr ∧
    (attr.linkLayer = .infiniband ∨ p.HasRoceV2)
  gidQueries : ∀ p ∈ d.ports, ∀ idx, (p.gidType idx).isSome → ∃ gid, p.queryGid idx = .ok gid

variable {d : IbvDevice} {port : UInt8}

theorem toNat_physPortCnt (d : IbvDevice) : d.physPortCnt.toNat = d.ports.length :=
  UInt8.toNat_ofNat_of_lt' d.ports_lt

theorem port?_eq_some (hpos : port ≠ 0) (hle : port ≤ d.physPortCnt) :
    ∃ p ∈ d.ports, d.port? port = some p := by
  have hne : port.toNat ≠ 0 := fun h0 => hpos (UInt8.toNat_inj.mp h0)
  have hlen : port.toNat ≤ d.ports.length := d.toNat_physPortCnt ▸ UInt8.le_iff_toNat_le.mp hle
  have hlt : port.toNat - 1 < d.ports.length := by omega
  refine ⟨d.ports[port.toNat - 1], List.getElem_mem hlt, ?_⟩
  rw [port?, if_neg hpos, List.getElem?_eq_getElem hlt]

theorem le_physPortCnt {p : Port} (h : d.port? port = some p) : port ≤ d.physPortCnt := by
  rw [port?] at h
  split_ifs at h
  have hlt := (List.getElem?_eq_some_iff.mp h).1
  rw [UInt8.le_iff_toNat_le, toNat_physPortCnt]
  omega

theorem Active.le_physPortCnt (h : d.Active port) : port ≤ d.physPortCnt := by
  obtain ⟨attr, hq, -⟩ := h
  rw [queryPort] at hq
  split at hq
  · exact IbvDevice.le_physPortCnt ‹_›
  · cases hq

theorem Active.ne_zero (h : d.Active port) : port ≠ 0 :=
  ne_zero_of_queryPort h.choose_spec.1

theorem Healthy.queryPort (hd : d.Healthy) (hpos : port ≠ 0) (hle : port ≤ d.physPortCnt) :
    ∃ p ∈ d.ports, d.port? port = some p ∧ ∃ attr, d.queryPort port = .ok attr ∧
      (attr.linkLayer = .infiniband ∨ p.HasRoceV2) := by
  obtain ⟨p, hmem, hp⟩ := port?_eq_some hpos hle
  obtain ⟨attr, hattr, hlink⟩ := hd.portQueries p hmem
  refine ⟨p, hmem, hp, attr, ?_, hlink⟩
  rw [IbvDevice.queryPort, hp]
  exact hattr

end IbvDevice

theorem findActivePortFrom_active {d : IbvDevice} {port q : UInt8} {attr : PortAttr}
    (h : findActivePortFrom d port = .ok (q, attr)) :
    d.queryPort q = .ok attr ∧ attr.state = .active := by
  fun_induction findActivePortFrom d port with
  | case1 | case4 => cases h
  | case2 port _ attr' hq hactive =>
    cases h
    exact ⟨hq, hactive⟩
  | case3 _ _ _ _ _ ih => exact ih h

theorem findActivePortFrom_finds {d : IbvDevice} (hd : d.Healthy) {port p : UInt8}
    (hp : d.Active p) (hpos : port ≠ 0) (hle : port ≤ p) :
    ∃ q attr, findActivePortFrom d port = .ok (q, attr) ∧ q ≤ p := by
  fun_induction findActivePortFrom d port with
  | case1 port hin why hq =>
    obtain ⟨-, -, -, attr, hattr, -⟩ := hd.queryPort hpos hin
    rw [hattr] at hq
    cases hq
  | case2 port _ attr => exact ⟨port, attr, rfl, hle⟩
  | case3 port hin attr hq hactive ih =>
    have hne : port ≠ p := by
      rintro rfl
      obtain ⟨attr', hattr', hactive'⟩ := hp
      rw [hq] at hattr'
      cases hattr'
      exact hactive hactive'
    have hlt : port.toNat < p.toNat :=
      lt_of_le_of_ne (UInt8.le_iff_toNat_le.mp hle) fun h => hne (UInt8.toNat_inj.mp h)
    -- `port` is below `p`, so this step does not wrap around
    have hadd : (port + 1).toNat = port.toNat + 1 := by
      have hmod : (port + 1).toNat = (port.toNat + 1) % 256 := UInt8.toNat_add port 1
      have := p.toNat_lt
      omega
    refine ih ?_ (UInt8.le_iff_toNat_le.mpr (by omega))
    intro h0
    rw [h0] at hadd
    exact absurd hadd (by simp)
  | case4 port hout => exact absurd (UInt8.le_trans hle hp.le_physPortCnt) hout

theorem scanGidTypes_finds {d : IbvDevice} {portNum : UInt8} {port : Port}
    (hgid : ∀ idx, (port.gidType idx).isSome → ∃ gid, port.queryGid idx = .ok gid)
    {idxs : List ℕ} (h : ∃ idx ∈ idxs, ∃ type, port.gidType idx = some type ∧ IsRoceV2 type) :
    ∃ r, scanGidTypes d portNum port idxs = .ok r := by
  induction idxs with
  | nil => simp at h
  | cons idx rest ih =>
    cases htype : port.gidType idx with
    | none =>
      simp only [scanGidTypes, htype]
      refine ih ?_
      simpa [htype] using h
    | some type =>
      by_cases hv2 : IsRoceV2 type
      · obtain ⟨gid, hq⟩ := hgid idx (by rw [htype]; rfl)
        refine ⟨(idx, gid), ?_⟩
        simp only [scanGidTypes, htype, if_pos hv2, hq]
        rfl
      · simp only [scanGidTypes, htype, if_neg hv2]
        refine ih ?_
        simpa [htype, hv2] using h

theorem findRoceV2GidIndex_finds {d : IbvDevice} (hd : d.Healthy) {portNum : UInt8} {port : Port}
    (hmem : port ∈ d.ports) (hport : d.port? portNum = some port) (h : port.HasRoceV2) :
    ∃ r, findRoceV2GidIndex d portNum = .ok r := by
  rw [findRoceV2GidIndex, hport, Option.getD_some]
  refine scanGidTypes_finds (hd.gidQueries port hmem) ?_
  obtain ⟨idx, hlt, htype⟩ := h
  exact ⟨idx, List.mem_range.mpr hlt, htype⟩

variable {d : IbvDevice} {post : List IbvDevice}

theorem openDevice_default (hd : d.Healthy) :
    openDevice (.ok (d :: post)) "" = (do
      let (portNum, portAttr) ← findActivePortFrom d 1
      if portAttr.linkLayer = .infiniband then
        return { context := d, portNum, portAttr }
      else
        let (gidIndex, gid) ← findRoceV2GidIndex d portNum
        return { context := d, portNum, portAttr, gidIndex, gid }) := by
  have hopen : checkCall "ibv_open_device" d.openDevice = .ok () := by rw [hd.opens]; rfl
  have hfind : findActivePort d = findActivePortFrom d 1 := by
    rw [findActivePort, hd.queries]
    rfl
  change (checkCall "ibv_open_device" d.openDevice >>= fun _ => findActivePort d >>= _) = _
  rw [hopen, hfind]
  rfl

variable (post) in
theorem openDevice_head_active (hd : d.Healthy) {p : UInt8} (hp : d.Active p) :
    ∃ dev, openDevice (.ok (d :: post)) "" = .ok dev ∧ dev.context = d ∧
      d.Active dev.portNum ∧ dev.portNum ≤ p := by
  have hone : (1 : UInt8) ≤ p :=
    UInt8.le_iff_toNat_le.mpr (Nat.pos_of_ne_zero fun h0 => hp.ne_zero (UInt8.toNat_inj.mp h0))
  obtain ⟨q, attr, hfind, hle⟩ := findActivePortFrom_finds hd hp (by decide) hone
  obtain ⟨hq, hactive⟩ := findActivePortFrom_active hfind
  have hqp : d.Active q := ⟨attr, hq, hactive⟩
  obtain ⟨port, hmem, hport, attr', hattr', hlink⟩ :=
    hd.queryPort hqp.ne_zero hqp.le_physPortCnt
  obtain rfl : attr = attr' := Except.ok.inj (hq.symm.trans hattr')
  rw [openDevice_default hd, hfind]
  by_cases hib : attr.linkLayer = .infiniband
  · exact ⟨⟨d, q, attr, -1, fun _ => 0⟩, by simp [bind, Except.bind, hib, pure, Except.pure],
      rfl, hqp, hle⟩
  · obtain ⟨⟨gidIndex, gid⟩, hgid⟩ :=
      findRoceV2GidIndex_finds hd hmem hport (hlink.resolve_left hib)
    exact ⟨⟨d, q, attr, gidIndex, gid⟩, by simp [bind, Except.bind, hib, hgid, pure, Except.pure],
      rfl, hqp, hle⟩

variable (post) in
theorem openDevice_head_inactive (hd : d.Healthy) (h : d.Inactive) :
    ∃ e, openDevice (.ok (d :: post)) "" = .error e := by
  rw [openDevice_default hd]
  cases hfind : findActivePortFrom d 1 with
  | error e => exact ⟨e, rfl⟩
  | ok r => exact absurd ⟨r.2, findActivePortFrom_active hfind⟩ (h r.1)

/-- Without a name the constructor picks the first device with an active port, and on it the
active port with the lowest number. It throws only where there is no such device. -/
structure SelectsFirstActive (devs : List IbvDevice) : Prop where
  selects : ∀ pre d post port, devs = pre ++ d :: post → (∀ e ∈ pre, e.Inactive) →
    d.Active port → (∀ q < port, ¬ d.Active q) →
    ∃ dev, openDevice (.ok devs) "" = .ok dev ∧ dev.context = d ∧ dev.portNum = port
  throws_only : ∀ e, openDevice (.ok devs) "" = .error e → ∀ d ∈ devs, d.Inactive

theorem selectsFirstActive_of_inactive {devs : List IbvDevice} (h : ∀ d ∈ devs, d.Inactive) :
    SelectsFirstActive devs where
  selects := by
    rintro pre d post port rfl - hactive -
    exact absurd hactive (h d (by simp) port)
  throws_only _ _ := h

theorem selectsFirstActive_of_head (hd : d.Healthy) {p : UInt8} (hp : d.Active p) :
    SelectsFirstActive (d :: post) where
  selects := by
    intro pre d' post' port hdevs hpre hactive hleast
    cases pre with
    | cons e pre =>
      obtain ⟨rfl, -⟩ := List.cons.inj hdevs
      exact absurd hp (hpre d List.mem_cons_self p)
    | nil =>
      obtain ⟨rfl, -⟩ := List.cons.inj hdevs
      obtain ⟨dev, hopen, hctx, hdev, hle⟩ := openDevice_head_active post hd hactive
      refine ⟨dev, hopen, hctx, ?_⟩
      by_contra hne
      exact hleast dev.portNum (UInt8.lt_of_le_of_ne hle hne) hdev
  throws_only := by
    intro e he
    obtain ⟨dev, hopen, -⟩ := openDevice_head_active post hd hp
    rw [hopen] at he
    cases he

/-- The constructor keeps to its documentation exactly where the first device of the list has
an active port or none has: it never looks at another one. -/
theorem selectsFirstActive_iff (devs : List IbvDevice) (hdevs : ∀ d ∈ devs, d.Healthy) :
    SelectsFirstActive devs ↔
      (∀ d ∈ devs, d.Inactive) ∨ ∃ d ∈ devs.head?, ∃ port, d.Active port := by
  constructor
  · intro h
    by_cases hnone : ∀ d ∈ devs, d.Inactive
    · exact .inl hnone
    · refine .inr ?_
      cases devs with
      | nil => simp at hnone
      | cons d post =>
        refine ⟨d, rfl, ?_⟩
        by_contra hhead
        obtain ⟨e, he⟩ := openDevice_head_inactive post (hdevs d List.mem_cons_self)
          (not_exists.mp hhead)
        exact hnone (h.throws_only e he)
  · rintro (hnone | ⟨d, hd, p, hp⟩)
    · exact selectsFirstActive_of_inactive hnone
    · cases devs with
      | nil => cases hd
      | cons d' post =>
        obtain rfl : d' = d := Option.some.inj hd
        exact selectsFirstActive_of_head (hdevs d' List.mem_cons_self) hp

def singlePort (name : String) (state : PortState) : IbvDevice where
  name := name
  openDevice := .ok ()
  queryDevice := .ok ()
  ports := [⟨.ok ⟨state, .infiniband, 1, .mtu4096⟩, fun _ => none, fun _ => .error ""⟩]
  ports_lt := by simp

theorem singlePort_healthy (name : String) (state : PortState) :
    (singlePort name state).Healthy where
  opens := rfl
  queries := rfl
  portQueries p hp := by
    obtain rfl := List.mem_singleton.mp hp
    exact ⟨_, rfl, .inl rfl⟩
  gidQueries p hp idx h := by
    obtain rfl := List.mem_singleton.mp hp
    cases h

theorem selectsFirstActive_up_down :
    SelectsFirstActive [singlePort "mlx5_0" .active, singlePort "mlx5_1" .down] := by
  refine (selectsFirstActive_iff _ ?_).mpr (.inr ⟨_, rfl, 1, _, rfl, rfl⟩)
  intro d hd
  rcases List.mem_pair.mp hd with rfl | rfl <;> exact singlePort_healthy _ _

/-- The port of the first device is down, that of the second is active, and the constructor
throws. -/
theorem not_selectsFirstActive_down_up :
    (∀ d ∈ [singlePort "mlx5_0" .down, singlePort "mlx5_1" .active], d.Healthy) ∧
      (singlePort "mlx5_1" .active).Active 1 ∧
      openDevice (.ok [singlePort "mlx5_0" .down, singlePort "mlx5_1" .active]) "" =
        .error noActivePort ∧
      ¬ SelectsFirstActive [singlePort "mlx5_0" .down, singlePort "mlx5_1" .active] := by
  have hup : (singlePort "mlx5_1" .active).Active 1 := ⟨_, rfl, rfl⟩
  have hthrows : openDevice (.ok [singlePort "mlx5_0" .down, singlePort "mlx5_1" .active]) "" =
      .error noActivePort := by
    have hfind : findActivePortFrom (singlePort "mlx5_0" .down) 1 = .error noActivePort := by
      rw [findActivePortFrom, findActivePortFrom]
      rfl
    rw [openDevice_default (singlePort_healthy _ _), hfind]
    rfl
  refine ⟨?_, hup, hthrows, ?_⟩
  · intro d hd
    rcases List.mem_pair.mp hd with rfl | rfl <;> exact singlePort_healthy _ _
  · intro h
    exact h.throws_only _ hthrows (singlePort "mlx5_1" .active) (by simp) 1 hup

end MicroCcl

import MicroCcl.Wire
import MicroCcl.Cursors

namespace MicroCcl
namespace OnArray
open Cursors

def putU16 (v : UInt16) : CursorM Unit := do
  store 0 (v >>> 8).toUInt8
  store 1 v.toUInt8
  advance 2

def putU32 (v : UInt32) : CursorM Unit := do
  store 0 (v >>> 24).toUInt8
  store 1 (v >>> 16).toUInt8
  store 2 (v >>> 8).toUInt8
  store 3 v.toUInt8
  advance 4

def putU8 (v : UInt8) : CursorM Unit := do
  store 0 v
  advance 1

/-- The loop over `shift`, from 56 down to 0. -/
def putU64 (v : UInt64) : CursorM Unit :=
  ([56, 48, 40, 32, 24, 16, 8, 0] : List UInt64).forM fun shift => putU8 (v >>> shift).toUInt8

/-- `std::memcpy(p, gid.raw, 16); p += 16`. -/
def putGid (gid : Gid) : CursorM Unit := do
  (List.finRange 16).forM fun i => store i (gid i)
  advance 16

def getU16 : CursorM UInt16 := do
  let b0 ← load 0
  let b1 ← load 1
  advance 2
  return b0.toUInt16 <<< 8 ||| b1.toUInt16

def getU32 : CursorM UInt32 := do
  let b0 ← load 0
  let b1 ← load 1
  let b2 ← load 2
  let b3 ← load 3
  advance 4
  return b0.toUInt32 <<< 24 ||| b1.toUInt32 <<< 16 ||| b2.toUInt32 <<< 8 ||| b3.toUInt32

def getU64 : CursorM UInt64 := loadAll 8 (fun v b => (v <<< 8) ||| b.toUInt64) 0

def getU8 : CursorM UInt8 := do
  let v ← load 0
  advance 1
  return v

def getGid : CursorM Gid := do
  let raw ← loadAll 16 (fun raw b => raw ++ [b]) []
  return fun i => raw.getD i 0

/-- `std::array<uint8_t, kEndpointInfoWireSize>`. -/
abbrev Bytes := {b : List UInt8 // b.length = endpointInfoWireSize}

def encodeEndpointInfo (info : QpEndpointInfo) : CursorM Unit := do
  putU32 info.rank
  putU32 info.qpNum
  putU32 info.psn
  putU16 info.lid
  putU8 info.portNum
  putU8 info.mtu
  putU8 info.gidIndex
  putGid info.gid
  putU32 info.rkey
  putU64 info.addr
  putU64 info.bufLen

def decodeEndpointInfo : CursorM QpEndpointInfo := do
  let rank ← getU32
  let qpNum ← getU32
  let psn ← getU32
  let lid ← getU16
  let portNum ← getU8
  let mtu ← getU8
  let gidIndex ← getU8
  let gid ← getGid
  let rkey ← getU32
  let addr ← getU64
  let bufLen ← getU64
  return { rank, qpNum, psn, lid, portNum, mtu, gidIndex, gid, rkey, addr, bufLen }

/-- The array and the cursor when `encode_endpoint_info` is done with `out`. -/
def encodeInto (info : QpEndpointInfo) (out : Bytes) : Option Cursor :=
  (encodeEndpointInfo info ⟨out, 0⟩).map Prod.snd

def decodeFrom (b : Bytes) : Option (QpEndpointInfo × Cursor) := decodeEndpointInfo ⟨b, 0⟩

theorem putU16_writes (v : UInt16) : Writes (putU16 v) (MicroCcl.putU16 v) := by
  have heq : putU16 v = storeAll (MicroCcl.putU16 v) := by
    simp [putU16, storeAll, MicroCcl.putU16]
  rw [heq]
  exact storeAll_writes _

theorem putU32_writes (v : UInt32) : Writes (putU32 v) (MicroCcl.putU32 v) := by
  have heq : putU32 v = storeAll (MicroCcl.putU32 v) := by
    simp [putU32, storeAll, MicroCcl.putU32]
  rw [heq]
  exact storeAll_writes _

theorem putU8_writes (v : UInt8) : Writes (putU8 v) (MicroCcl.putU8 v) := by
  have heq : putU8 v = storeAll (MicroCcl.putU8 v) := by
    simp [putU8, storeAll, MicroCcl.putU8]
  rw [heq]
  exact storeAll_writes _

theorem putGid_writes (gid : Gid) : Writes (putGid gid) (List.ofFn gid) := storeAll_writes _

theorem putU64_writes (v : UInt64) : Writes (putU64 v) (MicroCcl.putU64 v) :=
  Writes.forM (fun shift => putU8_writes (v >>> shift).toUInt8) _

theorem encodeEndpointInfo_writes (info : QpEndpointInfo) :
    Writes (encodeEndpointInfo info) (MicroCcl.encodeEndpointInfo info) := by
  have h := (putU32_writes info.rank).bind <| (putU32_writes info.qpNum).bind <|
    (putU32_writes info.psn).bind <| (putU16_writes info.lid).bind <|
    (putU8_writes info.portNum).bind <| (putU8_writes info.mtu).bind <|
    (putU8_writes info.gidIndex).bind <| (putGid_writes info.gid).bind <|
    (putU32_writes info.rkey).bind <| (putU64_writes info.addr).bind <| putU64_writes info.bufLen
  simpa only [encodeEndpointInfo, MicroCcl.encodeEndpointInfo, List.append_assoc] using h

/-- Every byte of the array is written, whatever it was. -/
theorem encodeInto_eq (info : QpEndpointInfo) (out : Bytes) :
    encodeInto info out =
      some ⟨MicroCcl.encodeEndpointInfo info, endpointInfoWireSize⟩ := by
  have h := encodeEndpointInfo_writes info [] out []
    (out.property.trans (encodeEndpointInfo_length info).symm)
  simp only [List.nil_append, List.append_nil, List.length_nil, Nat.zero_add,
    encodeEndpointInfo_length] at h
  rw [encodeInto, h]
  rfl

theorem getU16_reads (v : UInt16) : Reads getU16 (MicroCcl.putU16 v) v := by
  intro pre post
  have hv : (MicroCcl.getU16 (MicroCcl.putU16 v)).1 = v := by
    simpa using congrArg Prod.fst (getU16_putU16 v [])
  rw [getU16, bind_of_some (load_append rfl), bind_of_some (load_append rfl)]
  exact congrArg (fun v => some (v, _)) hv

theorem getU32_reads (v : UInt32) : Reads getU32 (MicroCcl.putU32 v) v := by
  intro pre post
  have hv : (MicroCcl.getU32 (MicroCcl.putU32 v)).1 = v := by
    simpa using congrArg Prod.fst (getU32_putU32 v [])
  rw [getU32, bind_of_some (load_append rfl), bind_of_some (load_append rfl),
    bind_of_some (load_append rfl), bind_of_some (load_append rfl)]
  exact congrArg (fun v => some (v, _)) hv

theorem getU8_reads (v : UInt8) : Reads getU8 (MicroCcl.putU8 v) v := by
  intro pre post
  rw [getU8, bind_of_some (load_append rfl)]
  rfl

theorem getU64_reads (v : UInt64) : Reads getU64 (MicroCcl.putU64 v) v := by
  have hv : (MicroCcl.putU64 v).foldl (fun (v : UInt64) b => (v <<< 8) ||| b.toUInt64) 0 = v :=
    congrArg Prod.fst (getU64_putU64 v [])
  have h := loadAll_reads (fun (v : UInt64) b => (v <<< 8) ||| b.toUInt64) (MicroCcl.putU64 v) 0
  rw [hv] at h
  exact h

theorem getGid_reads (gid : Gid) : Reads getGid (List.ofFn gid) gid := by
  have hcopy : ∀ bs acc : List UInt8, bs.foldl (fun raw b => raw ++ [b]) acc = acc ++ bs := by
    intro bs
    induction bs with
    | nil => simp
    | cons b bs ih => simp [ih]
  have hget : (fun i : Fin 16 => (List.ofFn gid).getD i 0) = gid := by
    simpa only [List.append_nil] using getD_ofFn_gid gid []
  have h := loadAll_reads (fun (raw : List UInt8) b => raw ++ [b]) (List.ofFn gid) []
  rw [hcopy, List.nil_append, List.length_ofFn] at h
  have hmap := h.map fun raw => fun i : Fin 16 => raw.getD i 0
  rw [hget] at hmap
  exact hmap

theorem decodeEndpointInfo_reads (info : QpEndpointInfo) :
    Reads decodeEndpointInfo (MicroCcl.encodeEndpointInfo info) info := by
  simp only [MicroCcl.encodeEndpointInfo, List.append_assoc]
  refine (getU32_reads info.rank).bind ?_
  refine (getU32_reads info.qpNum).bind ?_
  refine (getU32_reads info.psn).bind ?_
  refine (getU16_reads info.lid).bind ?_
  refine (getU8_reads info.portNum).bind ?_
  refine (getU8_reads info.mtu).bind ?_
  refine (getU8_reads info.gidIndex).bind ?_
  refine (getGid_reads info.gid).bind ?_
  refine (getU32_reads info.rkey).bind ?_
  refine (getU64_reads info.addr).bind ?_
  exact (getU64_reads info.bufLen).map _

/-- The decoder gives back what was encoded and reads the whole array. -/
theorem decodeFrom_eq (info : QpEndpointInfo) {b : Bytes}
    (hb : b.val = MicroCcl.encodeEndpointInfo info) :
    decodeFrom b = some (info, ⟨b, endpointInfoWireSize⟩) := by
  have h := decodeEndpointInfo_reads info [] []
  simpa only [decodeFrom, ← hb, List.nil_append, List.append_nil, List.length_nil, Nat.zero_add,
    b.property] using h

/-- Encoding and decoding are inverse to each other: every info comes back from the array it was
written to, and every array is what the decoded info is written as. Both cursors go over exactly the
bytes of the array, and the encoder leaves nothing of what was in it before. -/
theorem endpointInfo_bijection :
    (∀ info, ∃ b : Bytes, (∀ out, encodeInto info out = some ⟨b, endpointInfoWireSize⟩) ∧
      decodeFrom b = some (info, ⟨b, endpointInfoWireSize⟩)) ∧
    ∀ b : Bytes, ∃ info, decodeFrom b = some (info, ⟨b, endpointInfoWireSize⟩) ∧
      ∀ out, encodeInto info out = some ⟨b, endpointInfoWireSize⟩ := by
  refine ⟨fun info => ⟨⟨MicroCcl.encodeEndpointInfo info, encodeEndpointInfo_length info⟩,
    fun out => encodeInto_eq info out, decodeFrom_eq info rfl⟩, fun b => ?_⟩
  have hback := encodeEndpointInfo_decode b.property
  refine ⟨MicroCcl.decodeEndpointInfo b, decodeFrom_eq _ hback.symm, fun out => ?_⟩
  rw [encodeInto_eq, hback]

end OnArray
end MicroCcl

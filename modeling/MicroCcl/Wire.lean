import Mathlib.Data.Fintype.Basic
import Mathlib.Data.List.OfFn
import Mathlib.Tactic.Ring

namespace MicroCcl

/-- `ibv_gid`: sixteen opaque bytes. -/
abbrev Gid := Fin 16 → UInt8

structure QpEndpointInfo where
  rank : UInt32 := 0
  qpNum : UInt32 := 0
  psn : UInt32 := 0
  lid : UInt16 := 0
  portNum : UInt8 := 0
  mtu : UInt8 := 0
  gidIndex : UInt8 := 0
  gid : Gid := fun _ => 0
  rkey : UInt32 := 0
  addr : UInt64 := 0
  bufLen : UInt64 := 0
  deriving DecidableEq

/-- `kEndpointInfoWireSize`. -/
def endpointInfoWireSize : ℕ := 4 + 4 + 4 + 2 + 1 + 1 + 1 + 16 + 4 + 8 + 8

def putU16 (v : UInt16) : List UInt8 := [(v >>> 8).toUInt8, v.toUInt8]

def putU32 (v : UInt32) : List UInt8 :=
  [(v >>> 24).toUInt8, (v >>> 16).toUInt8, (v >>> 8).toUInt8, v.toUInt8]

def putU64 (v : UInt64) : List UInt8 :=
  ([56, 48, 40, 32, 24, 16, 8, 0] : List UInt64).map fun shift => (v >>> shift).toUInt8

def putU8 (v : UInt8) : List UInt8 := [v]

def getU16 (p : List UInt8) : UInt16 × List UInt8 :=
  ((p.getD 0 0).toUInt16 <<< 8 ||| (p.getD 1 0).toUInt16, p.drop 2)

def getU32 (p : List UInt8) : UInt32 × List UInt8 :=
  ((p.getD 0 0).toUInt32 <<< 24 ||| (p.getD 1 0).toUInt32 <<< 16 ||| (p.getD 2 0).toUInt32 <<< 8 |||
    (p.getD 3 0).toUInt32, p.drop 4)

def getU64 (p : List UInt8) : UInt64 × List UInt8 :=
  ((List.range 8).foldl (fun v i => (v <<< 8) ||| (p.getD i 0).toUInt64) 0, p.drop 8)

def getU8 (p : List UInt8) : UInt8 × List UInt8 := (p.getD 0 0, p.drop 1)

def encodeEndpointInfo (info : QpEndpointInfo) : List UInt8 :=
  putU32 info.rank ++ putU32 info.qpNum ++ putU32 info.psn ++ putU16 info.lid ++
    putU8 info.portNum ++ putU8 info.mtu ++ putU8 info.gidIndex ++ List.ofFn info.gid ++
    putU32 info.rkey ++ putU64 info.addr ++ putU64 info.bufLen

def decodeEndpointInfo (p : List UInt8) : QpEndpointInfo :=
  let (rank, p) := getU32 p
  let (qpNum, p) := getU32 p
  let (psn, p) := getU32 p
  let (lid, p) := getU16 p
  let (portNum, p) := getU8 p
  let (mtu, p) := getU8 p
  let (gidIndex, p) := getU8 p
  let gid : Gid := fun i => p.getD i 0
  let p := p.drop 16
  let (rkey, p) := getU32 p
  let (addr, p) := getU64 p
  let (bufLen, _) := getU64 p
  { rank, qpNum, psn, lid, portNum, mtu, gidIndex, gid, rkey, addr, bufLen }

theorem getLsbD_low32 (v : UInt32) (j : ℕ) :
    v.toUInt8.toUInt32.toBitVec.getLsbD j = (decide (j < 8) && v.toBitVec.getLsbD j) := by
  simp only [UInt8.toBitVec_toUInt32, UInt32.toBitVec_toUInt8, BitVec.getLsbD_setWidth]
  grind

theorem getLsbD_low16 (v : UInt16) (j : ℕ) :
    v.toUInt8.toUInt16.toBitVec.getLsbD j = (decide (j < 8) && v.toBitVec.getLsbD j) := by
  simp only [UInt8.toBitVec_toUInt16, UInt16.toBitVec_toUInt8, BitVec.getLsbD_setWidth]
  grind

theorem getU8_putU8 (v : UInt8) (p : List UInt8) : getU8 (putU8 v ++ p) = (v, p) := rfl

theorem getU16_putU16 (v : UInt16) (p : List UInt8) : getU16 (putU16 v ++ p) = (v, p) := by
  refine Prod.ext (UInt16.toBitVec_inj.mp (BitVec.eq_of_getLsbD_eq fun i hi => ?_)) rfl
  simp [getU16, putU16, getLsbD_low16, -UInt16.toUInt16_toUInt8, -UInt8.toBitVec_toUInt16]
  grind

theorem getU32_putU32 (v : UInt32) (p : List UInt8) : getU32 (putU32 v ++ p) = (v, p) := by
  refine Prod.ext (UInt32.toBitVec_inj.mp (BitVec.eq_of_getLsbD_eq fun i hi => ?_)) rfl
  simp [getU32, putU32, getLsbD_low32, -UInt32.toUInt32_toUInt8, -UInt8.toBitVec_toUInt32]
  grind

theorem toNat_shiftIn (v : UInt64) (b : UInt8) (hv : v.toNat < 2 ^ 56) :
    ((v <<< 8) ||| b.toUInt64).toNat = v.toNat * 256 + b.toNat := by
  have hb : b.toNat < 2 ^ 8 := b.toNat_lt
  have hs : (v <<< 8).toNat = v.toNat <<< 8 := by
    rw [UInt64.toNat_shiftLeft, Nat.shiftLeft_eq, Nat.shiftLeft_eq]
    exact Nat.mod_eq_of_lt (by simp; omega)
  rw [UInt64.toNat_or, hs, UInt8.toNat_toUInt64, ← Nat.shiftLeft_add_eq_or_of_lt hb,
    Nat.shiftLeft_eq]

theorem toNat_foldl_shiftIn (bs : List UInt8) (v : UInt64)
    (h : (v.toNat + 1) * 256 ^ bs.length ≤ 2 ^ 64) :
    (bs.foldl (fun (v : UInt64) b => (v <<< 8) ||| b.toUInt64) v).toNat =
      bs.foldl (fun n b => n * 256 + b.toNat) v.toNat := by
  induction bs generalizing v with
  | nil => rfl
  | cons b bs ih =>
    have hb : b.toNat < 256 := b.toNat_lt
    rw [List.length_cons, Nat.pow_succ', ← Nat.mul_assoc] at h
    have hpos : 1 ≤ 256 ^ bs.length := Nat.one_le_pow _ _ (by omega)
    have hv : v.toNat < 2 ^ 56 := by
      have := (Nat.mul_le_mul_left ((v.toNat + 1) * 256) hpos).trans h
      omega
    rw [List.foldl_cons, List.foldl_cons, ih, toNat_shiftIn v b hv]
    rw [toNat_shiftIn v b hv]
    exact (Nat.mul_le_mul_right _ (by omega)).trans h

/-- The next byte from the top. -/
theorem div_mul_add_byte (n k : ℕ) : n / 2 ^ (k + 8) * 256 + n / 2 ^ k % 2 ^ 8 = n / 2 ^ k := by
  rw [pow_add, ← Nat.div_div_eq_div_mul]
  exact Nat.div_add_mod' (n / 2 ^ k) 256

theorem foldl_putU64 (v : UInt64) :
    (putU64 v).foldl (fun n b => n * 256 + b.toNat) 0 = v.toNat := by
  have hv := v.toNat_lt
  have htop : v.toNat / 2 ^ 56 < 2 ^ 8 := by omega
  rw [putU64, List.foldl_map]
  simp only [UInt64.toNat_toUInt8, UInt64.toNat_shiftRight, Nat.shiftRight_eq_div_pow]
  simp only [List.foldl_cons, List.foldl_nil, UInt64.reduceToNat, Nat.reduceMod, Nat.zero_mul,
    Nat.zero_add, Nat.mod_eq_of_lt htop]
  rw [div_mul_add_byte _ 48, div_mul_add_byte _ 40, div_mul_add_byte _ 32, div_mul_add_byte _ 24,
    div_mul_add_byte _ 16, div_mul_add_byte _ 8, div_mul_add_byte _ 0, pow_zero, Nat.div_one]

theorem getU64_putU64 (v : UInt64) (p : List UInt8) : getU64 (putU64 v ++ p) = (v, p) := by
  refine Prod.ext (UInt64.toNat_inj.mp ?_) rfl
  change ((putU64 v).foldl (fun (v : UInt64) b => (v <<< 8) ||| b.toUInt64) 0).toNat = v.toNat
  rw [toNat_foldl_shiftIn _ _ (by simp [putU64])]
  exact foldl_putU64 v

@[simp] theorem encodeEndpointInfo_length (info : QpEndpointInfo) :
    (encodeEndpointInfo info).length = endpointInfoWireSize := by
  simp [encodeEndpointInfo, endpointInfoWireSize, putU8, putU16, putU32, putU64]

theorem getD_ofFn_gid (gid : Gid) (p : List UInt8) :
    (fun i : Fin 16 => (List.ofFn gid ++ p).getD i 0) = gid := by
  funext i
  rw [List.getD_eq_getElem?_getD, List.getElem?_append_left (by simp), List.getElem?_ofFn,
    dif_pos i.isLt]
  rfl

theorem decodeEndpointInfo_encode (info : QpEndpointInfo) :
    decodeEndpointInfo (encodeEndpointInfo info) = info := by
  have hdrop : ∀ p, (List.ofFn info.gid ++ p).drop 16 = p := fun p =>
    List.drop_left' (by simp)
  have hlast := getU64_putU64 info.bufLen []
  rw [List.append_nil] at hlast
  simp only [decodeEndpointInfo, encodeEndpointInfo, List.append_assoc, getU32_putU32,
    getU16_putU16, getU8_putU8, getD_ofFn_gid, hdrop, getU64_putU64, hlast]

theorem putU8_getU8 {p : List UInt8} (hp : 1 ≤ p.length) : putU8 (getU8 p).1 ++ p.drop 1 = p := by
  match p, hp with
  | _ :: _, _ => rfl

theorem putU16_getU16 {p : List UInt8} (hp : 2 ≤ p.length) :
    putU16 (getU16 p).1 ++ p.drop 2 = p := by
  match p, hp with
  | b0 :: b1 :: p, _ =>
    have h0 : ((b0.toUInt16 <<< 8 ||| b1.toUInt16) >>> 8).toUInt8 = b0 := by
      refine UInt8.toBitVec_inj.mp (BitVec.eq_of_getLsbD_eq fun i hi => ?_)
      simp
      grind
    have h1 : (b0.toUInt16 <<< 8 ||| b1.toUInt16).toUInt8 = b1 := by
      refine UInt8.toBitVec_inj.mp (BitVec.eq_of_getLsbD_eq fun i hi => ?_)
      simp
    simp only [putU16, getU16, List.getD_cons_zero, List.getD_cons_succ, h0, h1]
    rfl

theorem putU32_getU32 {p : List UInt8} (hp : 4 ≤ p.length) :
    putU32 (getU32 p).1 ++ p.drop 4 = p := by
  match p, hp with
  | b0 :: b1 :: b2 :: b3 :: p, _ =>
    have hbits : ∀ v : UInt32, v = b0.toUInt32 <<< 24 ||| b1.toUInt32 <<< 16 |||
        b2.toUInt32 <<< 8 ||| b3.toUInt32 → putU32 v = [b0, b1, b2, b3] := by
      rintro v rfl
      simp only [putU32, List.cons.injEq, and_true]
      refine ⟨?_, ?_, ?_, ?_⟩ <;>
        refine UInt8.toBitVec_inj.mp (BitVec.eq_of_getLsbD_eq fun i hi => ?_)
      · simp
        grind
      · simp
        grind
      · simp
        grind
      · simp
    rw [hbits (getU32 (b0 :: b1 :: b2 :: b3 :: p)).1 rfl]
    rfl

theorem putU64_getU64 {p : List UInt8} (hp : 8 ≤ p.length) :
    putU64 (getU64 p).1 ++ p.drop 8 = p := by
  match p, hp with
  | b0 :: b1 :: b2 :: b3 :: b4 :: b5 :: b6 :: b7 :: p, _ =>
    have hv : (getU64 (b0 :: b1 :: b2 :: b3 :: b4 :: b5 :: b6 :: b7 :: p)).1.toNat =
        [b0, b1, b2, b3, b4, b5, b6, b7].foldl (fun n b => n * 256 + b.toNat) 0 :=
      toNat_foldl_shiftIn [b0, b1, b2, b3, b4, b5, b6, b7] 0 (by simp)
    generalize (getU64 (b0 :: b1 :: b2 :: b3 :: b4 :: b5 :: b6 :: b7 :: p)).1 = v at hv ⊢
    have hbytes : putU64 v = [b0, b1, b2, b3, b4, b5, b6, b7] := by
      simp only [List.foldl_cons, List.foldl_nil] at hv
      have hlt := fun b : UInt8 => b.toNat_lt
      have h0 := hlt b0
      have h1 := hlt b1
      have h2 := hlt b2
      have h3 := hlt b3
      have h4 := hlt b4
      have h5 := hlt b5
      have h6 := hlt b6
      have h7 := hlt b7
      simp only [putU64, List.map_cons, List.map_nil, List.cons.injEq, and_true,
        ← UInt8.toNat_inj]
      simp [Nat.shiftRight_eq_div_pow, hv]
      omega
    rw [hbytes]
    rfl

theorem ofFn_getD_gid {p : List UInt8} (hp : 16 ≤ p.length) :
    List.ofFn (fun i : Fin 16 => p.getD i 0) ++ p.drop 16 = p := by
  have htake : List.ofFn (fun i : Fin 16 => p.getD i 0) = p.take 16 := by
    apply List.ext_getElem?
    intro i
    rw [List.getElem?_ofFn, List.getElem?_take]
    split_ifs with hi
    · rw [List.getD_eq_getElem?_getD, List.getElem?_eq_getElem (hi.trans_le hp)]
      rfl
    · rfl
  rw [htake, List.take_append_drop]

/-- The fields by their places in the array. -/
theorem decodeEndpointInfo_eq (b : List UInt8) : decodeEndpointInfo b =
    { rank := (getU32 b).1, qpNum := (getU32 (b.drop 4)).1, psn := (getU32 (b.drop 8)).1
      lid := (getU16 (b.drop 12)).1, portNum := (getU8 (b.drop 14)).1
      mtu := (getU8 (b.drop 15)).1, gidIndex := (getU8 (b.drop 16)).1
      gid := fun i => (b.drop 17).getD i 0, rkey := (getU32 (b.drop 33)).1
      addr := (getU64 (b.drop 37)).1, bufLen := (getU64 (b.drop 45)).1 } := by
  have h8 : ∀ p, (getU8 p).2 = p.drop 1 := fun _ => rfl
  have h16 : ∀ p, (getU16 p).2 = p.drop 2 := fun _ => rfl
  have h32 : ∀ p, (getU32 p).2 = p.drop 4 := fun _ => rfl
  have h64 : ∀ p, (getU64 p).2 = p.drop 8 := fun _ => rfl
  simp only [decodeEndpointInfo, h8, h16, h32, h64, List.drop_drop, Nat.reduceAdd]

theorem encodeEndpointInfo_decode {b : List UInt8} (hb : b.length = endpointInfoWireSize) :
    encodeEndpointInfo (decodeEndpointInfo b) = b := by
  have hlen : ∀ n, (b.drop n).length = 53 - n := fun n => by rw [List.length_drop, hb]; rfl
  have h45 := putU64_getU64 (p := b.drop 45) (by rw [hlen])
  have h37 := putU64_getU64 (p := b.drop 37) (by rw [hlen]; decide)
  have h33 := putU32_getU32 (p := b.drop 33) (by rw [hlen]; decide)
  have h17 := ofFn_getD_gid (p := b.drop 17) (by rw [hlen]; decide)
  have h16 := putU8_getU8 (p := b.drop 16) (by rw [hlen]; decide)
  have h15 := putU8_getU8 (p := b.drop 15) (by rw [hlen]; decide)
  have h14 := putU8_getU8 (p := b.drop 14) (by rw [hlen]; decide)
  have h12 := putU16_getU16 (p := b.drop 12) (by rw [hlen]; decide)
  have h8 := putU32_getU32 (p := b.drop 8) (by rw [hlen]; decide)
  have h4 := putU32_getU32 (p := b.drop 4) (by rw [hlen]; decide)
  have h0 := putU32_getU32 (p := b) (by rw [hb]; decide)
  have hend : b.drop 53 = [] := List.drop_eq_nil_of_le hb.le
  simp only [List.drop_drop, Nat.reduceAdd, hend,
    List.append_nil] at h45 h37 h33 h17 h16 h15 h14 h12 h8 h4
  -- from the last field to the first: a field before what is behind it
  rw [decodeEndpointInfo_eq]
  simp only [encodeEndpointInfo, List.append_assoc]
  rw [h45, h37, h33, h17, h16, h15, h14, h12, h8, h4, h0]

end MicroCcl

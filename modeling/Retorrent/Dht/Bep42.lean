import Mathlib.Data.Finset.Card
import Mathlib.Tactic.IntervalCases
import Retorrent.Dht.InfoHash
import Retorrent.Dht.Node

/-!
# Node ids and addresses

An id is tied to an address by the first 21 bits of a checksum of the masked address, so that an
address lends itself to few ids near a target. The checksum is a parameter.
-/

namespace Retorrent.Dht.Bep42

open Rust

def ipv4Mask : UInt32 := 0x030f3fff

def ipv6Mask : UInt64 := 0x0103070f1f3f7fff

/-- `is_unique_local_v6`. -/
def isUniqueLocalV6 (ip : BitVec 128) : Bool := ip.extractLsb' 120 8 &&& 0xfe = 0xfc

def isLocal (ip : IpAddr) : Bool :=
  match ip with
  | .v4 v4 => ip.isLoopback || Ipv4.isPrivate v4 || Ipv4.isLinkLocal v4 || ip.isUnspecified
  | .v6 v6 => ip.isLoopback || ip.isUnspecified || isUniqueLocalV6 v6

/-- The bytes that `compute_crc` takes the checksum of. -/
def masked (ip : IpAddr) (r : UInt8) : List UInt8 :=
  match ip with
  | .v4 v4 => BigEndian.bytes 4 ((v4 &&& ipv4Mask) ||| (r.toUInt32 <<< 29)).toNat
  | .v6 v6 =>
    let high := UInt64.ofBitVec (v6.extractLsb' 64 64)
    BigEndian.bytes 8 ((high &&& ipv6Mask) ||| (r.toUInt64 <<< 61)).toNat

def computeCrc (crc32c : List UInt8 → UInt32) (ip : IpAddr) (r : UInt8) : UInt32 :=
  crc32c (masked ip r)

/-- `assemble_id`, with the bytes that the generator fills in. -/
def assembleId (crc : UInt32) (r : UInt8) (rng : { bytes : List UInt8 // bytes.length = 17 }) :
    InfoHash :=
  ⟨[(crc >>> 24 &&& 0xff).toUInt8, (crc >>> 16 &&& 0xff).toUInt8,
      (rng.1[0] &&& (0x07 : UInt8)) ||| (crc >>> 8 &&& 0xf8).toUInt8] ++ rng.1.drop 1 ++ [r], by
    simp [rng.2]⟩

/-- `generate_node_id`, with the numbers that it draws. -/
def generateNodeId (crc32c : List UInt8 → UInt32) (ip : IpAddr) (drawn : UInt8)
    (rng : { bytes : List UInt8 // bytes.length = 17 }) (randomId : InfoHash) : InfoHash :=
  if isLocal ip then randomId
  else
    let r := drawn &&& 0x07
    assembleId (computeCrc crc32c ip r) r rng

/-- The bits of an id that the checksum decides. -/
def prefixBits (id : InfoHash) : UInt32 :=
  ((id.1[0].toUInt32 <<< 24) ||| (id.1[1].toUInt32 <<< 16) ||| (id.1[2].toUInt32 <<< 8)) &&&
    0xfffff800

/-- `node_id[19]`. -/
def lastByte (id : InfoHash) : UInt8 := id.1[19]

def validateNodeId (crc32c : List UInt8 → UInt32) (id : InfoHash) (ip : IpAddr) : Bool :=
  if isLocal ip then true
  else
    let r := lastByte id &&& 0x07
    prefixBits id = computeCrc crc32c ip r &&& 0xfffff800

/-- The bytes of a checksum without its last eleven bits, whatever the generator adds to them. -/
theorem bytes_prefix (crc : UInt32) (x : UInt8) :
    ((crc >>> 24 &&& 0xff).toUInt8.toUInt32 <<< 24 |||
      (crc >>> 16 &&& 0xff).toUInt8.toUInt32 <<< 16 |||
      ((x &&& (0x07 : UInt8)) ||| (crc >>> 8 &&& 0xf8).toUInt8).toUInt32 <<< 8) &&& 0xfffff800 =
      crc &&& 0xfffff800 := by
  apply UInt32.toBitVec_inj.mp
  apply BitVec.eq_of_getLsbD_eq
  intro i hi
  simp only [UInt32.toBitVec_and, UInt32.toBitVec_or, UInt32.toBitVec_shiftLeft,
    UInt32.toBitVec_shiftRight, UInt8.toBitVec_toUInt32, UInt32.toBitVec_toUInt8,
    UInt8.toBitVec_and, UInt8.toBitVec_or]
  interval_cases i
  all_goals simp

variable {crc32c : List UInt8 → UInt32} {ip ip' : IpAddr} {id : InfoHash}

theorem prefixBits_assembleId (crc : UInt32) (r : UInt8)
    (rng : { bytes : List UInt8 // bytes.length = 17 }) :
    prefixBits (assembleId crc r rng) = crc &&& 0xfffff800 :=
  bytes_prefix crc rng.1[0]

theorem lastByte_assembleId (crc : UInt32) (r : UInt8)
    (rng : { bytes : List UInt8 // bytes.length = 17 }) : lastByte (assembleId crc r rng) = r := by
  simp [lastByte, assembleId, rng.2]

theorem and_seven (r : UInt8) : r &&& 0x07 &&& 0x07 = r &&& 0x07 := by
  rw [UInt8.and_assoc, UInt8.and_self]

/-- An id that is made for an address is valid for it. -/
theorem validateNodeId_generate (crc32c : List UInt8 → UInt32) (ip : IpAddr) (drawn : UInt8)
    (rng : { bytes : List UInt8 // bytes.length = 17 }) (randomId : InfoHash) :
    validateNodeId crc32c (generateNodeId crc32c ip drawn rng randomId) ip = true := by
  rw [validateNodeId, generateNodeId]
  cases hlocal : isLocal ip with
  | true => rfl
  | false =>
    simp only [Bool.false_eq_true, if_false, prefixBits_assembleId, lastByte_assembleId, and_seven,
      decide_true]

/-- Two addresses that the checksum does not tell apart. Of an IPv6 address it takes the first
half at most. -/
def SameNetwork : IpAddr → IpAddr → Prop
  | .v4 a, .v4 b => a &&& ipv4Mask = b &&& ipv4Mask
  | .v6 a, .v6 b => UInt64.ofBitVec (a.extractLsb' 64 64) &&& ipv6Mask =
      UInt64.ofBitVec (b.extractLsb' 64 64) &&& ipv6Mask
  | _, _ => False

theorem computeCrc_of_sameNetwork (h : SameNetwork ip ip') (r : UInt8) :
    computeCrc crc32c ip r = computeCrc crc32c ip' r := by
  rw [computeCrc, computeCrc]
  cases ip with
  | v4 a =>
    cases ip' with
    | v4 b => rw [masked, masked, show a &&& ipv4Mask = b &&& ipv4Mask from h]
    | v6 b => exact h.elim
  | v6 a =>
    cases ip' with
    | v4 b => exact h.elim
    | v6 b =>
      have hsame : UInt64.ofBitVec (a.extractLsb' 64 64) &&& ipv6Mask =
          UInt64.ofBitVec (b.extractLsb' 64 64) &&& ipv6Mask := h
      simp only [masked, hsame]

theorem and_seven_lt (r : UInt8) : (r &&& 0x07).toNat < 8 := by
  rw [UInt8.toNat_and]
  exact lt_of_le_of_lt Nat.and_le_right (by decide)

/-- A node gets a valid id for its address, and all the addresses of a network together have valid
ids with eight different prefixes at most. -/
theorem nodeIds_of_network (crc32c : List UInt8 → UInt32) (ip : IpAddr) :
    (∀ drawn rng randomId,
      validateNodeId crc32c (generateNodeId crc32c ip drawn rng randomId) ip = true) ∧
    ∃ prefixes : Finset UInt32, prefixes.card ≤ 8 ∧
      ∀ ip' id, SameNetwork ip ip' → isLocal ip' = false →
        validateNodeId crc32c id ip' = true → prefixBits id ∈ prefixes := by
  refine ⟨validateNodeId_generate crc32c ip, (Finset.range 8).image fun r =>
    computeCrc crc32c ip (.ofNat r) &&& 0xfffff800, ?_, ?_⟩
  · exact Finset.card_image_le.trans (Finset.card_range 8).le
  · intro ip' id hsame hlocal hvalid
    rw [validateNodeId, hlocal] at hvalid
    have hprefix : prefixBits id = computeCrc crc32c ip' (lastByte id &&& 0x07) &&& 0xfffff800 :=
      of_decide_eq_true hvalid
    refine Finset.mem_image.mpr ⟨(lastByte id &&& 0x07).toNat, ?_, ?_⟩
    · exact Finset.mem_range.mpr (and_seven_lt _)
    · rw [UInt8.ofNat_toNat, hprefix, computeCrc_of_sameNetwork hsame]

end Retorrent.Dht.Bep42

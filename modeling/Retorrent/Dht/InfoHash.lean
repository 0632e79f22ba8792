import Retorrent.Dht.Protocol
import Mathlib.Data.Nat.Bitwise

/-!
# Bits and order of the ids

The bits of an id are numbered from the highest, and ids are ordered as byte arrays.
-/

namespace Retorrent.InfoHash

open Rust

/-- `1 << (7 - bit % 8)`. -/
def mask (bit : ℕ) : UInt8 := 1 <<< UInt8.ofNat (7 - bit % 8)

def getBit (h : InfoHash) (bit : ℕ) : Res Bool :=
  match h.1[bit / 8]? with
  | some byte => .ok (byte &&& mask bit != 0)
  | none => .panic .indexOutOfBounds

def setBit (h : InfoHash) (bit : ℕ) (value : Bool) : Res InfoHash :=
  if bit / 8 < h.1.length then
    .ok ⟨h.1.modify (bit / 8) fun byte => if value then byte ||| mask bit else byte &&& ~~~mask bit,
      by rw [List.length_modify, h.2]⟩
  else .panic .indexOutOfBounds

/-- The XOR of the two ids. -/
def distance (a b : InfoHash) : InfoHash :=
  ⟨List.zipWith (· ^^^ ·) a.1 b.1, by rw [List.length_zipWith, a.2, b.2, Nat.min_self]⟩

/-- The derived order. -/
def lt (a b : InfoHash) : Bool := BigEndian.lessThan a.1 b.1

def le (a b : InfoHash) : Bool := !lt b a

/-- The id with one byte throughout. -/
def ofByte (byte : UInt8) : InfoHash := ⟨List.replicate 20 byte, List.length_replicate⟩

/-- The number that an id stands for. -/
def toNat (h : InfoHash) : ℕ := BigEndian.value h.1

variable {a b h : InfoHash} {k : ℕ}

theorem toNat_lt (h : InfoHash) : h.toNat < 2 ^ 160 := by
  have hlt := BigEndian.value_lt h.1
  rw [h.2] at hlt
  exact hlt

theorem toNat_injective (hab : a.toNat = b.toNat) : a = b :=
  Subtype.ext (BigEndian.value_injective (a.2.trans b.2.symm) hab)

theorem lt_iff : lt a b = true ↔ a.toNat < b.toNat :=
  BigEndian.lessThan_iff (a.2.trans b.2.symm)

theorem le_iff : le a b = true ↔ a.toNat ≤ b.toNat := by
  rw [le, Bool.not_eq_true', ← Bool.not_eq_true, lt_iff, not_lt]

theorem distance_comm (a b : InfoHash) : a.distance b = b.distance a :=
  Subtype.ext (List.zipWith_comm_of_comm UInt8.xor_comm)

theorem distance_distance (a b : InfoHash) : (a.distance b).distance b = a := by
  apply Subtype.ext
  apply List.ext_getElem
  · rw [((a.distance b).distance b).2, a.2]
  · intro i _ _
    simp only [distance, List.getElem_zipWith, UInt8.xor_assoc, UInt8.xor_self, UInt8.xor_zero]

/-- Two ids are never at the same distance from a third. -/
theorem distance_injective (target : InfoHash) :
    Function.Injective fun a : InfoHash => a.distance target := by
  intro a b hab
  have hback := congrArg (fun d : InfoHash => d.distance target) hab
  simp only [distance_distance] at hback
  exact hback

section Bytes

variable (byte : UInt8) {i j : ℕ}

theorem getLsbD_mask (hj : j < 8) : (mask k).toBitVec.getLsbD j = decide (j = 7 - k % 8) := by
  have hmask : ∀ i j : Fin 8,
      (1 <<< UInt8.ofNat i : UInt8).toBitVec.getLsbD j = decide (j = i) := by
    decide
  have hkj := hmask ⟨7 - k % 8, by omega⟩ ⟨j, hj⟩
  rw [mask, hkj]
  simp

theorem testBit_toNat : byte.toNat.testBit j = byte.toBitVec.getLsbD j :=
  BitVec.testBit_toNat byte.toBitVec

theorem testBit_or_mask (hj : j < 8) :
    (byte ||| mask k).toNat.testBit j = if j = 7 - k % 8 then true else byte.toNat.testBit j := by
  rw [testBit_toNat, testBit_toNat, UInt8.toBitVec_or, BitVec.getLsbD_or, getLsbD_mask hj]
  by_cases h : j = 7 - k % 8 <;> simp [h]

theorem testBit_and_not_mask (hj : j < 8) :
    (byte &&& ~~~mask k).toNat.testBit j =
      if j = 7 - k % 8 then false else byte.toNat.testBit j := by
  rw [testBit_toNat, testBit_toNat, UInt8.toBitVec_and, BitVec.getLsbD_and, UInt8.toBitVec_not,
    BitVec.getLsbD_not, getLsbD_mask hj]
  by_cases h : j = 7 - k % 8 <;> simp [h, hj]

theorem testBit_write (hj : j < 8) (value : Bool) :
    (if value then byte ||| mask k else byte &&& ~~~mask k).toNat.testBit j =
      if j = 7 - k % 8 then value else byte.toNat.testBit j := by
  cases value with
  | true => exact testBit_or_mask byte hj
  | false => exact testBit_and_not_mask byte hj

/-- A mask picks one bit. -/
theorem and_mask_ne_zero : (byte &&& mask k != 0) = byte.toNat.testBit (7 - k % 8) := by
  have hk : 7 - k % 8 < 8 := by omega
  rw [testBit_toNat, Bool.eq_iff_iff, bne_iff_ne]
  constructor
  · intro hne
    by_contra hbit
    apply hne
    rw [← UInt8.toBitVec_inj]
    apply BitVec.eq_of_getLsbD_eq
    intro i hi
    rw [UInt8.toBitVec_and, BitVec.getLsbD_and, getLsbD_mask hi]
    by_cases heq : i = 7 - k % 8 <;> simp_all
  · rintro hbit hzero
    have hk' : (byte &&& mask k).toBitVec.getLsbD (7 - k % 8) = true := by
      rw [UInt8.toBitVec_and, BitVec.getLsbD_and, getLsbD_mask hk, hbit]
      simp
    rw [hzero] at hk'
    simp at hk'

end Bytes

/-- The number of a bit, counted from the lowest. -/
theorem testBit_toNat_eq {byte : UInt8} (hbyte : h.1[k / 8]? = some byte) :
    h.toNat.testBit (159 - k) = byte.toNat.testBit (7 - k % 8) := by
  have hbit := BigEndian.testBit_value hbyte
  rwa [h.2] at hbit

theorem getBit_eq (hk : k < 160) : h.getBit k = .ok (h.toNat.testBit (159 - k)) := by
  have hlt : k / 8 < h.1.length := by
    rw [h.2]
    omega
  have hbyte := List.getElem?_eq_getElem hlt
  rw [getBit, hbyte, testBit_toNat_eq hbyte]
  exact congrArg Outcome.ok (and_mask_ne_zero _)

/-- One bit is set or cleared, and the others stay as they are. -/
theorem setBit_eq (hk : k < 160) (value : Bool) :
    ∃ h', h.setBit k value = .ok h' ∧
      ∀ i, h'.toNat.testBit i = if i = 159 - k then value else h.toNat.testBit i := by
  have hlt : k / 8 < h.1.length := by
    rw [h.2]
    omega
  refine ⟨_, if_pos hlt, ?_⟩
  intro i
  by_cases hi : i < 160
  · obtain ⟨j, hj, rfl⟩ : ∃ j < 160, i = 159 - j := ⟨159 - i, by omega, by omega⟩
    have hj' : j / 8 < h.1.length := by
      rw [h.2]
      omega
    have hbyte := List.getElem?_eq_getElem hj'
    have hnew := List.getElem?_modify
      (fun byte => if value then byte ||| mask k else byte &&& ~~~mask k) (k / 8) h.1 (j / 8)
    rw [hbyte] at hnew
    rw [testBit_toNat_eq hbyte, testBit_toNat_eq hnew]
    dsimp only
    by_cases hkj : k / 8 = j / 8
    · rw [if_pos hkj, testBit_write _ (by omega)]
      congr 1
      rw [eq_iff_iff]
      omega
    · rw [if_neg hkj, if_neg]
      omega
  · rw [Nat.testBit_lt_two_pow, Nat.testBit_lt_two_pow, if_neg (by omega)]
    · exact (toNat_lt h).trans_le (Nat.pow_le_pow_right (by omega) (by omega))
    · exact (toNat_lt _).trans_le (Nat.pow_le_pow_right (by omega) (by omega))

end Retorrent.InfoHash

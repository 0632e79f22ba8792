import Mathlib.Data.List.Basic

/-!
# Bitfields

The pieces that a peer has announced, one bit for each piece with the first piece
in the highest bit of the first byte.
-/

namespace Retorrent

/-- The bit of a piece, also `has_piece`. Pieces beyond the end are not had. -/
def bitAt (bitfield : List UInt8) (index : ℕ) : Bool :=
  match bitfield[index / 8]? with
  | some byte => (byte >>> UInt8.ofNat (7 - index % 8)) &&& 1 == 1
  | none => false

/-- `set_piece`: the bitfield grows as far as the byte of the piece. -/
def setPiece (bitfield : List UInt8) (index : ℕ) : List UInt8 :=
  let padded := bitfield ++ List.replicate (index / 8 + 1 - bitfield.length) 0
  padded.modify (index / 8) fun byte => byte ||| (1 <<< UInt8.ofNat (7 - index % 8))

/-- A bit that is set stays set under a disjunction. -/
theorem bit_or (byte mask shift : UInt8) (h : byte >>> shift &&& 1 = 1) :
    (byte ||| mask) >>> shift &&& 1 = 1 := by
  rw [UInt8.shiftRight_or]
  simp only [← UInt8.toBitVec_inj, UInt8.toBitVec_and, UInt8.toBitVec_or] at h ⊢
  ext i hi
  have hbit := congrArg (fun v => v[i]) h
  simp only [BitVec.getElem_and, BitVec.getElem_or] at hbit ⊢
  grind

/-- Setting the bit of one piece clears no other. -/
theorem bitAt_setPiece {bitfield : List UInt8} {index : ℕ} (other : ℕ)
    (h : bitAt bitfield index = true) : bitAt (setPiece bitfield other) index = true := by
  rw [bitAt] at h ⊢
  split at h
  · next byte hbyte =>
    have hpadded : (bitfield ++ List.replicate (other / 8 + 1 - bitfield.length) 0)[index / 8]? =
        some byte := by
      rw [List.getElem?_append_left (List.getElem?_eq_some_iff.mp hbyte).1, hbyte]
    rw [setPiece, List.getElem?_modify, hpadded]
    simp only [Option.map_eq_map, Option.map_some]
    simp only [beq_iff_eq] at h ⊢
    split
    · exact bit_or _ _ _ h
    · exact h
  · simp at h

/-- A mask leaves the bits that it does not have. -/
theorem bit_or_of_clear (byte mask shift : UInt8) (h : mask >>> shift &&& 1 = 0) :
    (byte ||| mask) >>> shift &&& 1 = byte >>> shift &&& 1 := by
  rw [UInt8.shiftRight_or]
  simp only [← UInt8.toBitVec_inj, UInt8.toBitVec_and, UInt8.toBitVec_or] at h ⊢
  ext i hi
  have hbit := congrArg (fun v => v[i]) h
  have hzero : (UInt8.toBitVec 0)[i] = false := BitVec.getElem_zero hi
  simp only [BitVec.getElem_and, BitVec.getElem_or] at hbit ⊢
  grind

/-- The mask of a piece has the bit of that piece only. -/
theorem mask_bit (k l : Fin 8) :
    (1 <<< UInt8.ofNat k : UInt8) >>> UInt8.ofNat l &&& 1 = if k = l then 1 else 0 := by
  decide +revert

/-- `set_piece` sets one bit. -/
theorem bitAt_setPiece_eq (bitfield : List UInt8) (i j : ℕ) :
    bitAt (setPiece bitfield i) j = (decide (j = i) || bitAt bitfield j) := by
  by_cases heq : j = i
  · subst heq
    have hset := mask_bit ⟨7 - j % 8, by omega⟩ ⟨7 - j % 8, by omega⟩
    rw [if_pos rfl] at hset
    obtain ⟨byte, hbyte⟩ : ∃ byte,
        (bitfield ++ List.replicate (j / 8 + 1 - bitfield.length) 0)[j / 8]? = some byte :=
      ⟨_, List.getElem?_eq_getElem (by rw [List.length_append, List.length_replicate]; omega)⟩
    rw [bitAt, setPiece, List.getElem?_modify, hbyte]
    simp only [Option.map_eq_map, Option.map_some, if_true, decide_true, Bool.true_or, beq_iff_eq]
    rw [UInt8.or_comm]
    exact bit_or _ _ _ hset
  rw [decide_eq_false heq, Bool.false_or, bitAt, setPiece, List.getElem?_modify]
  by_cases hsame : i / 8 = j / 8
  · -- the byte is changed, but in another bit
    have hclear := mask_bit ⟨7 - i % 8, by omega⟩ ⟨7 - j % 8, by omega⟩
    rw [if_neg (by rw [Fin.mk.injEq]; omega)] at hclear
    rw [bitAt]
    by_cases hlen : j / 8 < bitfield.length
    · rw [List.getElem?_append_left hlen, List.getElem?_eq_getElem hlen]
      simp only [Option.map_eq_map, Option.map_some, if_pos hsame]
      rw [bit_or_of_clear _ _ _ hclear]
    · rw [List.getElem?_append_right (by omega), List.getElem?_replicate, if_pos (by omega),
        List.getElem?_eq_none (by omega)]
      simp only [Option.map_eq_map, Option.map_some, if_pos hsame]
      rw [bit_or_of_clear _ _ _ hclear]
      simp
  · rw [bitAt]
    simp only [if_neg hsame, Option.map_eq_map, Option.map_id']
    by_cases hlen : j / 8 < bitfield.length
    · rw [List.getElem?_append_left hlen]
    · rw [List.getElem?_append_right (by omega), List.getElem?_replicate,
        List.getElem?_eq_none (l := bitfield) (by omega)]
      split
      · next byte hbyte =>
        -- a byte that was filled in
        obtain rfl : 0 = byte := by
          split at hbyte
          · exact Option.some.inj hbyte
          · simp at hbyte
        simp
      · rfl

end Retorrent

import Retorrent.Network.Announce
import Retorrent.Network.Swarm
import Retorrent.Piece.Selected
import Mathlib.GroupTheory.GroupAction.Ring

/-!
# Reading a Bitfield

What the readers of a bitfield make of the one that `have_bitfield` writes.
-/

namespace Retorrent

open Rust

/-- The bit of a piece as the `Bitfield` arm, `select_piece` and `pick_in_progress_for_peer` read
it, by an index. -/
def peerHas (bitfield : List UInt8) (i : ℕ) : Bool :=
  i / 8 < bitfield.length &&
    (bitfield.getD (i / 8) 0 >>> UInt8.ofNat (7 - i % 8)) &&& 1 == 1

/-- They read what `has_piece` reads. -/
theorem peerHas_eq_bitAt : peerHas = bitAt := by
  funext bitfield i
  rw [peerHas, bitAt, List.getD_eq_getElem?_getD]
  by_cases hlt : i / 8 < bitfield.length
  · rw [List.getElem?_eq_getElem hlt, decide_eq_true hlt, Bool.true_and]
    rfl
  · rw [List.getElem?_eq_none (Nat.le_of_not_lt hlt), decide_eq_false hlt, Bool.false_and]

namespace PieceManager

/-- Every reader of a bitfield finds this bit for a piece. -/
structure DecodedAs (bitfield : List UInt8) (i : ℕ) (has : Bool) : Prop where
  hasPiece : bitAt bitfield i = has
  inline : peerHas bitfield i = has
  marked : ∀ (b : Build) (known : List UInt8) (pm : PieceManager), markNew b bitfield known i pm =
    if has && !bitAt known i then pm.markHavePiece b i else .ok pm
  selected : ∀ pm : PieceManager, pm.Indexed → i < pm.numPieces →
    ((∃ c, pm.candidateAt bitfield i = .ok (some c)) ↔ pm.havePiece i = false ∧
      pm.inProgress.containsKey i = false ∧ pm.priorityOf i ≠ .skip ∧ has = true)
  picked : ∀ (heap : Heap) (best : Option (ℕ × ℕ × ℕ)) (a : ℕ) (c : PieceCollector),
    heap[a]? = some c → betterPick bitfield heap best (i, a) =
      if has && c.blocks.len % 2 ^ 32 < c.numBlocks &&
        best.all (fun b => b.2.2 < c.blocks.len % 2 ^ 32) then some (i, a, c.blocks.len % 2 ^ 32)
      else best

/-- The readers agree on every bitfield. -/
theorem decodedAs_bitAt (bitfield : List UInt8) (i : ℕ) :
    DecodedAs bitfield i (bitAt bitfield i) where
  hasPiece := rfl
  inline := congrFun (congrFun peerHas_eq_bitAt bitfield) i
  marked _ _ _ := rfl
  selected pm hpm hi := by
    rw [candidateAt_eq hpm hi]
    by_cases heligible : pm.Eligible bitfield i
    · rw [if_pos heligible]
      exact iff_of_true ⟨_, rfl⟩ heligible.2
    · rw [if_neg heligible]
      refine iff_of_false ?_ fun h => heligible ⟨hi, h⟩
      rintro ⟨c, hc⟩
      cases Outcome.ok.inj hc
  picked heap best a c ha := by
    simp only [betterPick, ha]

variable {pm : PieceManager} {bitfield : List UInt8}

theorem modify_eq_setPiece {i : ℕ} (h : i / 8 < bitfield.length) :
    bitfield.modify (i / 8) (fun byte => byte ||| (1 <<< UInt8.ofNat (7 - i % 8))) =
      setPiece bitfield i := by
  rw [setPiece, show i / 8 + 1 - bitfield.length = 0 by omega, List.replicate_zero,
    List.append_nil]

variable (bitfield) in
/-- The loop of `have_bitfield` sets the bits of the pieces from `i` on, and no others. -/
theorem setHaveBits_eq {have_ : List Bool} {i : ℕ} (h : i + have_.length ≤ 8 * bitfield.length) :
    ∃ bits, setHaveBits i bitfield have_ = .ok bits ∧ bits.length = bitfield.length ∧
      ∀ j, bitAt bits j = (bitAt bitfield j || (decide (i ≤ j) && have_.getD (j - i) false)) := by
  induction have_ generalizing i bitfield with
  | nil => exact ⟨bitfield, rfl, rfl, fun j => by simp⟩
  | cons has rest ih =>
    rw [List.length_cons] at h
    have hlt : i / 8 < bitfield.length := by omega
    -- the bit of piece `i`, and those of the pieces behind it
    have hcons (j : ℕ) : (decide (i ≤ j) && (has :: rest).getD (j - i) false) =
        ((decide (j = i) && has) || (decide (i + 1 ≤ j) && rest.getD (j - (i + 1)) false)) := by
      rcases Nat.lt_trichotomy j i with hj | rfl | hj
      · rw [decide_eq_false (by omega), decide_eq_false (by omega), decide_eq_false (by omega)]
        rfl
      · rw [Nat.sub_self]
        simp
      · rw [show j - i = j - (i + 1) + 1 by omega, List.getD_cons_succ, decide_eq_true hj.le,
          decide_eq_false (by omega), decide_eq_true (show i + 1 ≤ j from hj), Bool.false_and,
          Bool.false_or]
    cases has with
    | false =>
      obtain ⟨bits, hbits, hlen, hbit⟩ := ih bitfield (i := i + 1) (by omega)
      refine ⟨bits, hbits, hlen, ?_⟩
      intro j
      rw [hbit, hcons, Bool.and_false, Bool.false_or]
    | true =>
      have hset : (setPiece bitfield i).length = bitfield.length := by
        rw [← modify_eq_setPiece hlt, List.length_modify]
      obtain ⟨bits, hbits, hlen, hbit⟩ := ih (setPiece bitfield i) (i := i + 1)
        (by rw [hset]; omega)
      refine ⟨bits, ?_, hlen.trans hset, ?_⟩
      · rw [setHaveBits, if_pos rfl, if_pos hlt, modify_eq_setPiece hlt, hbits]
      · intro j
        rw [hbit, hcons, bitAt_setPiece_eq, Bool.and_true, Bool.or_comm (decide (j = i)),
          Bool.or_assoc]

/-- The bitfield of a piece manager has the bits of its pieces, and no others. -/
theorem haveBitfield_eq (h : pm.have_.length = pm.numPieces) :
    ∃ bits, pm.haveBitfield = .ok bits ∧ bits.length = pm.numPieces ⌈/⌉ 8 ∧
      ∀ i, bitAt bits i = pm.have_.getD i false := by
  have hroom : 0 + pm.have_.length ≤
      8 * (List.replicate (pm.numPieces ⌈/⌉ 8) (0 : UInt8)).length := by
    rw [Nat.zero_add, h, List.length_replicate]
    exact (ceilDiv_le_iff_le_mul (by decide)).mp le_rfl
  obtain ⟨bits, hbits, hlen, hbit⟩ := setHaveBits_eq _ hroom
  refine ⟨bits, hbits, hlen.trans (List.length_replicate ..), ?_⟩
  intro i
  have hzero : bitAt (List.replicate (pm.numPieces ⌈/⌉ 8) 0) i = false := by
    rw [bitAt, List.getElem?_replicate]
    split_ifs
    · simp
    · rfl
  rw [hbit, hzero, Bool.false_or, Nat.sub_zero, decide_eq_true (Nat.zero_le i), Bool.true_and]

/-- A Bitfield of the right length replaces what was known of the peer. -/
theorem bitfield_of_onMessage {env : SwarmEnv} {s s' : Swarm} {p : ℕ} {l : PeerLoop}
    (hlen : bitfield.length = s.pm.numPieces ⌈/⌉ 8)
    (h : s.onMessage env p l (.bitfield bitfield) = some s') :
    (s'.loops p).map PeerLoop.bitfield = some bitfield := by
  rw [Swarm.onMessage, if_neg (not_not.mpr hlen)] at h
  obtain ⟨pm', _, h⟩ := Option.bind_eq_some_iff.mp h
  obtain rfl := Option.some.inj h
  simp [Swarm.setLoop]

/-- What `have_bitfield` writes has the length that the `Bitfield` arm asks for, no spare bits, and
is read everywhere as the pieces that are had. `set_piece` then adds one piece. -/
theorem have_bitfield_decoded (pm : PieceManager) (h : pm.have_.length = pm.numPieces) :
    ∃ bits, pm.haveBitfield = .ok bits ∧ bits.length = pm.numPieces ⌈/⌉ 8 ∧
      (∀ env (s s' : Swarm) p l, s.pm.numPieces = pm.numPieces →
        s.onMessage env p l (.bitfield bits) = some s' →
        (s'.loops p).map PeerLoop.bitfield = some bits) ∧
      (∀ i, pm.numPieces ≤ i → bitAt bits i = false) ∧
      (∀ i (hi : i < pm.have_.length), DecodedAs bits i pm.have_[i]) ∧
      ∀ later i j, bitAt (setPiece later j) i = true ↔ bitAt later i = true ∨ i = j := by
  obtain ⟨bits, hbits, hlen, hbit⟩ := haveBitfield_eq h
  refine ⟨bits, hbits, hlen, ?_, ?_, ?_, ?_⟩
  · intro env s s' p l hs hmessage
    exact bitfield_of_onMessage (hs ▸ hlen) hmessage
  · intro i hi
    rw [hbit, List.getD_eq_getElem?_getD, List.getElem?_eq_none (h ▸ hi), Option.getD_none]
  · intro i hi
    have hhas : bitAt bits i = pm.have_[i] := by
      rw [hbit, List.getD_eq_getElem?_getD, List.getElem?_eq_getElem hi, Option.getD_some]
    exact hhas ▸ decodedAs_bitAt bits i
  · intro later i j
    rw [bitAt_setPiece_eq, Bool.or_eq_true, decide_eq_true_iff, or_comm]

/-- Nine pieces, of which the first and the last are had. -/
def ninePieces : PieceManager :=
  { PieceManager.new 9 1 9 [] with have_ := true :: List.replicate 7 false ++ [true] }

theorem have_bitfield_decoded_ninePieces :
    ∃ bits, ninePieces.haveBitfield = .ok bits ∧ bits.length = 2 ∧
      DecodedAs bits 8 true ∧ bitAt bits 9 = false := by
  obtain ⟨bits, hbits, hlen, _, hspare, hdecoded, _⟩ := have_bitfield_decoded ninePieces rfl
  exact ⟨bits, hbits, hlen, hdecoded 8 (by decide), hspare 9 le_rfl⟩

end PieceManager

end Retorrent

import Retorrent.Piece.Claims
import Retorrent.Systems.Transition
import Mathlib.GroupTheory.GroupAction.Ring

/-!
# Delivery of a piece

Peers claim blocks of a piece and deliver them in any order and any number of times. The
collector is complete as soon as every block was delivered, and then holds the piece.
-/

namespace Retorrent

open Rust Systems

/-- The collector that the peers share, the blocks that they claimed and the offsets that they
delivered. -/
structure PieceDelivery where
  collector : PieceCollector
  claimed : List (ℕ × ℕ)
  delivered : List ℕ

inductive DeliveryEvent where
  | claim (now : Instant) (count : ℕ) (random : ℕ → ℕ)
  | deliver (offset length : ℕ)

namespace PieceDelivery

/-- One call of one peer. A block is delivered when some peer has claimed it. -/
def next (b : Build) (piece : List UInt8) (s : PieceDelivery) :
    DeliveryEvent → Option PieceDelivery
  | .claim now count random => do
    let (c, claimed) ← (s.collector.claimBlocksWith b now count random).toOption
    return { s with collector := c, claimed := s.claimed ++ claimed }
  | .deliver offset length =>
    if (offset, length) ∈ s.claimed then
      some { s with
        collector := (s.collector.addBlock offset ((piece.drop offset).take length)).1
        delivered := s.delivered ++ [offset] }
    else none

/-- Every block of the piece was delivered. -/
def AllDelivered (size : ℕ) (s : PieceDelivery) : Prop :=
  ∀ offset ∈ blockOffsets size, offset ∈ s.delivered

end PieceDelivery

/-- The runs of the peers on one piece. -/
def deliveries (b : Build) (index : ℕ) (hash : Hash) (piece : List UInt8) :
    System PieceDelivery DeliveryEvent where
  init s := s = ⟨.new index piece.length hash, [], []⟩
  step s e s' := s.next b piece e = some s'

/-- The collector holds slices of the piece, those that were delivered. -/
structure DeliveryInv (piece : List UInt8) (s : PieceDelivery) : Prop where
  pieceSize : s.collector.pieceSize = piece.length
  numBlocks : s.collector.numBlocks = piece.length ⌈/⌉ blockSize
  claimed : ∀ block ∈ s.claimed, IsBlock piece.length block
  stored : ∀ offset data, s.collector.blocks.lookup offset = some data →
    offset ∈ blockOffsets piece.length ∧ data = (piece.drop offset).take blockSize
  delivered : ∀ offset, offset ∈ s.collector.blocks ↔ offset ∈ s.delivered

variable {b : Build} {index : ℕ} {hash : Hash} {piece : List UInt8} {s s' : PieceDelivery}

/-- The slice of a block of the piece. -/
theorem take_isBlock {offset length : ℕ} (h : IsBlock piece.length (offset, length)) :
    (piece.drop offset).take length = (piece.drop offset).take blockSize := by
  have hlength : length = min blockSize (piece.drop offset).length := by
    rw [List.length_drop]
    exact h.2.2
  rw [hlength, ← List.take_take, List.take_length]

namespace DeliveryInv

theorem new (hsize : piece.length + blockSize ≤ 2 ^ 32) :
    DeliveryInv piece ⟨.new index piece.length hash, [], []⟩ where
  pieceSize := rfl
  numBlocks := Nat.mod_eq_of_lt ((PieceCollector.ceilDiv_le hsize).trans (by decide))
  claimed _ h := absurd h List.not_mem_nil
  stored _ _ h := by simp [PieceCollector.new] at h
  delivered _ := by simp [PieceCollector.new]

/-- Reservations concern nothing that is known. -/
theorem claim (h : DeliveryInv piece s) {claimed : List (ℕ × ℕ)}
    (hblocks : ∀ block ∈ claimed, IsBlock piece.length block) (issued : HashMap ℕ Instant) :
    DeliveryInv piece { s with
      collector := { s.collector with issued := issued }
      claimed := s.claimed ++ claimed } where
  pieceSize := h.pieceSize
  numBlocks := h.numBlocks
  claimed block hblock := (List.mem_append.mp hblock).elim (h.claimed block) (hblocks block)
  stored := h.stored
  delivered := h.delivered

theorem deliver (h : DeliveryInv piece s) {offset length : ℕ}
    (hclaimed : (offset, length) ∈ s.claimed) :
    DeliveryInv piece { s with
      collector := (s.collector.addBlock offset ((piece.drop offset).take length)).1
      delivered := s.delivered ++ [offset] } := by
  have hblock := h.claimed _ hclaimed
  have hin : offset ∈ blockOffsets piece.length := mem_blockOffsets.mpr ⟨hblock.1, hblock.2.1⟩
  obtain ⟨hnum, hsize, _⟩ :=
    s.collector.addBlock_fields offset ((piece.drop offset).take length)
  refine ⟨hsize.trans h.pieceSize, hnum.trans h.numBlocks, h.claimed, ?_, ?_⟩
  · intro j data hj
    rw [PieceCollector.addBlock] at hj
    split at hj
    · exact h.stored j data hj
    · change AList.lookup j (AList.insert offset _ s.collector.blocks) = some data at hj
      rw [HashMap.lookup_insert_eq] at hj
      split at hj
      · next heq =>
        obtain rfl := Option.some.inj hj
        rw [heq]
        exact ⟨hin, take_isBlock hblock⟩
      · exact h.stored j data hj
  · intro j
    dsimp only
    rw [List.mem_append, List.mem_singleton, ← h.delivered, PieceCollector.addBlock]
    split
    · next hkey =>
      -- a block that came before
      have hold := HashMap.containsKey_iff.mp hkey
      exact ⟨.inl, fun hj => hj.elim id fun heq => heq ▸ hold⟩
    · exact (AList.mem_insert _).trans or_comm

/-- What is stored are blocks of the piece. -/
theorem keys_subset (h : DeliveryInv piece s) :
    s.collector.blocks.keys.toFinset ⊆ blockOffsets piece.length := by
  intro offset hoffset
  have hmem : offset ∈ s.collector.blocks := AList.mem_keys.mpr (List.mem_toFinset.mp hoffset)
  obtain ⟨data, hdata⟩ := Option.isSome_iff_exists.mp (AList.lookup_isSome.mpr hmem)
  exact (h.stored offset data hdata).1

/-- As many blocks as the piece has are all of them. -/
theorem isComplete_iff (h : DeliveryInv piece s) :
    s.collector.isComplete = true ↔ s.AllDelivered piece.length := by
  have hcard : s.collector.blocks.len = s.collector.blocks.keys.toFinset.card :=
    HashMap.len_eq_card_keys _
  have hmem (offset : ℕ) :
      offset ∈ s.delivered ↔ offset ∈ s.collector.blocks.keys.toFinset := by
    rw [← h.delivered, AList.mem_keys, List.mem_toFinset]
  rw [PieceCollector.isComplete, decide_eq_true_iff, h.numBlocks, hcard, ← card_blockOffsets]
  constructor
  · intro hle offset hoffset
    rw [hmem, Finset.eq_of_subset_of_card_le h.keys_subset hle]
    exact hoffset
  · intro hall
    exact Finset.card_le_card fun offset hoffset => (hmem offset).mp (hall offset hoffset)

/-- The slices of the piece, one after the other, are the piece. -/
theorem flatMap_slices (piece : List UInt8) :
    (List.range (piece.length ⌈/⌉ blockSize)).flatMap
      (fun k => (piece.drop (k * blockSize)).take blockSize) = piece := by
  have hlen : ∀ k, k * blockSize < piece.length →
      ((piece.drop (k * blockSize)).take blockSize).length =
        min blockSize (piece.length - k * blockSize) := by
    intro k _
    rw [List.length_take, List.length_drop]
  have hend : piece.length ≤ piece.length ⌈/⌉ blockSize * blockSize := by
    rw [Nat.mul_comm]
    exact (ceilDiv_le_iff_le_mul (by decide)).mp le_rfl
  obtain ⟨hlength, hbyte⟩ := PieceCollector.flatMap_blocks hlen le_rfl
  rw [min_eq_right hend] at hlength hbyte
  apply List.ext_getElem?
  intro j
  by_cases hj : j < piece.length
  · have hmod : j % blockSize < blockSize := Nat.mod_lt _ (by decide)
    rw [hbyte j hj, List.getElem?_take_of_lt hmod, List.getElem?_drop, Nat.mul_comm,
      Nat.div_add_mod]
  · have hle : piece.length ≤ j := Nat.not_lt.mp hj
    rw [List.getElem?_eq_none (hlength.le.trans hle), List.getElem?_eq_none hle]

theorem assemble_eq (h : DeliveryInv piece s) (hcomplete : s.collector.isComplete = true) :
    s.collector.assemble = some piece := by
  obtain ⟨offsets, hsorted, hmem, hassemble⟩ := s.collector.assemble_eq hcomplete
  have hall : ∀ offset ∈ blockOffsets piece.length, offset ∈ offsets := by
    intro offset hoffset
    rw [hmem, h.delivered]
    exact h.isComplete_iff.mp hcomplete offset hoffset
  have hblocks : offsets.filter (· ∈ blockOffsets piece.length) = offsets := by
    rw [List.filter_eq_self]
    intro offset hoffset
    rw [decide_eq_true_iff]
    exact h.keys_subset (List.mem_toFinset.mpr (AList.mem_keys.mp ((hmem offset).mp hoffset)))
  have hslice : ∀ k ∈ List.range (piece.length ⌈/⌉ blockSize),
      (s.collector.blocks.lookup (k * blockSize)).getD [] =
        (piece.drop (k * blockSize)).take blockSize := by
    intro k hk
    have hin : k * blockSize ∈ s.collector.blocks := by
      rw [← hmem]
      exact hall _ (Finset.mem_image_of_mem _ (Finset.mem_range.mpr (List.mem_range.mp hk)))
    obtain ⟨data, hdata⟩ := Option.isSome_iff_exists.mp (AList.lookup_isSome.mpr hin)
    rw [hdata, Option.getD_some]
    exact (h.stored _ data hdata).2
  rw [hassemble, ← hblocks, PieceCollector.filter_blockOffsets hsorted hall, List.flatMap_map,
    List.flatMap_congr hslice, flatMap_slices, h.pieceSize, List.take_length]

end DeliveryInv

theorem deliveryInv (hsize : piece.length + blockSize ≤ 2 ^ 32) :
    (deliveries b index hash piece).Invariant System.unguarded (DeliveryInv piece) where
  init s hs := by
    obtain rfl : s = _ := hs
    exact .new hsize
  step s e s' h _ hstep := by
    change s.next b piece e = some s' at hstep
    cases e with
    | claim now count random =>
      obtain ⟨⟨c, claimed⟩, hclaim, hstep⟩ := Option.bind_eq_some_iff.mp hstep
      obtain rfl := Option.some.inj hstep
      obtain ⟨hblocks, issued, rfl⟩ :=
        PieceCollector.claimBlocksWith_eq_ok (Outcome.toOption_eq_some.mp hclaim)
      rw [h.pieceSize] at hblocks
      exact h.claim hblocks issued
    | deliver offset length =>
      obtain ⟨hclaimed, hstep⟩ := Option.ite_none_right_eq_some.mp hstep
      obtain rfl := Option.some.inj hstep
      exact h.deliver hclaimed

/-- In every run, claims return, the collector is complete exactly when every block was delivered,
and then the piece is assembled. -/
theorem complete_iff_allDelivered (hsize : piece.length < 2 ^ 32 - 16384)
    (hs : (deliveries b index hash piece).Reachable System.unguarded s) :
    (∀ now count random, ∃ s', s.next b piece (.claim now count random) = some s') ∧
      (s.collector.isComplete = true ↔ s.AllDelivered piece.length) ∧
      (s.collector.isComplete = true → s.collector.assemble = some piece) := by
  have hfits : piece.length + blockSize ≤ 2 ^ 32 := by
    rw [blockSize]
    omega
  have h := (deliveryInv hfits).reachable hs
  refine ⟨?_, h.isComplete_iff, h.assemble_eq⟩
  intro now count random
  have hcollector : s.collector.pieceSize + blockSize ≤ 2 ^ 32 := h.pieceSize ▸ hfits
  obtain ⟨r, hr⟩ := PieceCollector.claimBlocksWith_of_le hcollector now count random
  rw [PieceDelivery.next, hr]
  exact ⟨_, rfl⟩

/-- Two whole blocks and a short one. -/
def shortLast : List UInt8 := List.replicate 16384 1 ++ (List.replicate 16384 2 ++ [3])

theorem length_shortLast : shortLast.length = 32769 := by
  simp only [shortLast, List.length_append, List.length_replicate, List.length_singleton]

/-- Two peers claim the blocks, and one is claimed again after the timeout. The last block comes
first and once more, and the second comes last. -/
def outOfOrder : List DeliveryEvent :=
  [.claim 0 2 id, .claim 1 2 id, .deliver 32768 1, .deliver 0 16384, .deliver 32768 1,
    .claim (31 * 10 ^ 9) 1 id, .deliver 16384 16384]

theorem complete_outOfOrder :
    ∃ s, (deliveries .release 0 sampleHash shortLast).Reachable System.unguarded s ∧
      s.delivered = [32768, 0, 32768, 16384] ∧ s.collector.isComplete = true ∧
      s.collector.assemble = some shortLast := by
  have hrun : (System.runWhile (PieceDelivery.next .release shortLast) (fun _ _ => true)
      ⟨.new 0 32769 sampleHash, [], []⟩ outOfOrder).any (fun s =>
        s.delivered = [32768, 0, 32768, 16384] ∧ s.collector.isComplete = true) = true := by
    decide +kernel
  obtain ⟨s, hs, hdone⟩ := (Option.any_eq_true _ _).mp hrun
  obtain ⟨hdelivered, hcomplete⟩ := of_decide_eq_true hdone
  rw [← length_shortLast] at hs
  have hreach : (deliveries .release 0 sampleHash shortLast).Reachable System.unguarded s :=
    System.runWhile_reachable (fun _ _ _ h => h) (fun _ _ _ => trivial) (.init rfl) hs
  have hsize : shortLast.length < 2 ^ 32 - 16384 := by
    rw [length_shortLast]
    decide
  exact ⟨s, hreach, hdelivered, hcomplete,
    (complete_iff_allDelivered hsize hreach).2.2 hcomplete⟩

end Retorrent

import Retorrent.Piece

/-!
# Blocks of a piece

What `add_block` does to a collector, and that a collector which is not complete
lacks a block.
-/

namespace Retorrent

open Rust

/-- The collector lacks a block of its piece. -/
def PieceCollector.Lacks (c : PieceCollector) : Prop :=
  ∃ k, k * blockSize < c.pieceSize ∧ k * blockSize ∉ c.blocks

/-- The bookkeeping of a collector is right. -/
structure PieceCollector.Counted (c : PieceCollector) : Prop where
  filled : c.blocks.len ≤ c.numBlocks
  range : c.numBlocks < 2 ^ 32
  enough : c.numBlocks ≤ c.pieceSize ⌈/⌉ blockSize

namespace PieceCollector

variable {c c' : PieceCollector}

theorem isComplete_eq_false : c.isComplete = false ↔ c.blocks.len < c.numBlocks := by
  simp [isComplete]

theorem counted_new (index size : ℕ) (hash : Hash) : (new index size hash).Counted where
  filled := Nat.zero_le _
  range := Nat.mod_lt _ (by decide)
  enough := Nat.mod_le _ _

/-- An incomplete collector lacks a block. -/
theorem Counted.lacks (h : c.Counted) (hnot : c.isComplete = false) : c.Lacks := by
  by_contra hall
  have hblocks : ∀ k < c.pieceSize ⌈/⌉ blockSize, k * blockSize ∈ c.blocks := by
    intro k hk
    by_contra hmem
    refine hall ⟨k, ?_, hmem⟩
    have hlt : k < (c.pieceSize + blockSize - 1) / blockSize := by
      rwa [← Nat.ceilDiv_eq_add_pred_div]
    have hle := Nat.div_mul_le_self (c.pieceSize + blockSize - 1) blockSize
    have hmul := Nat.mul_le_mul_right blockSize hlt
    unfold blockSize at *
    omega
  have hinj : Function.Injective fun k => k * blockSize := by
    intro j k hjk
    exact Nat.eq_of_mul_eq_mul_right (by decide) hjk
  have hsub : (Finset.range (c.pieceSize ⌈/⌉ blockSize)).image (· * blockSize) ⊆
      c.blocks.keys.toFinset := by
    intro offset hoffset
    obtain ⟨k, hk, rfl⟩ := Finset.mem_image.mp hoffset
    exact List.mem_toFinset.mpr (AList.mem_keys.mp (hblocks k (Finset.mem_range.mp hk)))
  have hcard := Finset.card_le_card hsub
  rw [Finset.card_image_of_injective _ hinj, Finset.card_range,
    ← HashMap.len_eq_card_keys] at hcard
  have hlen := isComplete_eq_false.mp hnot
  have := h.enough
  omega

/-- A block that is added keeps the size of the piece and adds one block at most. -/
theorem addBlock_fields (c : PieceCollector) (offset : ℕ) (data : List UInt8) :
    (c.addBlock offset data).1.numBlocks = c.numBlocks ∧
      (c.addBlock offset data).1.pieceSize = c.pieceSize ∧
      (c.addBlock offset data).1.blocks.len ≤ c.blocks.len + 1 ∧
      (c.addBlock offset data).2 = (c.addBlock offset data).1.isComplete := by
  unfold addBlock
  split
  · exact ⟨rfl, rfl, Nat.le_succ _, rfl⟩
  · next hnot =>
    refine ⟨rfl, rfl, ?_, rfl⟩
    rw [Bool.not_eq_true, ← Bool.not_eq_true, HashMap.containsKey_iff] at hnot
    exact (HashMap.len_insert_of_notMem data hnot).le

theorem Counted.addBlock (h : c.Counted) (hnot : c.isComplete = false) (offset : ℕ)
    (data : List UInt8) : (c.addBlock offset data).1.Counted := by
  obtain ⟨hnum, hsize, hlen, _⟩ := c.addBlock_fields offset data
  have hlt := isComplete_eq_false.mp hnot
  constructor
  · rw [hnum]
    omega
  · rw [hnum]
    exact h.range
  · rw [hnum, hsize]
    exact h.enough

/-- What is reserved has not come. -/
def Awaiting (c : PieceCollector) : Prop := ∀ offset ∈ c.issued, offset ∉ c.blocks

theorem awaiting_new (index size : ℕ) (hash : Hash) : (new index size hash).Awaiting :=
  fun offset h => absurd h (AList.notMem_empty offset)

theorem mem_issued_addBlock {offset begin : ℕ} {data : List UInt8}
    (h : offset ∈ (c.addBlock begin data).1.issued) : offset ∈ c.issued := by
  rw [addBlock] at h
  split at h
  · exact h
  · exact (AList.mem_erase.mp h).2

theorem Awaiting.addBlock (h : c.Awaiting) (begin : ℕ) (data : List UInt8) :
    (c.addBlock begin data).1.Awaiting := by
  intro offset hoffset
  rw [PieceCollector.addBlock] at hoffset ⊢
  split at hoffset
  · next hin =>
    rw [if_pos hin]
    exact h offset hoffset
  · next hnot =>
    obtain ⟨hne, hissued⟩ := AList.mem_erase.mp hoffset
    rw [if_neg hnot]
    exact mt (AList.mem_insert _).mp (not_or.mpr ⟨hne, h offset hissued⟩)

/-- A block that came is not reserved. -/
theorem Awaiting.notMem_addBlock (h : c.Awaiting) (begin : ℕ) (data : List UInt8) :
    begin ∉ (c.addBlock begin data).1.issued := by
  rw [PieceCollector.addBlock]
  split
  · next hin => exact fun hissued => h begin hissued (HashMap.containsKey_iff.mp hin)
  · exact fun hissued => (AList.mem_erase.mp hissued).1 rfl

theorem Awaiting.setIssued (h : c.Awaiting) {issued : HashMap ℕ Instant}
    (hissued : ∀ offset ∈ issued, offset ∈ c.issued ∨ offset ∉ c.blocks) :
    { c with issued := issued }.Awaiting :=
  fun offset hoffset => (hissued offset hoffset).elim (h offset) id

theorem notMem_blocks_of_missingFrom {b : Build} {fuel from_ : ℕ} {missing : List (ℕ × ℕ)}
    (h : c.missingFrom b fuel from_ = .ok missing) {block : ℕ × ℕ} (hblock : block ∈ missing) :
    block.1 ∉ c.blocks := by
  induction fuel generalizing from_ missing with
  | zero => simp [missingFrom] at h
  | succ fuel ih =>
    rw [missingFrom] at h
    split at h
    · obtain ⟨next, _, h⟩ := Outcome.bind_eq_ok.mp h
      obtain ⟨rest, hrest, h⟩ := Outcome.bind_eq_ok.mp h
      obtain rfl := Outcome.ok.inj h
      split at hblock
      · exact ih hrest hblock
      · next hnot =>
        rcases List.mem_cons.mp hblock with rfl | hblock
        · exact mt HashMap.containsKey_iff.mpr hnot
        · exact ih hrest hblock
    · obtain rfl := Outcome.ok.inj h
      simp at hblock

/-- What is claimed is reserved or was before, and is one of the missing blocks. -/
theorem mem_claimLoop (now : Instant) (count : ℕ) (missing : List (ℕ × ℕ))
    (issued : HashMap ℕ Instant) (claimed : List (ℕ × ℕ)) :
    (∀ offset ∈ (claimLoop now count issued claimed missing).1,
      offset ∈ issued ∨ offset ∈ (claimLoop now count issued claimed missing).2.map Prod.fst) ∧
    (∀ block ∈ claimed, block ∈ (claimLoop now count issued claimed missing).2) ∧
    ∀ block ∈ (claimLoop now count issued claimed missing).2,
      block ∈ claimed ∨ block ∈ missing := by
  induction missing generalizing issued claimed with
  | nil => exact ⟨fun _ h => .inl h, fun _ h => h, fun _ h => .inl h⟩
  | cons block missing ih =>
    rw [claimLoop]
    split
    · exact ⟨fun _ h => .inl h, fun _ h => h, fun _ h => .inl h⟩
    · split
      · obtain ⟨hissued, hkept, hmissing⟩ := ih issued claimed
        exact ⟨hissued, hkept, fun x hx => (hmissing x hx).imp_right (List.mem_cons_of_mem _)⟩
      · obtain ⟨hissued, hkept, hmissing⟩ := ih (issued.insert block.1 now) (claimed ++ [block])
        refine ⟨?_, fun x hx => hkept x (List.mem_append_left _ hx), ?_⟩
        · intro offset hoffset
          rcases hissued offset hoffset with hinsert | hclaimed
          · rcases (AList.mem_insert _).mp hinsert with rfl | hold
            · -- the block that is claimed here
              have hblock := hkept block (List.mem_append_right _ List.mem_cons_self)
              exact .inr (List.mem_map_of_mem hblock)
            · exact .inl hold
          · exact .inr hclaimed
        · intro x hx
          rcases hmissing x hx with hx | hx
          · rcases List.mem_append.mp hx with hx | hx
            · exact .inl hx
            · exact .inr (List.mem_singleton.mp hx ▸ List.mem_cons_self)
          · exact .inr (List.mem_cons_of_mem _ hx)

/-- What `claim_blocks` reserves: the blocks that it returns, which have not come. -/
theorem mem_issued_claimBlocks {b : Build} {now : Instant} {count : ℕ}
    {missing shuffled : List (ℕ × ℕ)} (hmissing : c.missingBlocks b = .ok missing)
    (hperm : shuffled.Perm missing) {offset : ℕ}
    (h : offset ∈ (c.claimBlocks now count shuffled).1.issued) :
    offset ∈ c.issued ∨
      offset ∈ (c.claimBlocks now count shuffled).2.map Prod.fst ∧ offset ∉ c.blocks := by
  obtain ⟨hissued, _, hshuffled⟩ := mem_claimLoop now count shuffled c.issued []
  refine (hissued offset h).imp_right fun hclaimed => ⟨hclaimed, ?_⟩
  obtain ⟨block, hblock, rfl⟩ := List.mem_map.mp hclaimed
  rcases hshuffled block hblock with hnil | hblock
  · simp at hnil
  · exact notMem_blocks_of_missingFrom hmissing (hperm.mem_iff.mp hblock)

/-- Reservations do not count. -/
theorem isComplete_setIssued (c : PieceCollector) (issued : HashMap ℕ Instant) :
    { c with issued := issued }.isComplete = c.isComplete := rfl

theorem Counted.setIssued (h : c.Counted) (issued : HashMap ℕ Instant) :
    { c with issued := issued }.Counted := ⟨h.filled, h.range, h.enough⟩

end PieceCollector

end Retorrent

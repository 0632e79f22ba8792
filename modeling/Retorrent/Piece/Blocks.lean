import Retorrent.Piece.Collector
import Mathlib.GroupTheory.GroupAction.Ring

/-!
# Blocks that complete a piece

A collector counts the offsets that were named to it. What it reports is right as long as
the first blocks with new offsets are blocks of the piece, and what it assembles is right
as long as no later block gets between them.
-/

namespace Rust

variable {K V W : Type} [DecidableEq K]

/-- The entries whose key neither was seen nor stands further ahead. -/
def firstsFrom (seen : List K) : List (K × V) → List (K × V)
  | [] => []
  | e :: l =>
    if e.1 ∈ seen then firstsFrom seen l else e :: firstsFrom (seen ++ [e.1]) l

/-- The first entry with each key. -/
def firsts (l : List (K × V)) : List (K × V) := firstsFrom [] l

theorem firstsFrom_append (seen : List K) (l r : List (K × V)) :
    firstsFrom seen (l ++ r) =
      firstsFrom seen l ++ firstsFrom (seen ++ (firstsFrom seen l).map Prod.fst) r := by
  induction l generalizing seen with
  | nil => simp [firstsFrom]
  | cons e l ih =>
    rw [List.cons_append, firstsFrom, firstsFrom]
    split
    · exact ih seen
    · rw [ih]
      simp

theorem firsts_append (l r : List (K × V)) :
    firsts (l ++ r) = firsts l ++ firstsFrom ((firsts l).map Prod.fst) r :=
  firstsFrom_append [] l r

theorem firsts_mono {l r : List (K × V)} (h : l <+: r) : firsts l <+: firsts r := by
  obtain ⟨rest, rfl⟩ := h
  rw [firsts_append]
  exact List.prefix_append _ _

theorem nodup_firstsFrom (seen : List K) (l : List (K × V)) (hseen : seen.Nodup) :
    (seen ++ (firstsFrom seen l).map Prod.fst).Nodup := by
  induction l generalizing seen with
  | nil => simpa [firstsFrom] using hseen
  | cons e l ih =>
    rw [firstsFrom]
    split
    · exact ih seen hseen
    · next hnew =>
      have hnext : (seen ++ [e.1]).Nodup := by
        rw [← List.concat_eq_append]
        exact hseen.concat hnew
      simpa using ih (seen ++ [e.1]) hnext

theorem nodup_firsts (l : List (K × V)) : ((firsts l).map Prod.fst).Nodup :=
  nodup_firstsFrom [] l List.nodup_nil

/-- Only the keys decide which entries are first. -/
theorem firsts_map {g : K × V → K × W} (hg : ∀ e, (g e).1 = e.1) (l : List (K × V)) :
    firsts (l.map g) = (firsts l).map g := by
  have hfrom : ∀ seen : List K, firstsFrom seen (l.map g) = (firstsFrom seen l).map g := by
    induction l with
    | nil => exact fun _ => rfl
    | cons e l ih =>
      intro seen
      rw [List.map_cons, firstsFrom, firstsFrom, hg]
      split
      · exact ih seen
      · rw [ih, List.map_cons]
  exact hfrom []

/-- Entry by entry, the first entries come one at a time. -/
theorem exists_firsts_eq_take (l : List (K × V)) {m : ℕ} (hm : m ≤ (firsts l).length) :
    ∃ pre, pre <+: l ∧ firsts pre = (firsts l).take m := by
  induction l using List.reverseRecOn with
  | nil => exact ⟨[], List.prefix_refl _, by simp [firsts, firstsFrom]⟩
  | append_singleton l e ih =>
    by_cases hle : m ≤ (firsts l).length
    · obtain ⟨pre, hpre, hfirsts⟩ := ih hle
      refine ⟨pre, hpre.trans (List.prefix_append _ _), ?_⟩
      rw [hfirsts, firsts_append, List.take_append_of_le_length hle]
    · refine ⟨l ++ [e], List.prefix_refl _, (List.take_of_length_le ?_).symm⟩
      have hone : (firstsFrom ((firsts l).map Prod.fst) [e]).length ≤ 1 := by
        rw [firstsFrom]
        split <;> simp [firstsFrom]
      rw [firsts_append, List.length_append] at hm ⊢
      omega

end Rust

namespace Retorrent

open Rust

namespace PieceCollector

/-- `add_block` for one block after the other. -/
def addBlocks (c : PieceCollector) : List (ℕ × List UInt8) → PieceCollector
  | [] => c
  | (offset, data) :: calls => (c.addBlock offset data).1.addBlocks calls

/-- Every block of the piece is stored at its offset with its full length. -/
def Filled (c : PieceCollector) : Prop :=
  ∀ k, k * blockSize < c.pieceSize → ∃ data, c.blocks.lookup (k * blockSize) = some data ∧
    data.length = min blockSize (c.pieceSize - k * blockSize)

/-- The piece is assembled, each byte from the block that it lies in. -/
def Assembles (c : PieceCollector) : Prop :=
  ∃ piece, c.assemble = some piece ∧ piece.length = c.pieceSize ∧
    ∀ j < c.pieceSize, ∃ data, c.blocks.lookup (j / blockSize * blockSize) = some data ∧
      piece[j]? = data[j % blockSize]?

/-- Whenever `add_block` returns `true` in a sequence of calls, the collector is as `Q` says. -/
def Reports (Q : PieceCollector → Prop) (c : PieceCollector) (calls : List (ℕ × List UInt8)) :
    Prop :=
  ∀ before offset data after, calls = before ++ (offset, data) :: after →
    ((c.addBlocks before).addBlock offset data).2 = true →
    Q ((c.addBlocks before).addBlock offset data).1

end PieceCollector

/-- The offsets and lengths of blocks. -/
def shape (calls : List (ℕ × List UInt8)) : List (ℕ × ℕ) := calls.map (Prod.map id List.length)

/-- How many blocks a collector waits for. -/
def awaitedBlocks (size : ℕ) : ℕ := (size ⌈/⌉ blockSize) % 2 ^ 32

/-- An offset and a length are those of a block of the piece. -/
def IsBlock (size : ℕ) (block : ℕ × ℕ) : Prop :=
  block.1 % blockSize = 0 ∧ block.1 < size ∧ block.2 = min blockSize (size - block.1)

/-- When enough offsets are named, the number of blocks fits its type and what comes first at
the first of them are blocks of the piece. -/
def FirstBlocks (size : ℕ) (blocks : List (ℕ × ℕ)) : Prop :=
  blocks ≠ [] → awaitedBlocks size ≤ (firsts blocks).length →
    size ⌈/⌉ blockSize < 2 ^ 32 ∧
      ∀ block ∈ (firsts blocks).take (awaitedBlocks size), IsBlock size block

/-- What comes at further offsets is empty or stands behind the last block. -/
def LateBlocks (size : ℕ) (blocks : List (ℕ × ℕ)) : Prop :=
  ∀ block ∈ (firsts blocks).drop (awaitedBlocks size),
    block.2 = 0 ∨ (size ⌈/⌉ blockSize - 1) * blockSize ≤ block.1

variable {size k n : ℕ} {blocks : List (ℕ × List UInt8)}

theorem lt_ceilDiv_blockSize : k < size ⌈/⌉ blockSize ↔ k * blockSize < size := by
  rw [← Nat.not_le, ceilDiv_le_iff_le_mul (by decide), Nat.not_le, Nat.mul_comm]

/-- The offsets of the blocks of a piece. -/
def blockOffsets (size : ℕ) : Finset ℕ :=
  (Finset.range (size ⌈/⌉ blockSize)).image (· * blockSize)

theorem mem_blockOffsets {offset : ℕ} :
    offset ∈ blockOffsets size ↔ offset % blockSize = 0 ∧ offset < size := by
  rw [blockOffsets, Finset.mem_image]
  constructor
  · rintro ⟨k, hk, rfl⟩
    exact ⟨Nat.mul_mod_left _ _, lt_ceilDiv_blockSize.mp (Finset.mem_range.mp hk)⟩
  · rintro ⟨hmod, hlt⟩
    have hdiv : offset / blockSize * blockSize = offset :=
      Nat.div_mul_cancel (Nat.dvd_of_mod_eq_zero hmod)
    refine ⟨offset / blockSize, Finset.mem_range.mpr (lt_ceilDiv_blockSize.mpr ?_), hdiv⟩
    rwa [hdiv]

theorem card_blockOffsets (size : ℕ) : (blockOffsets size).card = size ⌈/⌉ blockSize := by
  rw [blockOffsets, Finset.card_image_of_injective, Finset.card_range]
  intro j k hjk
  exact Nat.eq_of_mul_eq_mul_right (by decide) hjk

/-- Each block of the piece is among the given ones. -/
def Covers (size : ℕ) (blocks : List (ℕ × List UInt8)) : Prop :=
  ∀ offset ∈ blockOffsets size, ∃ data, (offset, data) ∈ blocks ∧
    data.length = min blockSize (size - offset)

/-- Blocks at different offsets. -/
def Distinct (blocks : List (ℕ × List UInt8)) : Prop := (blocks.map Prod.fst).Nodup

theorem Distinct.eq (h : Distinct blocks) {offset : ℕ} {data data' : List UInt8}
    (hmem : (offset, data) ∈ blocks) (hmem' : (offset, data') ∈ blocks) : data = data' :=
  congrArg Prod.snd (List.inj_on_of_nodup_map h hmem hmem' rfl)

theorem Distinct.card (h : Distinct blocks) :
    (blocks.map Prod.fst).toFinset.card = blocks.length := by
  rw [List.toFinset_card_of_nodup h, List.length_map]

theorem Covers.subset (h : Covers size blocks) :
    blockOffsets size ⊆ (blocks.map Prod.fst).toFinset := by
  intro offset hoffset
  obtain ⟨data, hmem, _⟩ := h offset hoffset
  exact List.mem_toFinset.mpr (List.mem_map_of_mem hmem)

theorem Covers.le_length (h : Covers size blocks) (hdistinct : Distinct blocks) :
    size ⌈/⌉ blockSize ≤ blocks.length := by
  rw [← card_blockOffsets, ← hdistinct.card]
  exact Finset.card_le_card h.subset

/-- As many blocks as the piece has are all there exactly when each is one of them. -/
theorem covers_iff (hdistinct : Distinct blocks) (hlen : blocks.length = size ⌈/⌉ blockSize) :
    Covers size blocks ↔ ∀ block ∈ shape blocks, IsBlock size block := by
  rw [shape, List.forall_mem_map]
  constructor
  · rintro h ⟨offset, data⟩ hmem
    have heq := Finset.eq_of_subset_of_card_le h.subset
      (by rw [hdistinct.card, card_blockOffsets, hlen])
    have hoffset : offset ∈ blockOffsets size := by
      rw [heq]
      exact List.mem_toFinset.mpr (List.mem_map_of_mem hmem)
    obtain ⟨data', hmem', hdata⟩ := h offset hoffset
    rw [hdistinct.eq hmem' hmem] at hdata
    exact ⟨(mem_blockOffsets.mp hoffset).1, (mem_blockOffsets.mp hoffset).2, hdata⟩
  · intro h offset hoffset
    have hsub : (blocks.map Prod.fst).toFinset ⊆ blockOffsets size := by
      intro offset hoffset
      obtain ⟨block, hblock, rfl⟩ := List.mem_map.mp (List.mem_toFinset.mp hoffset)
      exact mem_blockOffsets.mpr ⟨(h block hblock).1, (h block hblock).2.1⟩
    have heq := Finset.eq_of_subset_of_card_le hsub
      (by rw [hdistinct.card, card_blockOffsets, hlen])
    rw [← heq] at hoffset
    obtain ⟨block, hblock, rfl⟩ := List.mem_map.mp (List.mem_toFinset.mp hoffset)
    exact ⟨block.2, hblock, (h block hblock).2.2⟩

theorem Covers.mono (h : Covers size blocks) {more : List (ℕ × List UInt8)}
    (hsub : blocks ⊆ more) : Covers size more := by
  intro offset hoffset
  obtain ⟨data, hmem, hdata⟩ := h offset hoffset
  exact ⟨data, hsub hmem, hdata⟩

namespace PieceCollector

variable {c : PieceCollector} {Q : PieceCollector → Prop}

/-- The collector stores the given blocks. -/
structure Stores (c : PieceCollector) (blocks : List (ℕ × List UInt8)) : Prop where
  distinct : Distinct blocks
  lookup : ∀ offset data, c.blocks.lookup offset = some data ↔ (offset, data) ∈ blocks
  len : c.blocks.len = blocks.length

theorem Stores.mem_blocks (h : c.Stores blocks) {offset : ℕ} :
    offset ∈ c.blocks ↔ offset ∈ blocks.map Prod.fst := by
  rw [← AList.lookup_isSome, Option.isSome_iff_exists, List.mem_map]
  constructor
  · rintro ⟨data, hdata⟩
    exact ⟨_, (h.lookup offset data).mp hdata, rfl⟩
  · rintro ⟨block, hblock, rfl⟩
    exact ⟨_, (h.lookup block.1 block.2).mpr hblock⟩

theorem stores_new (index size : ℕ) (hash : Hash) : (new index size hash).Stores [] where
  distinct := List.nodup_nil
  lookup offset data := by simp [new]
  len := rfl

/-- A block is stored unless its offset was named before. -/
theorem Stores.addBlock (h : c.Stores blocks) (offset : ℕ) (data : List UInt8) :
    (c.addBlock offset data).1.Stores
      (blocks ++ firstsFrom (blocks.map Prod.fst) [(offset, data)]) := by
  rw [PieceCollector.addBlock, firstsFrom]
  by_cases hold : offset ∈ blocks.map Prod.fst
  · rw [if_pos (HashMap.containsKey_iff.mpr (h.mem_blocks.mpr hold)), if_pos hold, firstsFrom,
      List.append_nil]
    exact h
  · have hnot : offset ∉ c.blocks := mt h.mem_blocks.mp hold
    rw [if_neg (mt HashMap.containsKey_iff.mp hnot), if_neg hold, firstsFrom]
    constructor
    · rw [Distinct, List.map_append, List.map_singleton, ← List.concat_eq_append]
      exact h.distinct.concat hold
    · intro j bytes
      show AList.lookup j (AList.insert offset data c.blocks) = some bytes ↔ _
      rw [HashMap.lookup_insert_eq, List.mem_append, List.mem_singleton, ← h.lookup]
      by_cases hj : j = offset
      · subst hj
        rw [if_pos rfl, AList.lookup_eq_none.mpr hnot]
        simp [eq_comm]
      · rw [if_neg hj]
        simp [hj]
    · rw [List.length_append]
      exact (HashMap.len_insert_of_notMem data hnot).trans (congrArg (· + 1) h.len)

theorem Stores.addBlocks (h : c.Stores blocks) (calls : List (ℕ × List UInt8)) :
    (c.addBlocks calls).Stores (blocks ++ firstsFrom (blocks.map Prod.fst) calls) := by
  induction calls generalizing c blocks with
  | nil => simpa [PieceCollector.addBlocks, firstsFrom] using h
  | cons call calls ih =>
    have hnext := ih (h.addBlock call.1 call.2)
    rw [List.append_assoc, List.map_append, ← firstsFrom_append, List.singleton_append] at hnext
    exact hnext

theorem addBlocks_fields (c : PieceCollector) (calls : List (ℕ × List UInt8)) :
    (c.addBlocks calls).pieceSize = c.pieceSize ∧ (c.addBlocks calls).numBlocks = c.numBlocks := by
  induction calls generalizing c with
  | nil => exact ⟨rfl, rfl⟩
  | cons call calls ih =>
    obtain ⟨hnum, hsize, _⟩ := c.addBlock_fields call.1 call.2
    rw [addBlocks, ← hnum, ← hsize]
    exact ih _

theorem addBlocks_append (c : PieceCollector) (before : List (ℕ × List UInt8)) (offset : ℕ)
    (data : List UInt8) :
    c.addBlocks (before ++ [(offset, data)]) = ((c.addBlocks before).addBlock offset data).1 := by
  induction before generalizing c with
  | nil => rfl
  | cons call before ih => exact ih _

/-- What is reported after a sequence of calls is decided by the collector that it leaves. -/
theorem reports_iff {calls : List (ℕ × List UInt8)} :
    Reports Q c calls ↔ ∀ pre, pre <+: calls → pre ≠ [] →
      (c.addBlocks pre).isComplete = true → Q (c.addBlocks pre) := by
  constructor
  · rintro h pre ⟨after, rfl⟩ hne hcomplete
    obtain ⟨before, ⟨offset, data⟩, rfl⟩ := List.eq_nil_or_concat' pre |>.resolve_left hne
    rw [addBlocks_append] at hcomplete ⊢
    refine h before offset data after (List.append_assoc _ _ _) ?_
    rw [(addBlock_fields _ offset data).2.2.2]
    exact hcomplete
  · rintro h before offset data after rfl hdone
    rw [(addBlock_fields _ offset data).2.2.2] at hdone
    rw [← addBlocks_append] at hdone ⊢
    exact h _ ⟨after, List.append_assoc _ _ _⟩ (by simp) hdone

theorem Stores.filled_iff (h : c.Stores blocks) : c.Filled ↔ Covers c.pieceSize blocks := by
  constructor
  · intro hfilled offset hoffset
    obtain ⟨k, hk, rfl⟩ := Finset.mem_image.mp hoffset
    have hlt := lt_ceilDiv_blockSize.mp (Finset.mem_range.mp hk)
    obtain ⟨data, hdata, hlen⟩ := hfilled k hlt
    exact ⟨data, (h.lookup _ _).mp hdata, hlen⟩
  · intro hcovers k hk
    have hoffset : k * blockSize ∈ blockOffsets c.pieceSize :=
      mem_blockOffsets.mpr ⟨Nat.mul_mod_left _ _, hk⟩
    obtain ⟨data, hmem, hlen⟩ := hcovers _ hoffset
    exact ⟨data, (h.lookup _ _).mpr hmem, hlen⟩

section New

variable (index size : ℕ) (hash : Hash) (calls : List (ℕ × List UInt8))

theorem stores_addBlocks : ((new index size hash).addBlocks calls).Stores (firsts calls) :=
  (stores_new index size hash).addBlocks calls

theorem pieceSize_addBlocks : ((new index size hash).addBlocks calls).pieceSize = size :=
  (addBlocks_fields _ calls).1

theorem isComplete_addBlocks :
    ((new index size hash).addBlocks calls).isComplete = true ↔
      awaitedBlocks size ≤ (firsts calls).length := by
  rw [isComplete, decide_eq_true_iff, (addBlocks_fields _ calls).2,
    (stores_addBlocks index size hash calls).len]
  rfl

theorem filled_addBlocks :
    ((new index size hash).addBlocks calls).Filled ↔ Covers size (firsts calls) := by
  rw [(stores_addBlocks index size hash calls).filled_iff, pieceSize_addBlocks]

end New

theorem firsts_shape (calls : List (ℕ × List UInt8)) :
    firsts (shape calls) = shape (firsts calls) :=
  firsts_map (g := Prod.map id List.length) (fun _ => rfl) calls

theorem Distinct.take (h : Distinct blocks) (m : ℕ) : Distinct (blocks.take m) := by
  rw [Distinct, List.map_take]
  exact List.Sublist.nodup (List.take_sublist _ _) h

/-- With enough blocks, the first ones are those of the piece. -/
theorem FirstBlocks.covers {calls : List (ℕ × List UInt8)} (h : FirstBlocks size (shape calls))
    (hne : calls ≠ []) (hlen : awaitedBlocks size ≤ (firsts calls).length) :
    Covers size ((firsts calls).take (awaitedBlocks size)) := by
  have hne' : shape calls ≠ [] := by simpa [shape] using hne
  rw [FirstBlocks, firsts_shape] at h
  obtain ⟨hfits, hblocks⟩ := h hne' (by rwa [shape, List.length_map])
  have hawaited : awaitedBlocks size = size ⌈/⌉ blockSize := Nat.mod_eq_of_lt hfits
  refine (covers_iff (Distinct.take (nodup_firsts calls) _) ?_).mpr ?_
  · rw [List.length_take, ← hawaited]
    exact min_eq_left hlen
  · rw [shape, List.map_take]
    exact hblocks

/-- A prefix has the same first blocks, when it has enough. -/
theorem take_firsts_eq {pre calls : List (ℕ × List UInt8)} (hpre : pre <+: calls) {m : ℕ}
    (hm : m ≤ (firsts pre).length) : (firsts calls).take m = (firsts pre).take m := by
  obtain ⟨rest, hrest⟩ := firsts_mono hpre
  rw [← hrest, List.take_append_of_le_length hm]

/-- `true` is returned only with all blocks there exactly when the first blocks are right. -/
theorem reports_filled_iff (index size : ℕ) (hash : Hash) (calls : List (ℕ × List UInt8)) :
    Reports Filled (new index size hash) calls ↔ FirstBlocks size (shape calls) := by
  rw [reports_iff]
  constructor
  · intro h hne hlen
    rw [firsts_shape, shape, List.length_map] at hlen
    have hpos : 0 < (firsts calls).length := by
      cases calls with
      | nil => exact absurd rfl hne
      | cons call calls =>
        rw [firsts, firstsFrom, if_neg List.not_mem_nil]
        exact Nat.succ_pos _
    -- the collector is complete for the first time
    obtain ⟨pre, hpre, hfirsts⟩ := exists_firsts_eq_take calls (max_le hlen hpos)
    have hlength : (firsts pre).length = max (awaitedBlocks size) 1 := by
      rw [hfirsts, List.length_take]
      exact min_eq_left (max_le hlen hpos)
    have hpre_ne : pre ≠ [] := by
      rintro rfl
      simp [firsts, firstsFrom] at hlength
      omega
    have hcovers : Covers size (firsts pre) := (filled_addBlocks index size hash pre).mp
      (h pre hpre hpre_ne ((isComplete_addBlocks index size hash pre).mpr (by omega)))
    have hle := hcovers.le_length (nodup_firsts pre)
    have hawaited : awaitedBlocks size = size ⌈/⌉ blockSize := by
      unfold awaitedBlocks at hlength ⊢
      omega
    refine ⟨hawaited ▸ Nat.mod_lt _ (by decide), ?_⟩
    rw [firsts_shape, shape, ← List.map_take]
    by_cases hzero : awaitedBlocks size = 0
    · rw [hzero, List.take_zero]
      exact fun _ => False.elim ∘ List.not_mem_nil
    · have hmax : max (awaitedBlocks size) 1 = awaitedBlocks size :=
        max_eq_left (Nat.pos_of_ne_zero hzero)
      rw [hmax] at hlength
      rw [take_firsts_eq hpre hlength.ge, ← hlength, List.take_length]
      exact (covers_iff (nodup_firsts pre) (hlength.trans hawaited)).mp hcovers
  · intro h pre hpre hne hcomplete
    rw [isComplete_addBlocks] at hcomplete
    rw [filled_addBlocks]
    have hcalls : calls ≠ [] := by
      rintro rfl
      exact hne (List.prefix_nil.mp hpre)
    have hcovers := FirstBlocks.covers h hcalls (hcomplete.trans (firsts_mono hpre).length_le)
    rw [take_firsts_eq hpre hcomplete] at hcovers
    exact hcovers.mono (List.take_subset _ _)

/-- What is assembled: the blocks in the order of their offsets. -/
theorem assemble_eq (c : PieceCollector) (h : c.isComplete = true) :
    ∃ offsets : List ℕ, offsets.Pairwise (· < ·) ∧
      (∀ offset, offset ∈ offsets ↔ offset ∈ c.blocks) ∧
      c.assemble = some
        ((offsets.flatMap fun offset => (c.blocks.lookup offset).getD []).take c.pieceSize) := by
  have hperm := List.perm_insertionSort (· ≤ ·) c.blocks.keys
  have hsorted := List.pairwise_insertionSort (· ≤ ·) c.blocks.keys
  refine ⟨c.blocks.keys.insertionSort (· ≤ ·), ?_, ?_, ?_⟩
  · have hnodup : (c.blocks.keys.insertionSort (· ≤ ·)).Nodup :=
      hperm.nodup_iff.mpr c.blocks.keys_nodup
    exact (hsorted.and hnodup).imp fun h => lt_of_le_of_ne h.1 h.2
  · intro offset
    rw [hperm.mem_iff, AList.mem_keys]
  · rw [assemble, if_pos h]

/-- A sorted list is what is at most `x` and then what is above. -/
theorem filter_le_append_filter_lt {l : List ℕ} (h : l.Pairwise (· < ·)) (x : ℕ) :
    l.filter (· ≤ x) ++ l.filter (x < ·) = l := by
  induction l with
  | nil => rfl
  | cons a l ih =>
    obtain ⟨hhead, htail⟩ := List.pairwise_cons.mp h
    by_cases ha : a ≤ x
    · have hnot : ¬ x < a := Nat.not_lt.mpr ha
      simpa [ha, hnot] using ih htail
    · have hlt : x < a := Nat.lt_of_not_le ha
      have hnone : l.filter (· ≤ x) = [] := by
        rw [List.filter_eq_nil_iff]
        intro y hy
        simpa using hlt.trans (hhead y hy)
      rw [List.filter_cons_of_neg (by simpa using hlt), hnone, List.nil_append,
        List.filter_eq_self.mpr]
      intro y hy
      rcases List.mem_cons.mp hy with rfl | hy
      · exact decide_eq_true hlt
      · exact decide_eq_true (hlt.trans (hhead y hy))

/-- Of a list, only what has a value matters. -/
theorem flatMap_filter_eq {p : ℕ → Bool} {f : ℕ → List UInt8} {l : List ℕ}
    (h : ∀ x ∈ l, p x = false → f x = []) : (l.filter p).flatMap f = l.flatMap f := by
  induction l with
  | nil => rfl
  | cons a l ih =>
    have hrest := ih fun x hx => h x (List.mem_cons_of_mem _ hx)
    cases hp : p a with
    | true => rw [List.filter_cons_of_pos hp, List.flatMap_cons, List.flatMap_cons, hrest]
    | false =>
      rw [List.filter_cons_of_neg (by simp [hp]), List.flatMap_cons, hrest,
        h a List.mem_cons_self hp, List.nil_append]

/-- The offsets of the blocks, in a sorted list that has them. -/
theorem filter_blockOffsets {l : List ℕ} (hsorted : l.Pairwise (· < ·))
    (hall : ∀ offset ∈ blockOffsets size, offset ∈ l) :
    l.filter (· ∈ blockOffsets size) =
      (List.range (size ⌈/⌉ blockSize)).map (· * blockSize) := by
  have hsorted' : ((List.range (size ⌈/⌉ blockSize)).map (· * blockSize)).Pairwise (· < ·) :=
    List.pairwise_lt_range.map _ fun _ _ hlt => Nat.mul_lt_mul_of_pos_right hlt (by decide)
  refine List.Perm.eq_of_pairwise (fun _ _ _ _ hab hba => absurd hab (Nat.lt_asymm hba))
    (hsorted.filter _) hsorted' ?_
  rw [List.perm_ext_iff_of_nodup]
  · intro offset
    rw [List.mem_filter, decide_eq_true_iff, and_iff_right_of_imp (hall offset), blockOffsets]
    simp
  · exact (hsorted.filter _).imp Nat.ne_of_lt
  · exact hsorted'.imp Nat.ne_of_lt

/-- Blocks of full length, one after the other, have each byte in its place. -/
theorem flatMap_blocks {g : ℕ → List UInt8}
    (hg : ∀ k, k * blockSize < size → (g k).length = min blockSize (size - k * blockSize))
    {m : ℕ} (hm : m ≤ size ⌈/⌉ blockSize) :
    ((List.range m).flatMap g).length = min (m * blockSize) size ∧
      ∀ j < min (m * blockSize) size,
        ((List.range m).flatMap g)[j]? = (g (j / blockSize))[j % blockSize]? := by
  induction m with
  | zero => simp
  | succ m ih =>
    obtain ⟨hlen, hbyte⟩ := ih (Nat.le_of_succ_le hm)
    have hlt : m * blockSize < size := lt_ceilDiv_blockSize.mp hm
    have hlast := hg m hlt
    rw [min_eq_left hlt.le] at hlen hbyte
    rw [List.range_succ, List.flatMap_append, List.flatMap_singleton, List.length_append, hlen,
      hlast, Nat.succ_mul]
    refine ⟨by omega, ?_⟩
    intro j hj
    by_cases hold : j < m * blockSize
    · rw [List.getElem?_append_left (hlen ▸ hold)]
      exact hbyte j hold
    · have hdiv : j / blockSize = m := by
        refine Nat.div_eq_of_lt_le (Nat.not_lt.mp hold) ?_
        rw [Nat.succ_mul]
        omega
      have hmod := Nat.div_add_mod j blockSize
      rw [hdiv, Nat.mul_comm] at hmod
      rw [List.getElem?_append_right (hlen ▸ Nat.not_lt.mp hold), hlen, hdiv]
      congr 1
      omega

/-- The bytes that are stored at an offset. -/
def bytesAt (c : PieceCollector) (offset : ℕ) : List UInt8 := (c.blocks.lookup offset).getD []

theorem Stores.bytesAt_eq (h : c.Stores blocks) {offset : ℕ} {data : List UInt8}
    (hmem : (offset, data) ∈ blocks) : c.bytesAt offset = data := by
  rw [bytesAt, (h.lookup offset data).mpr hmem, Option.getD_some]

/-- The blocks of the piece make as many bytes as it has, each in its place. -/
theorem Stores.flatMap_bytesAt (h : c.Stores blocks) (hcovers : Covers c.pieceSize blocks) :
    ((List.range (c.pieceSize ⌈/⌉ blockSize)).flatMap fun k => c.bytesAt (k * blockSize)).length =
        c.pieceSize ∧
      ∀ j < c.pieceSize,
        ((List.range (c.pieceSize ⌈/⌉ blockSize)).flatMap fun k => c.bytesAt (k * blockSize))[j]? =
          (c.bytesAt (j / blockSize * blockSize))[j % blockSize]? := by
  have hg : ∀ k, k * blockSize < c.pieceSize → (c.bytesAt (k * blockSize)).length =
      min blockSize (c.pieceSize - k * blockSize) := by
    intro k hk
    obtain ⟨data, hmem, hlen⟩ := hcovers _ (mem_blockOffsets.mpr ⟨Nat.mul_mod_left _ _, hk⟩)
    rw [h.bytesAt_eq hmem, hlen]
  have hmin : min (c.pieceSize ⌈/⌉ blockSize * blockSize) c.pieceSize = c.pieceSize := by
    rw [Nat.mul_comm]
    exact min_eq_right ((ceilDiv_le_iff_le_mul (by decide)).mp le_rfl)
  obtain ⟨hlen, hbyte⟩ := flatMap_blocks hg le_rfl
  rw [hmin] at hlen hbyte
  exact ⟨hlen, hbyte⟩

/-- A piece is assembled right when what else is stored is empty or stands behind the last
block. -/
theorem Stores.assembles (h : c.Stores blocks) (hcomplete : c.isComplete = true)
    (hcovers : Covers c.pieceSize blocks)
    (hlate : ∀ block ∈ blocks, block.1 ∈ blockOffsets c.pieceSize ∨ block.2 = [] ∨
      (c.pieceSize ⌈/⌉ blockSize - 1) * blockSize ≤ block.1) : c.Assembles := by
  obtain ⟨offsets, hsorted, hmem, hpiece⟩ := c.assemble_eq hcomplete
  obtain ⟨hlen, hbyte⟩ := h.flatMap_bytesAt hcovers
  change c.assemble = some ((offsets.flatMap c.bytesAt).take c.pieceSize) at hpiece
  by_cases hzero : c.pieceSize = 0
  · rw [hzero, List.take_zero] at hpiece
    exact ⟨[], hpiece, hzero.symm, fun j hj => absurd hj (hzero ▸ Nat.not_lt_zero j)⟩
  have hpos : 0 < c.pieceSize ⌈/⌉ blockSize := lt_ceilDiv_blockSize.mpr (by omega)
  set last := (c.pieceSize ⌈/⌉ blockSize - 1) * blockSize with hlast
  have hlast_mem : last ∈ blockOffsets c.pieceSize :=
    mem_blockOffsets.mpr ⟨Nat.mul_mod_left _ _, lt_ceilDiv_blockSize.mp (Nat.sub_one_lt_of_lt hpos)⟩
  -- up to the last block, what is stored are the blocks of the piece and nothing else
  have hupto : (offsets.filter (· ≤ last)).flatMap c.bytesAt =
      (List.range (c.pieceSize ⌈/⌉ blockSize)).flatMap fun k => c.bytesAt (k * blockSize) := by
    have hall : ∀ offset ∈ blockOffsets c.pieceSize, offset ∈ offsets.filter (· ≤ last) := by
      intro offset hoffset
      obtain ⟨data, hdata, _⟩ := hcovers offset hoffset
      rw [List.mem_filter, decide_eq_true_iff, hmem, h.mem_blocks]
      refine ⟨List.mem_map_of_mem hdata, ?_⟩
      obtain ⟨k, hk, rfl⟩ := Finset.mem_image.mp hoffset
      exact Nat.mul_le_mul_right _ (Nat.le_sub_one_of_lt (Finset.mem_range.mp hk))
    have hblocks := filter_blockOffsets (hsorted.filter _) hall
    rw [← flatMap_filter_eq (p := (· ∈ blockOffsets c.pieceSize)), hblocks, List.flatMap_map]
    intro offset hoffset hnot
    rw [List.mem_filter, decide_eq_true_iff, hmem, h.mem_blocks] at hoffset
    obtain ⟨block, hblock, rfl⟩ := List.mem_map.mp hoffset.1
    rw [decide_eq_false_iff_not] at hnot
    rcases (hlate block hblock).resolve_left hnot with hempty | hge
    · rw [h.bytesAt_eq hblock, hempty]
    · exact absurd (le_antisymm hoffset.2 hge ▸ hlast_mem) hnot
  have hsplit : offsets.flatMap c.bytesAt =
      (offsets.filter (· ≤ last)).flatMap c.bytesAt ++
        (offsets.filter (last < ·)).flatMap c.bytesAt := by
    rw [← List.flatMap_append, filter_le_append_filter_lt hsorted]
  rw [hsplit, hupto, List.take_left' hlen] at hpiece
  refine ⟨_, hpiece, hlen, ?_⟩
  intro j hj
  have hblock : j / blockSize * blockSize ∈ blockOffsets c.pieceSize :=
    mem_blockOffsets.mpr ⟨Nat.mul_mod_left _ _, (Nat.div_mul_le_self _ _).trans_lt hj⟩
  obtain ⟨data, hdata, _⟩ := hcovers _ hblock
  exact ⟨data, (h.lookup _ _).mpr hdata, h.bytesAt_eq hdata ▸ hbyte j hj⟩

/-- A block whose bytes tell whether it is one of the piece. -/
def painted (size : ℕ) (block : ℕ × ℕ) : ℕ × List UInt8 :=
  (block.1, List.replicate block.2 (if block.1 ∈ blockOffsets size then 0 else 1))

theorem shape_painted (size : ℕ) (shapes : List (ℕ × ℕ)) :
    shape (shapes.map (painted size)) = shapes := by
  rw [shape, List.map_map]
  conv_rhs => rw [← List.map_id shapes]
  apply List.map_congr_left
  rintro ⟨offset, length⟩ _
  simp [painted]

/-- The zeros are the bytes of the blocks of the piece. -/
theorem count_painted {p : ℕ → Bool} {f : ℕ → List UInt8}
    (h : ∀ offset, ∀ x ∈ f offset, x = if p offset then 0 else 1) (l : List ℕ) :
    (l.flatMap f).count 0 = ((l.filter p).flatMap f).length := by
  induction l with
  | nil => rfl
  | cons a l ih =>
    rw [List.flatMap_cons, List.count_append, ih]
    cases hp : p a with
    | true =>
      have hzero : ∀ x ∈ f a, 0 = x := fun x hx => by rw [h a x hx, hp, if_pos rfl]
      rw [List.filter_cons_of_pos hp, List.flatMap_cons, List.length_append,
        List.count_eq_length.mpr hzero]
    | false =>
      have hone : (0 : UInt8) ∉ f a := by
        intro hx
        have hcon := h a 0 hx
        rw [hp, if_neg Bool.false_ne_true] at hcon
        exact absurd hcon (by decide)
      rw [List.filter_cons_of_neg (by simp [hp]), List.count_eq_zero.mpr hone, Nat.zero_add]

/-- A stored byte tells whether its block is one of the piece. -/
theorem Stores.bytesAt_painted (h : c.Stores blocks)
    (hpainted : ∀ block ∈ blocks, ∀ x ∈ block.2,
      x = if block.1 ∈ blockOffsets c.pieceSize then 0 else 1) (offset : ℕ) :
    ∀ x ∈ c.bytesAt offset, x = if offset ∈ blockOffsets c.pieceSize then 0 else 1 := by
  intro x hx
  rw [bytesAt] at hx
  cases hlookup : c.blocks.lookup offset with
  | none => simp [hlookup] at hx
  | some data =>
    rw [hlookup, Option.getD_some] at hx
    exact hpainted _ ((h.lookup offset data).mp hlookup) x hx

/-- When painted blocks are assembled right, the piece is all zeros, and no zero is left behind
it. -/
theorem Stores.zeros_of_painted (h : c.Stores blocks) (hcovers : Covers c.pieceSize blocks)
    (hpainted : ∀ block ∈ blocks, ∀ x ∈ block.2,
      x = if block.1 ∈ blockOffsets c.pieceSize then 0 else 1)
    (hassembles : c.Assembles) {offsets : List ℕ} (hsorted : offsets.Pairwise (· < ·))
    (hmem : ∀ offset, offset ∈ offsets ↔ offset ∈ c.blocks)
    (hpiece : c.assemble = some ((offsets.flatMap c.bytesAt).take c.pieceSize)) :
    (∀ x ∈ (offsets.flatMap c.bytesAt).take c.pieceSize, (0 : UInt8) = x) ∧
      (0 : UInt8) ∉ (offsets.flatMap c.bytesAt).drop c.pieceSize := by
  obtain ⟨piece, hpiece', hlen, hbyte⟩ := hassembles
  obtain rfl := Option.some.inj (hpiece'.symm.trans hpiece)
  -- the bytes that are assembled lie in blocks of the piece
  have hzeros : ∀ x ∈ (offsets.flatMap c.bytesAt).take c.pieceSize, (0 : UInt8) = x := by
    intro x hx
    obtain ⟨j, hj, rfl⟩ := List.mem_iff_getElem.mp hx
    obtain ⟨data, hdata, hget⟩ := hbyte j (hlen ▸ hj)
    rw [List.getElem?_eq_getElem hj] at hget
    have hin : j / blockSize * blockSize ∈ blockOffsets c.pieceSize :=
      mem_blockOffsets.mpr
        ⟨Nat.mul_mod_left _ _, (Nat.div_mul_le_self _ _).trans_lt (hlen ▸ hj)⟩
    have hvalue := hpainted _ ((h.lookup _ _).mp hdata) _ (List.mem_of_getElem? hget.symm)
    rw [if_pos hin] at hvalue
    exact hvalue.symm
  refine ⟨hzeros, ?_⟩
  -- there are as many zeros as the piece has bytes
  have hcount : (offsets.flatMap c.bytesAt).count 0 = c.pieceSize := by
    have hall : ∀ offset ∈ blockOffsets c.pieceSize, offset ∈ offsets := by
      intro offset hoffset
      obtain ⟨data, hdata, _⟩ := hcovers offset hoffset
      exact (hmem offset).mpr (h.mem_blocks.mpr (List.mem_map_of_mem hdata))
    have hpaint := h.bytesAt_painted hpainted
    rw [count_painted (p := (· ∈ blockOffsets c.pieceSize)) (by simpa using hpaint),
      filter_blockOffsets hsorted hall, List.flatMap_map]
    exact (h.flatMap_bytesAt hcovers).1
  have htake := List.count_eq_length.mpr hzeros
  rw [← List.take_append_drop c.pieceSize (offsets.flatMap c.bytesAt), List.count_append, htake,
    hlen] at hcount
  exact List.count_eq_zero.mp (by omega)

/-- Painted blocks that are assembled right are blocks of the piece, empty or behind the last
block. -/
theorem Stores.late_of_painted (h : c.Stores blocks) (hcovers : Covers c.pieceSize blocks)
    (hpainted : ∀ block ∈ blocks, ∀ x ∈ block.2,
      x = if block.1 ∈ blockOffsets c.pieceSize then 0 else 1)
    (hassembles : c.Assembles) {block : ℕ × List UInt8} (hblock : block ∈ blocks)
    (hnot : block.1 ∉ blockOffsets c.pieceSize) :
    block.2 = [] ∨ (c.pieceSize ⌈/⌉ blockSize - 1) * blockSize ≤ block.1 := by
  by_contra hcon
  obtain ⟨hne, hlt⟩ := not_or.mp hcon
  rw [Nat.not_le] at hlt
  have hcomplete : c.isComplete = true := by
    obtain ⟨piece, hpiece, _⟩ := hassembles
    by_contra hnot
    rw [assemble, if_neg hnot] at hpiece
    simp at hpiece
  obtain ⟨offsets, hsorted, hmem, hpiece⟩ := c.assemble_eq hcomplete
  obtain ⟨hzeros, hrest⟩ :=
    h.zeros_of_painted hcovers hpainted hassembles hsorted hmem hpiece
  -- but the block stands before the last one, and its bytes are no zeros
  obtain ⟨front, back, rfl⟩ := List.append_of_mem
    ((hmem block.1).mpr (h.mem_blocks.mpr (List.mem_map_of_mem hblock)))
  rw [List.flatMap_append, List.flatMap_cons, h.bytesAt_eq hblock] at hzeros hrest
  have hfront : c.pieceSize ≤ (front.flatMap c.bytesAt).length := by
    by_contra hshort
    rw [Nat.not_le] at hshort
    obtain ⟨x, bytes, hbytes⟩ := List.exists_cons_of_ne_nil hne
    have hx : x = 1 := by
      have hvalue := hpainted block hblock x (hbytes ▸ List.mem_cons_self)
      rwa [if_neg hnot] at hvalue
    have hmem_take : x ∈ (front.flatMap c.bytesAt ++ (block.2 ++ back.flatMap c.bytesAt)).take
        c.pieceSize := by
      obtain ⟨k, hk⟩ := Nat.exists_eq_add_of_lt hshort
      have hlength : c.pieceSize - (front.flatMap c.bytesAt).length = k + 1 := by omega
      rw [List.take_append, hlength, hbytes]
      exact List.mem_append_right _ List.mem_cons_self
    exact absurd ((hzeros x hmem_take).trans hx) (by decide)
  have hlast : (c.pieceSize ⌈/⌉ blockSize - 1) * blockSize ∈ blockOffsets c.pieceSize := by
    refine mem_blockOffsets.mpr ⟨Nat.mul_mod_left _ _, lt_ceilDiv_blockSize.mp ?_⟩
    refine Nat.sub_one_lt fun hzero => ?_
    simp [hzero] at hlt
  obtain ⟨data, hdata, hsize⟩ := hcovers _ hlast
  have hback : (c.pieceSize ⌈/⌉ blockSize - 1) * blockSize ∈ back := by
    have hin := (hmem _).mpr (h.mem_blocks.mpr (List.mem_map_of_mem hdata))
    rcases List.mem_append.mp hin with hin | hin
    · have hlt' := (List.pairwise_append.mp hsorted).2.2 _ hin _ List.mem_cons_self
      exact absurd hlt' (Nat.lt_asymm hlt)
    · exact (List.mem_cons.mp hin).resolve_left hlt.ne'
  obtain ⟨x, bytes, rfl⟩ : ∃ x bytes, data = x :: bytes := by
    refine List.exists_cons_of_length_pos ?_
    have hlt_size := (mem_blockOffsets.mp hlast).2
    have hblock_pos : 0 < blockSize := by decide
    omega
  have hx := hpainted _ hdata x List.mem_cons_self
  rw [if_pos hlast] at hx
  refine hrest ?_
  rw [List.drop_append_of_le_length hfront, ← hx]
  refine List.mem_append_right _ (List.mem_append_right _ (List.mem_flatMap.mpr ⟨_, hback, ?_⟩))
  rw [h.bytesAt_eq hdata]
  exact List.mem_cons_self

/-- The first block with an offset is one of the piece or comes late. -/
theorem FirstBlocks.mem_or_late {calls : List (ℕ × List UInt8)}
    (h : FirstBlocks size (shape calls)) (hne : calls ≠ [])
    (hlen : awaitedBlocks size ≤ (firsts calls).length) {block : ℕ × List UInt8}
    (hblock : block ∈ firsts calls) :
    block.1 ∈ blockOffsets size ∨
      (block.1, block.2.length) ∈ (firsts (shape calls)).drop (awaitedBlocks size) := by
  have hne' : shape calls ≠ [] := by simpa [shape] using hne
  rw [FirstBlocks, firsts_shape] at h
  obtain ⟨_, hblocks⟩ := h hne' (by rwa [shape, List.length_map])
  rw [firsts_shape]
  have hmem : (block.1, block.2.length) ∈ shape (firsts calls) := List.mem_map_of_mem hblock
  rw [← List.take_append_drop (awaitedBlocks size) (shape (firsts calls))] at hmem
  refine (List.mem_append.mp hmem).imp_left fun hin => ?_
  exact mem_blockOffsets.mpr ⟨(hblocks _ hin).1, (hblocks _ hin).2.1⟩

/-- The late blocks of a prefix are late blocks. -/
theorem LateBlocks.mono {pre shapes : List (ℕ × ℕ)} (h : LateBlocks size shapes)
    (hpre : pre <+: shapes) : LateBlocks size pre := by
  intro block hblock
  obtain ⟨rest, hrest⟩ := firsts_mono hpre
  refine h block ?_
  rw [← hrest, List.drop_append]
  exact List.mem_append_left _ hblock

theorem FirstBlocks.mono {pre shapes : List (ℕ × ℕ)} (h : FirstBlocks size shapes)
    (hpre : pre <+: shapes) : FirstBlocks size pre := by
  intro hne hlen
  obtain ⟨rest, hrest⟩ := firsts_mono hpre
  have hne' : shapes ≠ [] := by
    rintro rfl
    exact hne (List.prefix_nil.mp hpre)
  obtain ⟨hfits, hblocks⟩ := h hne' (hlen.trans (firsts_mono hpre).length_le)
  rw [← hrest, List.take_append_of_le_length hlen] at hblocks
  exact ⟨hfits, hblocks⟩

/-- Whatever the bytes are, the piece is assembled right only when no later block comes between
the first ones. -/
theorem lateBlocks_of_reports {index : ℕ} {hash : Hash} {calls : List (ℕ × List UInt8)}
    (h : ∀ calls', shape calls' = shape calls →
      Reports (fun c => c.Filled ∧ c.Assembles) (new index size hash) calls')
    (hfirst : FirstBlocks size (shape calls)) : LateBlocks size (shape calls) := by
  rintro ⟨offset, length⟩ hblock
  -- the same offsets and lengths, with bytes that tell the blocks of the piece from the rest
  obtain ⟨calls', hcalls'⟩ : ∃ calls', calls' = (shape calls).map (painted size) := ⟨_, rfl⟩
  have hshape : shape calls' = shape calls := hcalls' ▸ shape_painted size (shape calls)
  have hfirsts : firsts calls' = (firsts (shape calls)).map (painted size) :=
    hcalls' ▸ firsts_map (g := painted size) (fun _ => rfl) _
  have hlength := List.length_pos_of_mem hblock
  rw [List.length_drop] at hlength
  have hlen : awaitedBlocks size ≤ (firsts calls').length := by
    rw [hfirsts, List.length_map]
    omega
  have hne : calls' ≠ [] := by
    rintro rfl
    rw [← hshape] at hlength
    simp [shape, firsts, firstsFrom] at hlength
  have hstores := stores_addBlocks index size hash calls'
  have hsize := pieceSize_addBlocks index size hash calls'
  obtain ⟨hfilled, hassembles⟩ := reports_iff.mp (h calls' hshape) calls' (List.prefix_refl _) hne
    ((isComplete_addBlocks index size hash calls').mpr hlen)
  have hdrop : painted size (offset, length) ∈ (firsts calls').drop (awaitedBlocks size) := by
    rw [hfirsts, ← List.map_drop]
    exact List.mem_map_of_mem hblock
  have hnot : offset ∉ blockOffsets size := by
    intro hin
    rw [← hshape] at hfirst
    obtain ⟨data, hdata, _⟩ := FirstBlocks.covers hfirst hne hlen offset hin
    have hdisjoint := List.disjoint_take_drop (nodup_firsts calls') (le_refl (awaitedBlocks size))
    rw [← List.map_take, ← List.map_drop] at hdisjoint
    exact hdisjoint (List.mem_map.mpr ⟨_, hdata, rfl⟩) (List.mem_map.mpr ⟨_, hdrop, rfl⟩)
  have hlate := hstores.late_of_painted (hstores.filled_iff.mp hfilled) (by
    rw [hsize, hfirsts, List.forall_mem_map]
    exact fun block _ x hx => List.eq_of_mem_replicate hx) hassembles
    (List.mem_of_mem_drop hdrop) (hsize.symm ▸ hnot)
  rw [hsize] at hlate
  exact hlate.imp_left fun hempty => by simpa [painted] using hempty

/-- With the first blocks and the later ones right, the piece is assembled right. -/
theorem reports_of_lateBlocks {calls : List (ℕ × List UInt8)} (index : ℕ) (hash : Hash)
    (hfirst : FirstBlocks size (shape calls)) (hlate : LateBlocks size (shape calls)) :
    Reports (fun c => c.Filled ∧ c.Assembles) (new index size hash) calls := by
  rw [reports_iff]
  intro pre hpre hne hcomplete
  have hfilled := reports_iff.mp ((reports_filled_iff index size hash calls).mpr hfirst) pre hpre
    hne hcomplete
  have hstores := stores_addBlocks index size hash pre
  have hpre' : shape pre <+: shape calls := hpre.map _
  refine ⟨hfilled, hstores.assembles hcomplete (hstores.filled_iff.mp hfilled) ?_⟩
  intro block hblock
  rw [pieceSize_addBlocks]
  rw [isComplete_addBlocks] at hcomplete
  refine (FirstBlocks.mem_or_late (FirstBlocks.mono hfirst hpre') hne hcomplete
    hblock).imp_right fun hdrop => ?_
  exact (LateBlocks.mono hlate hpre' _ hdrop).imp_left List.length_eq_zero_iff.mp

/-- What `add_block` reports is right exactly for these sequences of blocks: it returns `true`
only with every block of the piece there just when the first blocks are those of the piece, and
then the piece is assembled right, whatever the bytes are, just when no later block comes
between them. -/
theorem addBlock_reports_iff (index size : ℕ) (hash : Hash) (calls : List (ℕ × List UInt8)) :
    (Reports Filled (new index size hash) calls ↔ FirstBlocks size (shape calls)) ∧
      ((∀ calls', shape calls' = shape calls →
          Reports (fun c => c.Filled ∧ c.Assembles) (new index size hash) calls') ↔
        FirstBlocks size (shape calls) ∧ LateBlocks size (shape calls)) := by
  refine ⟨reports_filled_iff index size hash calls, ?_, ?_⟩
  · intro h
    have hfirst : FirstBlocks size (shape calls) := by
      refine (reports_filled_iff index size hash calls).mp ?_
      intro before offset data after hcalls hdone
      exact (h calls rfl before offset data after hcalls hdone).1
    exact ⟨hfirst, lateBlocks_of_reports h hfirst⟩
  · rintro ⟨hfirst, hlate⟩ calls' hshape
    rw [← hshape] at hfirst hlate
    exact reports_of_lateBlocks index hash hfirst hlate

/-- A block that stands nowhere in the piece completes it. -/
theorem addBlock_misplaced : ¬ ∀ (index size : ℕ) (hash : Hash) (calls : List (ℕ × List UInt8)),
    Reports (fun c => c.Filled ∧ c.Assembles) (new index size hash) calls := by
  intro h
  obtain ⟨hfilled, _⟩ := h 0 16384 sampleHash [(5, [])] [] 5 [] [] rfl rfl
  obtain ⟨data, hdata, _⟩ := hfilled 0 (by decide)
  have hnone : (((new 0 16384 sampleHash).addBlocks []).addBlock 5 []).1.blocks.lookup
      (0 * blockSize) = none := by decide
  rw [hnone] at hdata
  simp at hdata

end PieceCollector

end Retorrent

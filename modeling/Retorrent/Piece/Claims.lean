import Retorrent.Piece.Blocks
import Retorrent.Piece.Select
import Retorrent.Rustlib.Shuffle
import Mathlib.GroupTheory.GroupAction.Ring

/-!
# Claiming blocks

`claim_blocks` looks for the missing blocks with a `u32` cursor, shuffles them and reserves the
first ones that nobody has reserved. On a piece that a `u32` can address, the cursor comes to
every block once; on a larger one it never comes to an end.
-/

namespace Retorrent

open Rust

/-- The offsets that the loop of `claim_blocks` comes to, from an offset on. -/
def visitedFrom (b : Build) (size : ℕ) : ℕ → ℕ → Res (List ℕ)
  | 0, _ => .hang
  | fuel + 1, offset =>
    if offset < size then do
      let next ← b.add 32 offset blockSize
      let rest ← visitedFrom b size fuel next
      return offset :: rest
    else .ok []

namespace PieceCollector

/-- The loop runs through the piece without a wrap, in as many rounds as the collector has
blocks. -/
def Scans (b : Build) (c : PieceCollector) : Prop :=
  ∃ fuel visited, visitedFrom b c.pieceSize fuel 0 = .ok visited ∧
    visited.length = c.numBlocks ∧ ∀ offset ∈ visited, offset + blockSize < 2 ^ 32

/-- `claim_blocks` with its scan and its shuffle: `random i` is what is drawn for the index `i`. -/
def claimBlocksWith (b : Build) (c : PieceCollector) (now : Instant) (count : ℕ)
    (random : ℕ → ℕ) : Res (PieceCollector × List (ℕ × ℕ)) := do
  let missing ← c.missingBlocks b
  return c.claimBlocks now count (shuffle random missing)

/-- The offset was reserved less than 30 seconds ago. -/
def Reserved (c : PieceCollector) (now : Instant) (offset : ℕ) : Prop :=
  ∃ t, c.issued.lookup offset = some t ∧ now - t < issuedTimeoutSecs * 10 ^ 9

/-- The offsets of blocks that are neither stored nor reserved. -/
def available (c : PieceCollector) (now : Instant) : Finset ℕ :=
  (blockOffsets c.pieceSize).filter fun offset => offset ∉ c.blocks ∧ !isFresh c.issued now offset

/-- What a call of `claim_blocks` gives and does. -/
structure Claims (c : PieceCollector) (now : Instant) (count : ℕ) (c' : PieceCollector)
    (claimed : List (ℕ × ℕ)) : Prop where
  distinct : (claimed.map Prod.fst).Nodup
  isBlock : ∀ block ∈ claimed, IsBlock c.pieceSize block
  notStored : ∀ block ∈ claimed, block.1 ∉ c.blocks
  notReserved : ∀ block ∈ claimed, ¬ c.Reserved now block.1
  length : claimed.length = min count (c.available now).card
  issued : ∀ offset, c'.issued.lookup offset =
    if offset ∈ claimed.map Prod.fst then some now else c.issued.lookup offset
  frame : c' = { c with issued := c'.issued }

section Scan

variable {b : Build} {c : PieceCollector} {size : ℕ}

/-- What is missing are the visited offsets that are not stored. -/
theorem missingFrom_eq (b : Build) (c : PieceCollector) (fuel offset : ℕ) :
    c.missingFrom b fuel offset = visitedFrom b c.pieceSize fuel offset >>= fun visited =>
      .ok ((visited.filter fun o => !c.blocks.containsKey o).map fun o =>
        (o, min blockSize (c.pieceSize - o))) := by
  induction fuel generalizing offset with
  | zero => rfl
  | succ fuel ih =>
    rw [missingFrom, visitedFrom]
    split
    · cases (b.add 32 offset blockSize : Res ℕ) with
      | ok next =>
        rw [Outcome.ok_bind, Outcome.ok_bind, ih]
        cases visitedFrom b c.pieceSize fuel next with
        | ok rest =>
          simp only [Outcome.ok_bind, Outcome.pure_eq]
          cases hkey : c.blocks.containsKey offset <;> simp [hkey]
        | err _ | panic _ | hang => rfl
      | err _ | panic _ | hang => rfl
    · rfl

/-- On a piece that a `u32` can address, the loop comes to the blocks one after the other. -/
theorem visitedFrom_eq (b : Build) (hsize : size + blockSize ≤ 2 ^ 32) {fuel k : ℕ}
    (hk : k ≤ size ⌈/⌉ blockSize) (hfuel : size ⌈/⌉ blockSize < fuel + k) :
    visitedFrom b size fuel (k * blockSize) =
      .ok ((List.range' k (size ⌈/⌉ blockSize - k)).map (· * blockSize)) := by
  induction fuel generalizing k with
  | zero => omega
  | succ fuel ih =>
    rw [visitedFrom]
    by_cases hin : k * blockSize < size
    · have hlt : k < size ⌈/⌉ blockSize := lt_ceilDiv_blockSize.mpr hin
      have hnext : k * blockSize + blockSize < 2 ^ 32 :=
        (Nat.add_lt_add_right hin blockSize).trans_le hsize
      obtain ⟨n, hn⟩ := Nat.exists_eq_add_of_lt hlt
      rw [if_pos hin, Build.add_of_lt b hnext, Outcome.ok_bind, ← Nat.succ_mul, ih hlt (by omega),
        Outcome.ok_bind, hn, show k + n + 1 - k = n + 1 by omega,
        show k + n + 1 - (k + 1) = n by omega, List.range'_succ, List.map_cons]
      rfl
    · have hend : size ⌈/⌉ blockSize = k :=
        le_antisymm (Nat.not_lt.mp (mt lt_ceilDiv_blockSize.mp hin)) hk
      rw [if_neg hin, hend, Nat.sub_self]
      rfl

/-- On a larger piece it never comes to an end: the cursor overflows before it reaches the size. -/
theorem not_visitedFrom (hsize : 2 ^ 32 < size + blockSize) (fuel : ℕ) {k : ℕ}
    (hk : k * blockSize < 2 ^ 32) (visited : List ℕ) :
    visitedFrom b size fuel (k * blockSize) ≠ .ok visited := by
  induction fuel generalizing k visited with
  | zero => simp [visitedFrom]
  | succ fuel ih =>
    have hin : k * blockSize < size := by
      unfold blockSize at *
      omega
    rw [visitedFrom, if_pos hin]
    intro h
    obtain ⟨next, hnext, h⟩ := Outcome.bind_eq_ok.mp h
    obtain ⟨rest, hrest, _⟩ := Outcome.bind_eq_ok.mp h
    by_cases hfits : k * blockSize + blockSize < 2 ^ 32
    · rw [Build.add_of_lt b hfits] at hnext
      obtain rfl := Outcome.ok.inj hnext
      rw [← Nat.succ_mul] at hrest hfits
      exact ih hfits rest hrest
    · have hwrap : 2 ^ 32 ≤ k * blockSize + blockSize := Nat.not_lt.mp hfits
      cases b with
      | debug =>
        rw [Build.add_debug_of_le hwrap] at hnext
        simp at hnext
      | release =>
        -- the cursor is at the start again
        rw [Build.add_release_of_le hk (by decide) hwrap] at hnext
        obtain rfl := Outcome.ok.inj hnext
        have hzero : k * blockSize + blockSize - 2 ^ 32 = 0 * blockSize := by
          unfold blockSize at *
          omega
        rw [hzero] at hrest
        exact ih (by decide) rest hrest

theorem ceilDiv_le (hsize : size + blockSize ≤ 2 ^ 32) : size ⌈/⌉ blockSize < 2 ^ 18 := by
  rw [lt_iff_not_ge]
  intro hge
  have hlast := lt_ceilDiv_blockSize.mp (show 2 ^ 18 - 1 < size ⌈/⌉ blockSize by omega)
  unfold blockSize at *
  omega

/-- The missing blocks, if the scan ends. -/
theorem missingBlocks_eq (b : Build) (c : PieceCollector)
    (hsize : c.pieceSize + blockSize ≤ 2 ^ 32) :
    c.missingBlocks b = .ok ((((List.range (c.pieceSize ⌈/⌉ blockSize)).map (· * blockSize)).filter
      fun o => !c.blocks.containsKey o).map fun o => (o, min blockSize (c.pieceSize - o))) := by
  have hvisited := visitedFrom_eq b hsize (Nat.zero_le (c.pieceSize ⌈/⌉ blockSize))
    (show c.pieceSize ⌈/⌉ blockSize < 2 ^ 18 + 1 + 0 from (ceilDiv_le hsize).trans (by decide))
  rw [Nat.zero_mul, Nat.sub_zero, ← List.range_eq_range'] at hvisited
  rw [missingBlocks, missingFrom_eq, hvisited, Outcome.ok_bind]

theorem missingBlocks_returns {missing : List (ℕ × ℕ)} (h : c.missingBlocks b = .ok missing) :
    c.pieceSize + blockSize ≤ 2 ^ 32 := by
  by_contra hsize
  rw [missingBlocks, missingFrom_eq] at h
  obtain ⟨visited, hvisited, _⟩ := Outcome.bind_eq_ok.mp h
  rw [← Nat.zero_mul blockSize] at hvisited
  exact not_visitedFrom (Nat.lt_of_not_le hsize) _ (by decide) visited hvisited

end Scan

section Loop

variable {b : Build} {c : PieceCollector} {now : Instant} {count : ℕ}

theorem isFresh_iff {offset : ℕ} : isFresh c.issued now offset = true ↔ c.Reserved now offset := by
  rw [isFresh, Reserved]
  cases c.issued.lookup offset with
  | none => simp
  | some t =>
    simp only [decide_eq_true_eq, Option.some.injEq, exists_eq_left']
    exact Nat.div_lt_iff_lt_mul (by decide)

/-- The loop takes the first blocks that are not reserved, as many as are asked for. -/
theorem claimLoop_eq {blocks : List (ℕ × ℕ)} (hnodup : (blocks.map Prod.fst).Nodup)
    (issued : HashMap ℕ Instant) (claimed : List (ℕ × ℕ)) :
    (claimLoop now count issued claimed blocks).2 = claimed ++
      (blocks.filter fun block => !isFresh issued now block.1).take (count - claimed.length) := by
  induction blocks generalizing issued claimed with
  | nil => simp [claimLoop]
  | cons block blocks ih =>
    obtain ⟨hfresh, hnodup⟩ := List.nodup_cons.mp hnodup
    rw [claimLoop]
    by_cases hcount : count ≤ claimed.length
    · rw [if_pos hcount, Nat.sub_eq_zero_of_le hcount, List.take_zero, List.append_nil]
    · rw [if_neg hcount]
      cases hblock : isFresh issued now block.1 with
      | true =>
        rw [if_pos rfl, ih hnodup, List.filter_cons_of_neg (by simp [hblock])]
      | false =>
        -- the reservation of this block is none of another
        have hsame : (blocks.filter fun x => !isFresh (issued.insert block.1 now) now x.1) =
            blocks.filter fun x => !isFresh issued now x.1 := by
          apply List.filter_congr
          intro x hx
          have hne : x.1 ≠ block.1 := fun heq => hfresh (heq ▸ List.mem_map_of_mem hx)
          rw [isFresh, isFresh, AList.lookup_insert_ne hne]
        obtain ⟨room, hroom⟩ := Nat.exists_eq_add_of_lt (Nat.lt_of_not_le hcount)
        rw [if_neg Bool.false_ne_true, ih hnodup, hsame,
          List.filter_cons_of_pos (by simp [hblock]), List.length_append, List.length_singleton,
          show count - claimed.length = room + 1 by omega,
          show count - (claimed.length + 1) = room by omega, List.take_succ_cons, List.append_assoc,
          List.singleton_append]

theorem lookup_eq_ite {issued : HashMap ℕ Instant} {claimed : List (ℕ × ℕ)}
    (hclaimed : ∀ block ∈ claimed, issued.lookup block.1 = some now) (offset : ℕ) :
    issued.lookup offset =
      if offset ∈ claimed.map Prod.fst then some now else issued.lookup offset := by
  split
  · next hmem =>
    obtain ⟨block, hblock, rfl⟩ := List.mem_map.mp hmem
    exact hclaimed block hblock
  · rfl

/-- What is claimed is reserved now, and nothing else changes. -/
theorem lookup_claimLoop (blocks : List (ℕ × ℕ)) (issued : HashMap ℕ Instant)
    {claimed : List (ℕ × ℕ)} (hclaimed : ∀ block ∈ claimed, issued.lookup block.1 = some now)
    (offset : ℕ) :
    (claimLoop now count issued claimed blocks).1.lookup offset =
      if offset ∈ (claimLoop now count issued claimed blocks).2.map Prod.fst then some now
      else issued.lookup offset := by
  induction blocks generalizing issued claimed with
  | nil => exact lookup_eq_ite hclaimed offset
  | cons block blocks ih =>
    rw [claimLoop]
    split
    · exact lookup_eq_ite hclaimed offset
    · split
      · exact ih issued hclaimed
      · have hnext : ∀ x ∈ claimed ++ [block],
            (issued.insert block.1 now).lookup x.1 = some now := by
          intro x hx
          rw [HashMap.lookup_insert_eq]
          split
          · rfl
          · next hne =>
            refine hclaimed x ((List.mem_append.mp hx).resolve_right fun hx => hne ?_)
            rw [List.mem_singleton.mp hx]
        rw [ih _ hnext]
        split
        · rfl
        · next hout =>
          obtain ⟨_, hkept, _⟩ := mem_claimLoop now count blocks (issued.insert block.1 now)
            (claimed ++ [block])
          have hblock := hkept block (List.mem_append_right _ List.mem_cons_self)
          refine AList.lookup_insert_ne ?_
          rintro rfl
          exact hout (List.mem_map_of_mem hblock)

/-- The blocks that are missing, as a set of offsets. -/
theorem toFinset_missing {missing : List (ℕ × ℕ)} (h : c.missingBlocks b = .ok missing) :
    (missing.map Prod.fst).Nodup ∧
      (∀ block ∈ missing, IsBlock c.pieceSize block ∧ block.1 ∉ c.blocks) ∧
      (missing.map Prod.fst).toFinset =
        (blockOffsets c.pieceSize).filter fun offset => offset ∉ c.blocks := by
  rw [missingBlocks_eq b c (missingBlocks_returns h)] at h
  obtain rfl := Outcome.ok.inj h
  have hfst : ((((List.range (c.pieceSize ⌈/⌉ blockSize)).map (· * blockSize)).filter
      fun o => !c.blocks.containsKey o).map fun o =>
        (o, min blockSize (c.pieceSize - o))).map Prod.fst =
      ((List.range (c.pieceSize ⌈/⌉ blockSize)).map (· * blockSize)).filter
        fun o => !c.blocks.containsKey o := by
    rw [List.map_map]
    exact List.map_id _
  have hmem (offset : ℕ) : offset ∈ (List.range (c.pieceSize ⌈/⌉ blockSize)).map (· * blockSize) ↔
      offset ∈ blockOffsets c.pieceSize := by
    simp only [blockOffsets, List.mem_map, List.mem_range, Finset.mem_image, Finset.mem_range]
  have hkey (offset : ℕ) : (!c.blocks.containsKey offset) = true ↔ offset ∉ c.blocks := by
    rw [Bool.not_eq_true', ← Bool.not_eq_true, HashMap.containsKey_iff]
  refine ⟨?_, ?_, ?_⟩
  · rw [hfst]
    refine (List.Nodup.map ?_ List.nodup_range).filter _
    intro j k hjk
    exact Nat.eq_of_mul_eq_mul_right (by decide) hjk
  · intro block hblock
    obtain ⟨offset, hoffset, rfl⟩ := List.mem_map.mp hblock
    obtain ⟨hin, hnot⟩ := List.mem_filter.mp hoffset
    obtain ⟨hmod, hlt⟩ := mem_blockOffsets.mp ((hmem offset).mp hin)
    exact ⟨⟨hmod, hlt, rfl⟩, (hkey offset).mp hnot⟩
  · rw [hfst]
    ext offset
    rw [List.mem_toFinset, List.mem_filter, Finset.mem_filter, hmem, hkey]

/-- What is claimed are blocks, and only the reservations change. -/
theorem claimBlocksWith_eq_ok {random : ℕ → ℕ} {c' : PieceCollector} {claimed : List (ℕ × ℕ)}
    (h : c.claimBlocksWith b now count random = .ok (c', claimed)) :
    (∀ block ∈ claimed, IsBlock c.pieceSize block) ∧
      ∃ issued, c' = { c with issued := issued } := by
  obtain ⟨missing, hmissing, h⟩ := Outcome.bind_eq_ok.mp h
  obtain ⟨_, hblocks, _⟩ := toFinset_missing hmissing
  obtain ⟨rfl, rfl⟩ := Prod.mk.inj (Outcome.ok.inj h)
  refine ⟨?_, _, rfl⟩
  intro block hblock
  obtain ⟨_, _, hshuffled⟩ := mem_claimLoop now count (shuffle random missing) c.issued []
  have hin := (hshuffled block hblock).resolve_left List.not_mem_nil
  exact (hblocks block ((shuffle_perm random missing).mem_iff.mp hin)).1

/-- Whenever `claim_blocks` returns, it has reserved as many of the available blocks as it can. -/
theorem claimBlocksWith_claims {random : ℕ → ℕ} {c' : PieceCollector} {claimed : List (ℕ × ℕ)}
    (h : c.claimBlocksWith b now count random = .ok (c', claimed)) :
    c.Claims now count c' claimed := by
  obtain ⟨missing, hmissing, h⟩ := Outcome.bind_eq_ok.mp h
  obtain ⟨hnodup, hblocks, hset⟩ := toFinset_missing hmissing
  have hperm := shuffle_perm random missing
  have hnodup' : ((shuffle random missing).map Prod.fst).Nodup :=
    (hperm.map Prod.fst).nodup_iff.mpr hnodup
  obtain ⟨rfl, rfl⟩ := Prod.mk.inj (Outcome.ok.inj h)
  have hclaimed : (claimLoop now count c.issued [] (shuffle random missing)).2 =
      ((shuffle random missing).filter fun block => !isFresh c.issued now block.1).take count :=
    claimLoop_eq hnodup' c.issued []
  have hnone : ∀ block ∈ ([] : List (ℕ × ℕ)), c.issued.lookup block.1 = some now := by simp
  have hmem {block : ℕ × ℕ}
      (hblock : block ∈ (claimLoop now count c.issued [] (shuffle random missing)).2) :
      block ∈ missing ∧ isFresh c.issued now block.1 = false := by
    rw [hclaimed] at hblock
    obtain ⟨hin, hfresh⟩ := List.mem_filter.mp (List.mem_of_mem_take hblock)
    exact ⟨hperm.mem_iff.mp hin, by simpa using hfresh⟩
  refine ⟨?_, fun x hx => (hblocks x (hmem hx).1).1, fun x hx => (hblocks x (hmem hx).1).2, ?_, ?_,
    lookup_claimLoop (shuffle random missing) c.issued hnone, rfl⟩
  · rw [hclaimed]
    exact hnodup'.sublist (((List.take_sublist _ _).trans List.filter_sublist).map _)
  · intro block hblock
    rw [← isFresh_iff, (hmem hblock).2]
    exact Bool.false_ne_true
  · rw [hclaimed, List.length_take]
    congr 1
    have hmap : ((shuffle random missing).filter fun block =>
        !isFresh c.issued now block.1).map Prod.fst =
          ((shuffle random missing).map Prod.fst).filter fun offset =>
            !isFresh c.issued now offset := by
      rw [List.filter_map]
      rfl
    have hset' : (((shuffle random missing).filter fun block =>
        !isFresh c.issued now block.1).map Prod.fst).toFinset = c.available now := by
      rw [hmap]
      ext offset
      rw [List.mem_toFinset, List.mem_filter, (hperm.map Prod.fst).mem_iff, ← List.mem_toFinset,
        hset, available, Finset.mem_filter, Finset.mem_filter, and_assoc]
    rw [← hset', List.toFinset_card_of_nodup, List.length_map]
    exact hnodup'.sublist (List.filter_sublist.map _)

theorem claims_threeBlocks :
    ∃ c claimed, (new 0 40000 sampleHash).claimBlocksWith .debug 0 2 (fun _ => 1) =
        .ok (c, claimed) ∧ (new 0 40000 sampleHash).Claims 0 2 c claimed :=
  ⟨_, _, rfl, @claimBlocksWith_claims .debug _ _ _ _ _ _ rfl⟩

end Loop

section Terminates

variable {b : Build} {c : PieceCollector}

theorem claimBlocksWith_of_le (hsize : c.pieceSize + blockSize ≤ 2 ^ 32) (now : Instant)
    (count : ℕ) (random : ℕ → ℕ) : ∃ r, c.claimBlocksWith b now count random = .ok r := by
  rw [claimBlocksWith, missingBlocks_eq b c hsize, Outcome.ok_bind]
  exact ⟨_, rfl⟩

theorem scans_of_le (hsize : c.pieceSize + blockSize ≤ 2 ^ 32)
    (hblocks : c.numBlocks = awaitedBlocks c.pieceSize) : c.Scans b := by
  have hvisited := visitedFrom_eq b hsize (Nat.zero_le (c.pieceSize ⌈/⌉ blockSize))
    (Nat.lt_succ_self _)
  rw [Nat.zero_mul, Nat.sub_zero, ← List.range_eq_range'] at hvisited
  refine ⟨_, _, hvisited, ?_, ?_⟩
  · rw [List.length_map, List.length_range, hblocks, awaitedBlocks,
      Nat.mod_eq_of_lt ((ceilDiv_le hsize).trans (by decide))]
  · intro offset hoffset
    obtain ⟨k, hk, rfl⟩ := List.mem_map.mp hoffset
    have hlt := lt_ceilDiv_blockSize.mp (List.mem_range.mp hk)
    exact (Nat.add_lt_add_right hlt blockSize).trans_le hsize

/-- Nothing that is done to a collector changes its size or its number of blocks. -/
structure SamePiece (c c' : PieceCollector) : Prop where
  pieceSize : c'.pieceSize = c.pieceSize
  numBlocks : c'.numBlocks = c.numBlocks

theorem samePiece_addBlock (c : PieceCollector) (offset : ℕ) (data : List UInt8) :
    c.SamePiece (c.addBlock offset data).1 :=
  ⟨(c.addBlock_fields offset data).2.1, (c.addBlock_fields offset data).1⟩

theorem samePiece_claimBlocks (c : PieceCollector) (now : Instant) (count : ℕ)
    (shuffled : List (ℕ × ℕ)) : c.SamePiece (c.claimBlocks now count shuffled).1 := ⟨rfl, rfl⟩

/-- The collector that is made for a piece is always scanned to its end, and every call of
`claim_blocks` on it returns, exactly when a `u32` can address the end of its last block. -/
theorem scans_iff {pm pm' : PieceManager} {heap heap' : Heap} {index a : ℕ} {c₀ : PieceCollector}
    (hstart : PieceManager.startPiece b index pm heap = .ok (a, pm', heap'))
    (hmade : heap'[a]? = some c₀) (hc : c₀.SamePiece c) :
    (c.Scans b ∧ ∀ now count random, ∃ r, c.claimBlocksWith b now count random = .ok r) ↔
      ∃ size, pm.pieceSize b index = .ok size ∧ size + blockSize ≤ 2 ^ 32 := by
  obtain ⟨size, hsize, hstart⟩ := Outcome.bind_eq_ok.mp hstart
  obtain ⟨hash, _, hstart⟩ := Outcome.bind_eq_ok.mp hstart
  obtain ⟨rfl, rfl, rfl⟩ : heap.length = a ∧ _ ∧ _ := by simpa using hstart
  have hnew : c₀ = new index size hash := by simpa using hmade.symm
  have hpiece : c.pieceSize = size := hc.pieceSize.trans (by rw [hnew]; rfl)
  have hblocks : c.numBlocks = awaitedBlocks c.pieceSize := by
    rw [hc.numBlocks, hpiece, hnew]
    rfl
  constructor
  · rintro ⟨⟨fuel, visited, hvisited, _⟩, _⟩
    refine ⟨size, hsize, ?_⟩
    by_contra hlarge
    rw [hpiece, ← Nat.zero_mul blockSize] at hvisited
    exact not_visitedFrom (Nat.lt_of_not_le hlarge) fuel (by decide) visited hvisited
  · rintro ⟨size', hsize', hle⟩
    obtain rfl := Outcome.ok.inj (hsize.symm.trans hsize')
    rw [← hpiece] at hle
    exact ⟨scans_of_le hle hblocks, claimBlocksWith_of_le hle⟩

/-- The last of two pieces has three blocks, and the second of them is there. -/
def secondBlock : PieceCollector :=
  ((new 1 40000 sampleHash).addBlock 16384 (List.replicate 16384 0)).1

theorem scans_secondBlock :
    secondBlock.Scans .debug ∧
      ∀ now count random, ∃ r, secondBlock.claimBlocksWith .debug now count random = .ok r :=
  (@scans_iff .debug _ (.new 2 65536 105536 [sampleHash, sampleHash]) _ [] _ 1 _ _ rfl rfl
    (samePiece_addBlock _ _ _)).mpr ⟨40000, rfl, by decide⟩

/-- One piece of 4 GiB. -/
def largeTorrent : Bytes :=
  ⟨Str.asciiBytes ("d4:infod6:lengthi4294967296e4:name1:x12:piece lengthi4294967296e" ++
    "6:pieces20:aaaaaaaaaaaaaaaaaaaaee"), by decide +kernel⟩

/-- The SHA-1 of its info dictionary. -/
def largeHash : Hash :=
  ⟨[4, 166, 19, 174, 203, 77, 121, 248, 215, 108, 86, 121, 100, 215, 154, 107, 200, 135, 10, 91],
    by decide⟩

/-- The cursor of its only piece comes around and never reaches the size. -/
theorem largeTorrent_not_scans :
    ∃ m pm' heap' c, MetaInfo.fromBytes (fun _ => largeHash) .release largeTorrent = .ok m ∧
      PieceManager.startPiece .release 0
        (.new m.numPieces m.pieceLength m.totalSize m.pieces) [] = .ok (0, pm', heap') ∧
      heap'[0]? = some c ∧ ¬ c.Scans .release ∧
      ∀ now count random r, c.claimBlocksWith .release now count random ≠ .ok r := by
  have hok : (MetaInfo.fromBytes (fun _ => largeHash) .release largeTorrent).isOkAnd
      (fun m => m.pieceLength = 2 ^ 32 ∧ m.totalSize = 2 ^ 32 ∧ m.pieces.length = 1) = true := by
    decide +kernel
  obtain ⟨m, hm, hfields⟩ := Outcome.isOkAnd_iff.mp hok
  obtain ⟨hlen, htotal, hpieces⟩ :
      m.pieceLength = 2 ^ 32 ∧ m.totalSize = 2 ^ 32 ∧ m.pieces.length = 1 :=
    of_decide_eq_true hfields
  obtain ⟨hash, hhash⟩ := List.length_eq_one_iff.mp hpieces
  have hlarge : 2 ^ 32 < 2 ^ 32 + blockSize := by decide
  obtain ⟨pm', hstart⟩ : ∃ pm', PieceManager.startPiece .release 0
      (.new m.numPieces m.pieceLength m.totalSize m.pieces) [] =
        .ok (0, pm', [new 0 (2 ^ 32) hash]) := by
    have hsize : PieceManager.pieceSize .release (.new 1 (2 ^ 32) (2 ^ 32) [hash]) 0 =
        .ok (2 ^ 32) := by
      simp [PieceManager.pieceSize, PieceManager.new, Build.sub, rem]
    have hnum : m.numPieces = 1 := by simp [MetaInfo.numPieces, hpieces]
    rw [hnum, hlen, htotal, hhash, PieceManager.startPiece, hsize]
    exact ⟨_, rfl⟩
  refine ⟨m, pm', _, _, hm, hstart, rfl, ?_, ?_⟩
  · rintro ⟨fuel, visited, hvisited, _⟩
    rw [← Nat.zero_mul blockSize] at hvisited
    exact not_visitedFrom hlarge fuel (by decide) visited hvisited
  · intro now count random r hr
    obtain ⟨missing, hmissing, _⟩ := Outcome.bind_eq_ok.mp hr
    exact absurd (missingBlocks_returns hmissing) (Nat.not_le.mpr hlarge)

end Terminates

end PieceCollector

end Retorrent

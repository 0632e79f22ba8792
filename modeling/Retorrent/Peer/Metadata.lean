import Retorrent.Metainfo
import Retorrent.Rustlib.Chunks
import Retorrent.Types
import Mathlib.GroupTheory.GroupAction.Ring

/-!
# Metadata that is being fetched

`MetadataState` gathers the pieces of an info dictionary. It is sized by a total size that a
peer names, and reports completion when every place is filled.
-/

namespace Retorrent

open Rust

/-- The state of a ut_metadata exchange. -/
structure MetadataState where
  pieces : List (Option (List UInt8))
  totalSize : ℕ
  numPieces : ℕ
  infoHash : Hash

namespace MetadataState

def new (infoHash : Hash) : MetadataState where
  pieces := []
  totalSize := 0
  numPieces := 0
  infoHash := infoHash

/-- `set_total_size` forgets whatever was stored. -/
def setTotalSize (ms : MetadataState) (totalSize : ℕ) : MetadataState :=
  { ms with
    totalSize := totalSize
    numPieces := totalSize ⌈/⌉ blockSize
    pieces := List.replicate (totalSize ⌈/⌉ blockSize) none }

/-- `pieces.iter().all(|p| p.is_some())`. -/
def isFull (ms : MetadataState) : Bool := ms.pieces.all Option.isSome

/-- `store_piece`: the state afterwards and whether all pieces are present. -/
def storePiece (ms : MetadataState) (index : ℕ) (data : List UInt8) : MetadataState × Bool :=
  let ms :=
    if index < ms.pieces.length then { ms with pieces := ms.pieces.set index (some data) } else ms
  (ms, ms.isFull)

def assemble (ms : MetadataState) : Option (List UInt8) :=
  if ms.isFull then some ((ms.pieces.flatMap fun piece => piece.getD []).take ms.totalSize)
  else none

def verify (sha1 : List UInt8 → Hash) (ms : MetadataState) (data : List UInt8) : Bool :=
  sha1 data = ms.infoHash

/-- The index of the first piece that is missing. -/
def firstMissing (ms : MetadataState) : Option ℕ := ms.pieces.findIdx? (·.isNone)

/-- The piece at an index has been stored. -/
def Has (ms : MetadataState) (k : ℕ) : Prop := ∃ data, ms.pieces[k]? = some (some data)

/-- The state has a place for every block of `info` and stores nothing but these blocks. -/
structure Gathers (ms : MetadataState) (info : List UInt8) : Prop where
  length : ms.pieces.length = info.length ⌈/⌉ blockSize
  block : ∀ k data, ms.pieces[k]? = some (some data) → data = chunkAt blockSize info k

/-- Blocks of `info` are stored one after the other. -/
def storeBlocks (ms : MetadataState) (info : List UInt8) : List ℕ → MetadataState
  | [] => ms
  | k :: ks => (ms.storePiece k (chunkAt blockSize info k)).1.storeBlocks info ks

/-- A state that is sized with `size` and is given the blocks of `info` in any order, with
repetitions, reports completion just when it has them all, and then assembles `info`. -/
def Receives (size : ℕ) (info : List UInt8) : Prop :=
  ∀ (infoHash : Hash) (ks : List ℕ) (k : ℕ),
    (∀ j ∈ k :: ks, j < (chunks blockSize info).length) →
    let ms := ((new infoHash).setTotalSize size).storeBlocks info ks
    let stored := ms.storePiece k (chunkAt blockSize info k)
    (stored.2 = true ↔ ∀ j < (chunks blockSize info).length, j ∈ k :: ks) ∧
      (stored.2 = true → stored.1.assemble = some info)

variable {ms : MetadataState} {info data : List UInt8} {size k j : ℕ}

theorem blockSize_pos : 0 < blockSize := by decide

@[simp] theorem setTotalSize_pieces (ms : MetadataState) (size : ℕ) :
    (ms.setTotalSize size).pieces = List.replicate (size ⌈/⌉ blockSize) none := rfl

@[simp] theorem storePiece_totalSize (ms : MetadataState) (k : ℕ) (data : List UInt8) :
    (ms.storePiece k data).1.totalSize = ms.totalSize := by
  rw [storePiece]
  split <;> rfl

theorem storePiece_pieces (ms : MetadataState) (k : ℕ) (data : List UInt8) :
    (ms.storePiece k data).1.pieces = ms.pieces.set k (some data) := by
  rw [storePiece]
  split
  · rfl
  · next hge => rw [List.set_eq_of_length_le (Nat.not_lt.mp hge)]

theorem storePiece_done (ms : MetadataState) (k : ℕ) (data : List UInt8) :
    (ms.storePiece k data).2 = (ms.storePiece k data).1.isFull := rfl

/-- What is stored after a piece has been stored. -/
theorem has_storePiece :
    (ms.storePiece k data).1.Has j ↔ j = k ∧ j < ms.pieces.length ∨ ms.Has j := by
  rw [Has, storePiece_pieces]
  by_cases heq : j = k
  · subst heq
    by_cases hj : j < ms.pieces.length
    · exact iff_of_true ⟨data, List.getElem?_set_self hj⟩ (.inl ⟨rfl, hj⟩)
    · rw [List.set_eq_of_length_le (Nat.not_lt.mp hj)]
      exact (or_iff_right fun h => hj h.2).symm
  · rw [List.getElem?_set_ne (Ne.symm heq)]
    exact (or_iff_right fun h => heq h.1).symm

/-- Nothing is stored after `set_total_size`. -/
theorem not_has_setTotalSize : ¬ (ms.setTotalSize size).Has j := by
  rintro ⟨data, hdata⟩
  rw [setTotalSize_pieces, List.getElem?_replicate] at hdata
  split at hdata <;> simp at hdata

/-- All places are filled exactly when every piece has been stored. -/
theorem isFull_iff : ms.isFull = true ↔ ∀ j < ms.pieces.length, ms.Has j := by
  rw [isFull, List.all_eq_true]
  constructor
  · intro h j hj
    obtain ⟨data, hdata⟩ := Option.isSome_iff_exists.mp (h _ (List.getElem_mem hj))
    exact ⟨data, by rw [List.getElem?_eq_getElem hj, hdata]⟩
  · intro h piece hpiece
    obtain ⟨j, hj, rfl⟩ := List.mem_iff_getElem.mp hpiece
    obtain ⟨data, hdata⟩ := h j hj
    rw [List.getElem?_eq_getElem hj, Option.some.injEq] at hdata
    rw [hdata, Option.isSome_some]

namespace Gathers

theorem setTotalSize (h : size ⌈/⌉ blockSize = info.length ⌈/⌉ blockSize) :
    (ms.setTotalSize size).Gathers info where
  length := by rw [setTotalSize_pieces, List.length_replicate, h]
  block k data hdata := absurd ⟨data, hdata⟩ not_has_setTotalSize

theorem storePiece (h : ms.Gathers info) (k : ℕ) :
    (ms.storePiece k (chunkAt blockSize info k)).1.Gathers info where
  length := by rw [storePiece_pieces, List.length_set, h.length]
  block j data hdata := by
    rw [storePiece_pieces] at hdata
    by_cases heq : j = k
    · subst heq
      rw [List.getElem?_set_self'] at hdata
      cases hold : ms.pieces[j]? with
      | none => simp [hold] at hdata
      | some piece =>
        rw [hold] at hdata
        exact (Option.some.inj (Option.some.inj hdata)).symm
    · rw [List.getElem?_set_ne (Ne.symm heq)] at hdata
      exact h.block j data hdata

theorem storeBlocks (h : ms.Gathers info) (ks : List ℕ) :
    (ms.storeBlocks info ks).Gathers info := by
  induction ks generalizing ms with
  | nil => exact h
  | cons k ks ih => exact ih (h.storePiece k)

/-- Blocks that are all there make `info`, up to the total size. -/
theorem assemble_eq (h : ms.Gathers info) (hfull : ms.isFull = true) :
    ms.assemble = some (info.take ms.totalSize) := by
  have hpieces : ms.pieces = (chunks blockSize info).map some := by
    apply List.ext_getElem?
    intro k
    rw [List.getElem?_map, getElem?_chunks, ← h.length]
    split
    · next hk =>
      obtain ⟨data, hdata⟩ := isFull_iff.mp hfull k hk
      rw [hdata, h.block k data hdata, Option.map_some]
    · next hk => rw [List.getElem?_eq_none (Nat.not_lt.mp hk), Option.map_none]
  have hflat : (ms.pieces.flatMap fun piece => piece.getD []) = info := by
    rw [hpieces, List.flatMap_map]
    exact (congrArg List.flatten (List.map_id _)).trans (flatten_chunks blockSize_pos info)
  rw [assemble, if_pos hfull, hflat]

end Gathers

theorem storeBlocks_totalSize (ms : MetadataState) (info : List UInt8) (ks : List ℕ) :
    (ms.storeBlocks info ks).totalSize = ms.totalSize := by
  induction ks generalizing ms with
  | nil => rfl
  | cons k ks ih => rw [storeBlocks, ih, storePiece_totalSize]

theorem storeBlocks_length (ms : MetadataState) (info : List UInt8) (ks : List ℕ) :
    (ms.storeBlocks info ks).pieces.length = ms.pieces.length := by
  induction ks generalizing ms with
  | nil => rfl
  | cons k ks ih => rw [storeBlocks, ih, storePiece_pieces, List.length_set]

/-- The blocks that were given are stored, as far as there are places for them. -/
theorem has_storeBlocks {ks : List ℕ} :
    (ms.storeBlocks info ks).Has j ↔ j ∈ ks ∧ j < ms.pieces.length ∨ ms.Has j := by
  induction ks generalizing ms with
  | nil => simp [storeBlocks]
  | cons k ks ih =>
    rw [storeBlocks, ih, has_storePiece, storePiece_pieces, List.length_set, List.mem_cons]
    tauto

/-- The last block reports whether every place has been given its block. -/
theorem done_iff {infoHash : Hash} {ks : List ℕ} :
    ((((new infoHash).setTotalSize size).storeBlocks info ks).storePiece k data).2 = true ↔
      ∀ j < size ⌈/⌉ blockSize, j ∈ k :: ks := by
  have hplaces : (((new infoHash).setTotalSize size).storeBlocks info ks).pieces.length =
      size ⌈/⌉ blockSize := by
    rw [storeBlocks_length, setTotalSize_pieces, List.length_replicate]
  rw [storePiece_done, isFull_iff, storePiece_pieces, List.length_set, hplaces]
  refine forall₂_congr fun j hj => ?_
  rw [has_storePiece, hplaces, has_storeBlocks, setTotalSize_pieces, List.length_replicate,
    List.mem_cons]
  simp [hj, not_has_setTotalSize]

/-- A state that is sized for at least `info` receives it exactly when it has as many places
as there are blocks. -/
theorem receives_iff (hne : info ≠ []) (hle : info.length ≤ size) :
    Receives size info ↔ size ⌈/⌉ blockSize = info.length ⌈/⌉ blockSize := by
  have hpos : 0 < info.length ⌈/⌉ blockSize := by
    rw [Nat.pos_iff_ne_zero]
    intro hzero
    have hlen := (ceilDiv_le_iff_le_mul blockSize_pos).mp hzero.le
    rw [Nat.mul_zero, Nat.le_zero, List.length_eq_zero_iff] at hlen
    exact hne hlen
  constructor
  · intro h
    -- the blocks in order, the last one at the end
    obtain ⟨n, hn⟩ := Nat.exists_eq_succ_of_ne_zero hpos.ne'
    have hmem (j : ℕ) : j ∈ n :: List.range n ↔ j < info.length ⌈/⌉ blockSize := by
      rw [List.mem_cons, List.mem_range, hn]
      omega
    have hall := h ⟨List.replicate 20 0, rfl⟩ (List.range n) n fun j hj => by
      rw [length_chunks]
      exact (hmem j).mp hj
    have hdone := done_iff.mp (hall.1.mpr fun j hj => by
      rw [length_chunks] at hj
      exact (hmem j).mpr hj)
    have hmono : info.length ⌈/⌉ blockSize ≤ size ⌈/⌉ blockSize :=
      (gc_mul_ceilDiv blockSize_pos).monotone_l hle
    by_contra hlt
    have hlast := (hmem _).mp (hdone (info.length ⌈/⌉ blockSize) (by omega))
    omega
  · intro heq infoHash ks k hks
    rw [length_chunks] at hks ⊢
    have hsized : ((new infoHash).setTotalSize size).Gathers info := .setTotalSize heq
    have hgathers := (hsized.storeBlocks ks).storePiece k
    refine ⟨done_iff.trans (by rw [heq]), ?_⟩
    intro hdone
    rw [hgathers.assemble_eq hdone, storePiece_totalSize, storeBlocks_totalSize]
    exact congrArg some (List.take_of_length_le hle)

end MetadataState

end Retorrent

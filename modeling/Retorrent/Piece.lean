import Mathlib.Algebra.Order.Floor.Div
import Retorrent.Metainfo
import Retorrent.Rustlib.HashMap
import Retorrent.Types

/-!
# Pieces

`PieceCollector` gathers the blocks of one piece, and `PieceManager` holds what
the whole torrent has, works on and wants. Collectors are shared by reference,
so the manager and the peer loops hold the address of a collector in a heap.
-/

namespace Retorrent

open Rust

/-- `Instant`, in nanoseconds. -/
abbrev Instant := ℕ

/-- `Duration::as_secs`. -/
def asSecs (nanos : ℕ) : ℕ := nanos / 10 ^ 9

def issuedTimeoutSecs : ℕ := 30

structure PieceCollector where
  index : ℕ
  pieceSize : ℕ
  expectedHash : Hash
  blocks : HashMap ℕ (List UInt8)
  issued : HashMap ℕ Instant
  numBlocks : ℕ

namespace PieceCollector

def new (index pieceSize : ℕ) (expectedHash : Hash) : PieceCollector where
  index := index
  pieceSize := pieceSize
  expectedHash := expectedHash
  blocks := ∅
  issued := ∅
  numBlocks := (pieceSize ⌈/⌉ blockSize) % 2 ^ 32

def isComplete (c : PieceCollector) : Bool := c.numBlocks ≤ c.blocks.len

/-- `add_block`: the collector afterwards and whether it is complete. -/
def addBlock (c : PieceCollector) (offset : ℕ) (data : List UInt8) : PieceCollector × Bool :=
  if c.blocks.containsKey offset then (c, c.isComplete)
  else
    let c' := { c with
      issued := c.issued.erase offset
      blocks := c.blocks.insert offset data }
    (c', c'.isComplete)

/-- `assemble`: the blocks in the order of their offsets. -/
def assemble (c : PieceCollector) : Option (List UInt8) :=
  if c.isComplete then
    let offsets := c.blocks.keys.insertionSort (· ≤ ·)
    some ((offsets.flatMap fun offset => (c.blocks.lookup offset).getD []).take c.pieceSize)
  else none

/-- The loop of `claim_blocks` that looks for missing blocks from an offset on. -/
def missingFrom (b : Build) (c : PieceCollector) : ℕ → ℕ → Res (List (ℕ × ℕ))
  | 0, _ => .hang
  | fuel + 1, offset =>
    if offset < c.pieceSize then do
      let next ← b.add 32 offset blockSize
      let rest ← missingFrom b c fuel next
      return if c.blocks.containsKey offset then rest
        else (offset, min blockSize (c.pieceSize - offset)) :: rest
    else .ok []

/-- The missing blocks with their lengths. As a `u32`, the offset takes at most
`2 ^ 18` values before it comes around. -/
def missingBlocks (b : Build) (c : PieceCollector) : Res (List (ℕ × ℕ)) :=
  c.missingFrom b (2 ^ 18 + 1) 0

/-- An offset is reserved and the reservation has not timed out. -/
def isFresh (issued : HashMap ℕ Instant) (now : Instant) (offset : ℕ) : Bool :=
  match issued.lookup offset with
  | some t => asSecs (now - t) < issuedTimeoutSecs
  | none => false

/-- The loop of `claim_blocks` that reserves blocks in the shuffled order. -/
def claimLoop (now : Instant) (count : ℕ) (issued : HashMap ℕ Instant)
    (claimed : List (ℕ × ℕ)) : List (ℕ × ℕ) → HashMap ℕ Instant × List (ℕ × ℕ)
  | [] => (issued, claimed)
  | (offset, length) :: missing =>
    if count ≤ claimed.length then (issued, claimed)
    else if isFresh issued now offset then claimLoop now count issued claimed missing
    else claimLoop now count (issued.insert offset now) (claimed ++ [(offset, length)]) missing

/-- `claim_blocks` at the time `now`, where `shuffled` is what the shuffle makes of
the missing blocks. -/
def claimBlocks (c : PieceCollector) (now : Instant) (count : ℕ) (shuffled : List (ℕ × ℕ)) :
    PieceCollector × List (ℕ × ℕ) :=
  let (issued, claimed) := claimLoop now count c.issued [] shuffled
  ({ c with issued := issued }, claimed)

end PieceCollector

/-- The collectors that were ever made, by address. -/
abbrev Heap := List PieceCollector

structure PieceManager where
  numPieces : ℕ
  pieceLength : ℕ
  totalSize : ℕ
  hashes : List Hash
  have_ : List Bool
  /-- The address of the collector of each piece in progress. -/
  inProgress : HashMap ℕ ℕ
  pieceAvailability : List ℕ
  piecePriorities : List FilePriority

/-- How the priority of a file raises that of a piece it shares. -/
def raisePriority (cur prio : FilePriority) : FilePriority :=
  match cur, prio with
  | .skip, p => p
  | .low, .normal => .normal
  | .low, .high => .high
  | .normal, .high => .high
  | _, _ => cur

namespace PieceManager

def new (numPieces pieceLength totalSize : ℕ) (hashes : List Hash) : PieceManager where
  numPieces := numPieces
  pieceLength := pieceLength
  totalSize := totalSize
  hashes := hashes
  have_ := List.replicate numPieces false
  inProgress := ∅
  pieceAvailability := List.replicate numPieces 0
  piecePriorities := List.replicate numPieces .normal

def pieceSize (b : Build) (pm : PieceManager) (index : ℕ) : Res ℕ := do
  let last ← b.sub 32 pm.numPieces 1
  if index = last then do
    let remainder ← rem pm.totalSize pm.pieceLength
    return if remainder = 0 then pm.pieceLength else remainder
  else return pm.pieceLength

/-- Raise the priorities of `count` pieces from `first` on. -/
def raiseRange (pp : List FilePriority) (prio : FilePriority) (first : ℕ) :
    ℕ → Res (List FilePriority)
  | 0 => .ok pp
  | count + 1 =>
    match pp[first]? with
    | none => .panic .indexOutOfBounds
    | some cur => raiseRange (pp.set first (raisePriority cur prio)) prio (first + 1) count

/-- One round of the loop of `apply_file_priorities`. -/
def applyFile (b : Build) (pm : PieceManager) (pp : List FilePriority) (fi : FileInfo)
    (prio : FilePriority) : Res (List FilePriority) :=
  if prio = .skip then .ok pp
  else do
    let first ← div fi.offset pm.pieceLength
    let lastByte ← b.add 64 fi.offset fi.length
    let last ← if lastByte = 0 then .ok 0 else div (lastByte - 1) pm.pieceLength
    let limit ← b.sub 32 pm.numPieces 1
    let firstPiece := first % 2 ^ 32
    let lastPiece := min (last % 2 ^ 32) limit
    raiseRange pp prio firstPiece (lastPiece + 1 - firstPiece)

def applyFiles (b : Build) (pm : PieceManager) (pp : List FilePriority) :
    List (FileInfo × FilePriority) → Res (List FilePriority)
  | [] => .ok pp
  | (fi, prio) :: rest => do
    let pp ← applyFile b pm pp fi prio
    applyFiles b pm pp rest

def applyFilePriorities (b : Build) (pm : PieceManager) (files : List FileInfo)
    (filePriorities : List FilePriority) : Res PieceManager := do
  let skipped := List.replicate pm.piecePriorities.length FilePriority.skip
  let pp ← applyFiles b pm skipped (files.zip filePriorities)
  return { pm with piecePriorities := pp }

/-- `avail[index] += 1`, where the index is in range. -/
def bumpAvailability (b : Build) (avail : List ℕ) (index : ℕ) : Res (List ℕ) :=
  match avail[index]? with
  | none => .ok avail
  | some n => do
    let n ← b.add 32 n 1
    return avail.set index n

def markPieceComplete (b : Build) (pm : PieceManager) (index : ℕ) : Res PieceManager :=
  if pm.have_.length ≤ index then .panic .indexOutOfBounds
  else do
    let avail ← bumpAvailability b pm.pieceAvailability index
    return { pm with
      inProgress := pm.inProgress.erase index
      have_ := pm.have_.set index true
      pieceAvailability := avail }

def completedCount (pm : PieceManager) : ℕ := (pm.have_.filter id).length % 2 ^ 32

def isComplete (pm : PieceManager) : Bool :=
  0 < pm.numPieces && pm.completedCount == pm.numPieces

/-- `load_have`: bits beyond the number of pieces are ignored. -/
def loadHave (pm : PieceManager) (bits : List Bool) : PieceManager :=
  { pm with have_ := pm.have_.mapIdx fun i old => bits[i]?.getD old }

/-- `have_piece`. -/
def havePiece (pm : PieceManager) (index : ℕ) : Bool := pm.have_[index]? == some true

variable {b : Build} {pm pm' : PieceManager}

/-- Only the piece priorities follow the file priorities. -/
theorem applyFilePriorities_eq_ok {files : List FileInfo} {prios : List FilePriority}
    (h : pm.applyFilePriorities b files prios = .ok pm') :
    ∃ pp, pm' = { pm with piecePriorities := pp } := by
  unfold applyFilePriorities at h
  simp only [Outcome.bind_eq_ok, Outcome.pure_eq, Outcome.ok.injEq] at h
  obtain ⟨pp, _, rfl⟩ := h
  exact ⟨pp, rfl⟩

theorem markPieceComplete_eq_ok {index : ℕ} (h : pm.markPieceComplete b index = .ok pm') :
    ∃ avail, index < pm.have_.length ∧
      pm' = { pm with
        inProgress := pm.inProgress.erase index
        have_ := pm.have_.set index true
        pieceAvailability := avail } := by
  unfold markPieceComplete at h
  split at h
  · simp at h
  next hlt =>
  simp only [Outcome.bind_eq_ok, Outcome.pure_eq, Outcome.ok.injEq] at h
  obtain ⟨avail, _, rfl⟩ := h
  exact ⟨avail, Nat.lt_of_not_le hlt, rfl⟩

/-- No piece is longer than the piece length. -/
theorem pieceSize_le {index size : ℕ} (hlen : 0 < pm.pieceLength)
    (h : pm.pieceSize b index = .ok size) : size ≤ pm.pieceLength := by
  unfold pieceSize at h
  simp only [Outcome.bind_eq_ok] at h
  obtain ⟨last, _, h⟩ := h
  split at h
  · rw [rem_of_pos hlen] at h
    simp only [Outcome.ok_bind, Outcome.pure_eq, Outcome.ok.injEq] at h
    have hlt := Nat.mod_lt pm.totalSize hlen
    split at h <;> omega
  · exact (Outcome.ok.inj h).ge

end PieceManager

end Retorrent

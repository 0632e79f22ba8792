import Mathlib.Data.List.Sort
import Retorrent.Peer.Bitfield
import Retorrent.Piece

/-!
# Choosing pieces

How a peer loop gets a piece to work on: `select_piece`, `get_endgame_pieces`,
`try_start_piece`, `force_start_piece` and `pick_in_progress_for_peer`.
-/

namespace Retorrent

open Rust

def prioRank : FilePriority → ℕ
  | .high => 0
  | .normal => 1
  | .low => 2
  | .skip => 3

/-- `xs[i]` on a vector. -/
def indexAt {α : Type} (xs : List α) (i : ℕ) : Res α :=
  match xs[i]? with
  | some x => .ok x
  | none => .panic .indexOutOfBounds

/-- A piece that `select_piece` may return. -/
structure Candidate where
  index : ℕ
  avail : ℕ
  prio : FilePriority

namespace PieceManager

/-- What the loop of `select_piece` finds at an index. -/
def candidateAt (pm : PieceManager) (peerBitfield : List UInt8) (i : ℕ) :
    Res (Option Candidate) := do
  let had ← indexAt pm.have_ i
  if had || pm.inProgress.containsKey i then return none
  else do
    let prio ← indexAt pm.piecePriorities i
    if prio = .skip || !bitAt peerBitfield i then return none
    else do
      let avail ← indexAt pm.pieceAvailability i
      return some ⟨i, avail, prio⟩

def candidatesOf (pm : PieceManager) (peerBitfield : List UInt8) : List ℕ → Res (List Candidate)
  | [] => .ok []
  | i :: rest => do
    let candidate ← pm.candidateAt peerBitfield i
    let candidates ← pm.candidatesOf peerBitfield rest
    return candidate.toList ++ candidates

/-- The order in which `select_piece` sorts. -/
def Before (sequential : Bool) (x y : Candidate) : Prop :=
  prioRank x.prio < prioRank y.prio ∨ prioRank x.prio = prioRank y.prio ∧
    if sequential then x.index ≤ y.index else x.avail ≤ y.avail

instance (sequential : Bool) : DecidableRel (Before sequential) :=
  fun _ _ => inferInstanceAs (Decidable (_ ∨ _))

def selectPiece (b : Build) (pm : PieceManager) (peerBitfield : List UInt8) (sequential : Bool) :
    Res (List ℕ) := do
  let candidates ← pm.candidatesOf peerBitfield (List.range pm.numPieces)
  match candidates.insertionSort (Before sequential) with
  | [] => return []
  | best :: rest =>
    if sequential then
      return (((best :: rest).filter fun c => c.prio == best.prio).take 10).map Candidate.index
    else do
      let limit ← b.add 32 best.avail 2
      return (((best :: rest).filter fun c => c.prio == best.prio && c.avail ≤ limit).take
        10).map Candidate.index

/-- The filter of `get_endgame_pieces`. -/
def wantedAt (pm : PieceManager) (i : ℕ) : Res Bool := do
  let had ← indexAt pm.have_ i
  if had then return false
  else do
    let prio ← indexAt pm.piecePriorities i
    return prio != .skip

def endgamePiecesOf (pm : PieceManager) : List ℕ → Res (List ℕ)
  | [] => .ok []
  | i :: rest => do
    let wanted ← pm.wantedAt i
    let pieces ← pm.endgamePiecesOf rest
    return if wanted then i :: pieces else pieces

/-- `get_endgame_pieces`, where `inEndgame` is the comparison of floats that
`is_in_endgame` makes. -/
def getEndgamePieces (inEndgame : PieceManager → Bool) (pm : PieceManager) : Res (List ℕ) :=
  if inEndgame pm then pm.endgamePiecesOf (List.range pm.numPieces) else .ok []

/-- The collector that `try_start_piece` and `force_start_piece` make: its address,
and the manager and the collectors afterwards. -/
def startPiece (b : Build) (index : ℕ) (pm : PieceManager) (heap : Heap) :
    Res (ℕ × PieceManager × Heap) := do
  let pieceSize ← pm.pieceSize b index
  let hash ← indexAt pm.hashes index
  return (heap.length, { pm with inProgress := pm.inProgress.insert index heap.length },
    heap ++ [PieceCollector.new index pieceSize hash])

def tryStartPiece (b : Build) (index : ℕ) (pm : PieceManager) (heap : Heap) :
    Res (Option (ℕ × PieceManager × Heap)) :=
  if pm.inProgress.containsKey index then .ok none
  else do
    let started ← startPiece b index pm heap
    return some started

def forceStartPiece (b : Build) (index : ℕ) (pm : PieceManager) (heap : Heap) :
    Res (ℕ × PieceManager × Heap) :=
  match pm.inProgress.lookup index with
  | some existing => .ok (existing, pm, heap)
  | none => startPiece b index pm heap

/-- One round of the loop of `pick_in_progress_for_peer`. -/
def betterPick (peerBitfield : List UInt8) (heap : Heap) (best : Option (ℕ × ℕ × ℕ))
    (entry : ℕ × ℕ) : Option (ℕ × ℕ × ℕ) :=
  match heap[entry.2]? with
  | some collector =>
    let filled := collector.blocks.len % 2 ^ 32
    if bitAt peerBitfield entry.1 && filled < collector.numBlocks &&
        best.all (fun b => b.2.2 < filled) then
      some (entry.1, entry.2, filled)
    else best
  | none => best

/-- `pick_in_progress_for_peer`, where `order` is the order in which the map of pieces
in progress is walked. -/
def pickInProgressForPeer (peerBitfield : List UInt8) (heap : Heap) (order : List (ℕ × ℕ)) :
    Option (ℕ × ℕ) :=
  (order.foldl (betterPick peerBitfield heap) none).map fun best => (best.1, best.2.1)

def abortPiece (pm : PieceManager) (index : ℕ) : PieceManager :=
  { pm with inProgress := pm.inProgress.erase index }

variable {b : Build} {pm pm' : PieceManager} {heap heap' : Heap} {index a : ℕ}

theorem startPiece_eq_ok (h : startPiece b index pm heap = .ok (a, pm', heap')) :
    ∃ size hash, a = heap.length ∧
      pm' = { pm with inProgress := pm.inProgress.insert index heap.length } ∧
      heap' = heap ++ [PieceCollector.new index size hash] := by
  simp only [startPiece, Outcome.bind_eq_ok, Outcome.pure_eq, Outcome.ok.injEq,
    Prod.mk.injEq] at h
  obtain ⟨size, _, hash, _, rfl, rfl, rfl⟩ := h
  exact ⟨size, hash, rfl, rfl, rfl⟩

/-- Only a piece that is not in progress is started. -/
theorem tryStartPiece_eq_some (h : tryStartPiece b index pm heap = .ok (some (a, pm', heap'))) :
    pm.inProgress.lookup index = none ∧ startPiece b index pm heap = .ok (a, pm', heap') := by
  unfold tryStartPiece at h
  split at h
  · simp at h
  · next hnot =>
    obtain ⟨started, hstarted, heq⟩ := Outcome.bind_eq_ok.mp h
    obtain rfl := Option.some.inj (Outcome.ok.inj heq)
    refine ⟨?_, hstarted⟩
    rw [AList.lookup_eq_none, ← HashMap.containsKey_iff]
    exact hnot

theorem forceStartPiece_eq_ok (h : forceStartPiece b index pm heap = .ok (a, pm', heap')) :
    (pm.inProgress.lookup index = some a ∧ pm' = pm ∧ heap' = heap) ∨
      (pm.inProgress.lookup index = none ∧ startPiece b index pm heap = .ok (a, pm', heap')) := by
  unfold forceStartPiece at h
  split at h
  · next existing hlookup =>
    simp only [Outcome.ok.injEq, Prod.mk.injEq] at h
    obtain ⟨rfl, rfl, rfl⟩ := h
    exact .inl ⟨hlookup, rfl, rfl⟩
  · next hlookup => exact .inr ⟨hlookup, h⟩

/-- A piece that is not in progress is started, also in the endgame. -/
theorem tryStartPiece_of_none (hnone : pm.inProgress.lookup index = none)
    (hstart : startPiece b index pm heap = .ok (a, pm', heap')) :
    tryStartPiece b index pm heap = .ok (some (a, pm', heap')) ∧
      forceStartPiece b index pm heap = .ok (a, pm', heap') := by
  have hnot : ¬ pm.inProgress.containsKey index = true := by
    rw [HashMap.containsKey_iff, ← AList.lookup_eq_none]
    exact hnone
  refine ⟨?_, ?_⟩
  · rw [tryStartPiece, if_neg hnot, hstart]
    rfl
  · rw [forceStartPiece, hnone]
    exact hstart

/-- What `pick_in_progress_for_peer` returns is in progress, announced by the peer,
and counts fewer blocks than it needs. -/
theorem foldl_betterPick {peerBitfield : List UInt8} {order : List (ℕ × ℕ)}
    {best : Option (ℕ × ℕ × ℕ)} {filled : ℕ}
    (h : order.foldl (betterPick peerBitfield heap) best = some (index, a, filled)) :
    best = some (index, a, filled) ∨ (index, a) ∈ order ∧ bitAt peerBitfield index = true ∧
      ∃ c, heap[a]? = some c ∧ c.blocks.len % 2 ^ 32 < c.numBlocks := by
  induction order generalizing best with
  | nil => exact .inl h
  | cons entry order ih =>
    rcases ih h with hbest | ⟨hmem, hpick⟩
    · unfold betterPick at hbest
      split at hbest
      · next c hc =>
        dsimp only at hbest
        split at hbest
        · next hcond =>
          simp only [Bool.and_eq_true, decide_eq_true_eq] at hcond
          obtain ⟨⟨hbit, hfilled⟩, _⟩ := hcond
          simp only [Option.some.injEq, Prod.mk.injEq] at hbest
          obtain ⟨rfl, rfl, _⟩ := hbest
          exact .inr ⟨List.mem_cons_self, hbit, c, hc, hfilled⟩
        · exact .inl hbest
      · exact .inl hbest
    · exact .inr ⟨List.mem_cons_of_mem _ hmem, hpick⟩

theorem pickInProgressForPeer_eq_some {peerBitfield : List UInt8} {order : List (ℕ × ℕ)}
    (h : pickInProgressForPeer peerBitfield heap order = some (index, a)) :
    (index, a) ∈ order ∧ bitAt peerBitfield index = true ∧
      ∃ c, heap[a]? = some c ∧ c.blocks.len % 2 ^ 32 < c.numBlocks := by
  obtain ⟨⟨i, x, filled⟩, hfold, heq⟩ := Option.map_eq_some_iff.mp h
  simp only [Prod.mk.injEq] at heq
  obtain ⟨rfl, rfl⟩ := heq
  rcases foldl_betterPick hfold with hbest | hpick
  · simp at hbest
  · exact hpick

end PieceManager

end Retorrent

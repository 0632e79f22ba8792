import Retorrent.Metainfo.Geometry
import Retorrent.Network.Session
import Retorrent.Piece.Priorities
import Retorrent.Systems.Transition

/-!
# The arithmetic of an open torrent

`TorrentSession::new`, `set_file_priority` and `piece_size` divide by the piece length, subtract
from the number of pieces and add offsets to lengths, which a torrent file gives at will. In a
debug build every overflow is a panic, so a session is safe when these calls return there.
-/

namespace Retorrent

open Rust Systems

/-- A session of a torrent whose files can be made, under calls of `set_file_priority`. -/
def sessions (m : MetaInfo) (downloadDir : List UInt8) (prios : Option (List FilePriority)) :
    System TorrentSession (ℕ × FilePriority) where
  init s := TorrentSession.new .debug (.ok ()) m downloadDir prios = .ok s
  step s e s' := s.setFilePriority .debug e.1 e.2 = .ok s'

/-- No division by zero, overflow or index out of bounds. -/
structure ArithmeticSafe (m : MetaInfo) (prios : Option (List FilePriority)) : Prop where
  opens : ∀ downloadDir, ∃ s, TorrentSession.new .debug (.ok ()) m downloadDir prios = .ok s
  sizes : ∀ downloadDir s, (sessions m downloadDir prios).Reachable System.unguarded s →
    ∀ i < m.numPieces, ∃ size, s.pieceManager.pieceSize .debug i = .ok size
  sets : ∀ downloadDir s, (sessions m downloadDir prios).Reachable System.unguarded s →
    ∀ fileIndex prio, ∃ s', s.setFilePriority .debug fileIndex prio = .ok s'

/-- The number of priorities that a session starts with. -/
def MetaInfo.priorityCount (m : MetaInfo) (prios : Option (List FilePriority)) : ℕ :=
  (prios.getD (List.replicate m.files.length .normal)).length

/-- The pieces have a length, and the files that have a priority stand in pieces and end in the
range of 64 bits. -/
structure MetaInfo.Divided (m : MetaInfo) (n : ℕ) : Prop where
  pieceLength_pos : 0 < m.numPieces → 0 < m.pieceLength
  files : ∀ f ∈ m.files.take n,
    0 < m.pieceLength ∧ 0 < m.numPieces ∧ f.offset + f.length < 2 ^ 64

section Panics

variable {w x y z : ℕ}

theorem pos_of_div (h : (div x y : Res ℕ) = .ok z) : 0 < y := by
  by_contra hzero
  rw [div, if_pos (Nat.eq_zero_of_not_pos hzero)] at h
  cases h

theorem pos_of_rem (h : (rem x y : Res ℕ) = .ok z) : 0 < y := by
  by_contra hzero
  rw [rem, if_pos (Nat.eq_zero_of_not_pos hzero)] at h
  cases h

theorem lt_of_add_debug (h : (Build.debug.add w x y : Res ℕ) = .ok z) : x + y < 2 ^ w := by
  by_contra hge
  rw [Build.add_debug_of_le (Nat.le_of_not_lt hge)] at h
  cases h

theorem le_of_sub_debug (h : (Build.debug.sub w x y : Res ℕ) = .ok z) : y ≤ x := by
  by_contra hlt
  rw [Build.sub, if_neg hlt] at h
  cases h

end Panics

namespace PieceManager

variable {pm : PieceManager} {pp : List FilePriority}

/-- One round of the loop, without any assumption on the file. -/
theorem applyFile_debug_iff (hpp : pp.length = pm.numPieces) (f : FileInfo) (prio : FilePriority) :
    (∃ pp', applyFile .debug pm pp f prio = .ok pp') ↔ (prio ≠ .skip →
      0 < pm.pieceLength ∧ 0 < pm.numPieces ∧ f.offset + f.length < 2 ^ 64) := by
  by_cases hskip : prio = .skip
  · rw [applyFile, if_pos hskip]
    exact iff_of_true ⟨pp, rfl⟩ fun hnot => absurd hskip hnot
  rw [applyFile, if_neg hskip]
  constructor
  · rintro ⟨pp', h⟩ _
    obtain ⟨first, hfirst, h⟩ := Outcome.bind_eq_ok.mp h
    obtain ⟨lastByte, hlastByte, h⟩ := Outcome.bind_eq_ok.mp h
    have hpieces : 0 < pm.numPieces := by
      dsimp only at h
      split at h
      all_goals
        obtain ⟨last, _, h⟩ := Outcome.bind_eq_ok.mp h
        obtain ⟨limit, hlimit, h⟩ := Outcome.bind_eq_ok.mp h
        exact le_of_sub_debug hlimit
    exact ⟨pos_of_div hfirst, hpieces, lt_of_add_debug hlastByte⟩
  · intro h
    obtain ⟨hlen, hpieces, hend⟩ := h hskip
    have hdiv (x : ℕ) : (div x pm.pieceLength : Res ℕ) = .ok (x / pm.pieceLength) :=
      if_neg hlen.ne'
    have hlimit : (Build.debug.sub 32 pm.numPieces 1 : Res ℕ) = .ok (pm.numPieces - 1) :=
      Build.sub_of_le .debug hpieces
    have hrange (first last : ℕ) : ∃ pp', raiseRange pp prio (first % 2 ^ 32)
        (min (last % 2 ^ 32) (pm.numPieces - 1) + 1 - first % 2 ^ 32) = .ok pp' := by
      by_cases hin : first % 2 ^ 32 ≤ min (last % 2 ^ 32) (pm.numPieces - 1)
      · have hmin : min (last % 2 ^ 32) (pm.numPieces - 1) ≤ pm.numPieces - 1 :=
          min_le_right _ _
        exact ⟨_, raiseRange_eq prio (by omega)⟩
      · rw [Nat.sub_eq_zero_of_le (Nat.lt_of_not_le hin)]
        exact ⟨pp, rfl⟩
    rw [hdiv, Outcome.ok_bind, Build.add_of_lt .debug hend, Outcome.ok_bind]
    dsimp only
    split
    · rw [Outcome.ok_bind, hlimit, Outcome.ok_bind]
      exact hrange _ _
    · rw [hdiv, Outcome.ok_bind, hlimit, Outcome.ok_bind]
      exact hrange _ _

/-- The loop ends when every round does. -/
theorem applyFiles_debug_iff {files : List (FileInfo × FilePriority)}
    (hpp : pp.length = pm.numPieces) :
    (∃ pp', applyFiles .debug pm pp files = .ok pp') ↔ ∀ file ∈ files, file.2 ≠ .skip →
      0 < pm.pieceLength ∧ 0 < pm.numPieces ∧ file.1.offset + file.1.length < 2 ^ 64 := by
  induction files generalizing pp with
  | nil => exact iff_of_true ⟨pp, rfl⟩ (by simp)
  | cons file files ih =>
    rw [List.forall_mem_cons, ← applyFile_debug_iff hpp]
    constructor
    · rintro ⟨pp', h⟩
      obtain ⟨mid, hmid, hrest⟩ := Outcome.bind_eq_ok.mp h
      exact ⟨⟨mid, hmid⟩, (ih ((length_applyFile hmid).trans hpp)).mp ⟨pp', hrest⟩⟩
    · rintro ⟨⟨mid, hmid⟩, hrest⟩
      obtain ⟨pp', hpp'⟩ := (ih ((length_applyFile hmid).trans hpp)).mpr hrest
      refine ⟨pp', ?_⟩
      rw [applyFiles, hmid, Outcome.ok_bind, hpp']

theorem applyFilePriorities_debug_iff {files : List FileInfo} {prios : List FilePriority}
    (hpm : pm.piecePriorities.length = pm.numPieces) :
    (∃ pm', pm.applyFilePriorities .debug files prios = .ok pm') ↔
      ∀ file ∈ files.zip prios, file.2 ≠ .skip →
        0 < pm.pieceLength ∧ 0 < pm.numPieces ∧ file.1.offset + file.1.length < 2 ^ 64 := by
  rw [applyFilePriorities,
    ← applyFiles_debug_iff (List.length_replicate.trans hpm)]
  constructor
  · rintro ⟨pm', h⟩
    obtain ⟨pp, hpp, _⟩ := Outcome.bind_eq_ok.mp h
    exact ⟨pp, hpp⟩
  · rintro ⟨pp, hpp⟩
    rw [hpp]
    exact ⟨_, rfl⟩

end PieceManager

section Zip

variable {files : List FileInfo} {prios : List FilePriority} {f : FileInfo} {prio : FilePriority}

/-- A list of priorities reaches as many files as it is long. -/
theorem mem_take_of_mem_zip (h : (f, prio) ∈ files.zip prios) : f ∈ files.take prios.length := by
  obtain ⟨k, hk⟩ := List.mem_iff_getElem?.mp h
  obtain ⟨hf, hprio⟩ := List.getElem?_zip_eq_some.mp hk
  have hlt : k < prios.length := (List.getElem?_eq_some_iff.mp hprio).1
  refine List.mem_iff_getElem?.mpr ⟨k, ?_⟩
  rw [List.getElem?_take_of_lt hlt]
  exact hf

/-- The priority of each of them can be set. -/
theorem exists_mem_zip_set (h : f ∈ files.take prios.length) (prio : FilePriority) :
    ∃ k < prios.length, (f, prio) ∈ files.zip (prios.set k prio) := by
  obtain ⟨k, hk⟩ := List.mem_iff_getElem?.mp h
  have hlt : k < prios.length := by
    have := (List.getElem?_eq_some_iff.mp hk).1
    rw [List.length_take] at this
    omega
  rw [List.getElem?_take_of_lt hlt] at hk
  refine ⟨k, hlt, List.mem_iff_getElem?.mpr ⟨k, ?_⟩⟩
  rw [List.getElem?_zip_eq_some]
  exact ⟨hk, List.getElem?_set_self hlt⟩

end Zip

/-- What calls of `set_file_priority` leave as it is. -/
structure SessionInv (m : MetaInfo) (n : ℕ) (s : TorrentSession) : Prop where
  metaInfo : s.metaInfo = m
  numPieces : s.pieceManager.numPieces = m.numPieces
  pieceLength : s.pieceManager.pieceLength = m.pieceLength
  piecePriorities : s.pieceManager.piecePriorities.length = m.numPieces
  filePriorities : s.filePriorities.length = n

variable {m : MetaInfo} {n : ℕ} {s s' : TorrentSession} {prios : Option (List FilePriority)}
  {downloadDir : List UInt8}

theorem sessionInv_new
    (h : TorrentSession.new .debug (.ok ()) m downloadDir prios = .ok s) :
    SessionInv m (m.priorityCount prios) s := by
  obtain ⟨storage, _, h⟩ := Outcome.bind_eq_ok.mp h
  obtain ⟨pm, hpm, h⟩ := Outcome.bind_eq_ok.mp h
  obtain rfl := Outcome.ok.inj h
  have hindexed := (PieceManager.indexed_new m.numPieces m.pieceLength m.totalSize
    m.pieces).applyFilePriorities hpm
  obtain ⟨pp, rfl⟩ := PieceManager.applyFilePriorities_eq_ok hpm
  exact ⟨rfl, rfl, rfl, hindexed.priorities, rfl⟩

/-- A call returns when every file whose priority is not `Skip` then can be placed. -/
theorem SessionInv.setFilePriority_iff (h : SessionInv m n s) (k : ℕ) (prio : FilePriority) :
    (∃ s', s.setFilePriority .debug k prio = .ok s') ↔ (k < n →
      ∀ file ∈ m.files.zip (s.filePriorities.set k prio), file.2 ≠ .skip →
        0 < m.pieceLength ∧ 0 < m.numPieces ∧ file.1.offset + file.1.length < 2 ^ 64) := by
  have hlen : s.pieceManager.piecePriorities.length = s.pieceManager.numPieces :=
    h.piecePriorities.trans h.numPieces.symm
  rw [TorrentSession.setFilePriority, h.filePriorities]
  by_cases hk : k < n
  · have hiff := @PieceManager.applyFilePriorities_debug_iff s.pieceManager s.metaInfo.files
      (s.filePriorities.set k prio) hlen
    rw [h.metaInfo, h.pieceLength, h.numPieces] at hiff
    rw [if_pos hk, h.metaInfo, forall_prop_of_true hk, ← hiff]
    constructor
    · rintro ⟨s', hs'⟩
      obtain ⟨pm, hpm, _⟩ := Outcome.bind_eq_ok.mp hs'
      exact ⟨pm, hpm⟩
    · rintro ⟨pm, hpm⟩
      dsimp only
      rw [hpm]
      exact ⟨_, rfl⟩
  · rw [if_neg hk]
    exact iff_of_true ⟨s, rfl⟩ fun hlt => absurd hlt hk

theorem SessionInv.setFilePriority (h : SessionInv m n s) {k : ℕ} {prio : FilePriority}
    (hset : s.setFilePriority .debug k prio = .ok s') : SessionInv m n s' := by
  rw [TorrentSession.setFilePriority] at hset
  split at hset
  · obtain ⟨pm, hpm, hset⟩ := Outcome.bind_eq_ok.mp hset
    obtain rfl := Outcome.ok.inj hset
    obtain ⟨pp, hpp, heq⟩ := Outcome.bind_eq_ok.mp hpm
    obtain rfl := Outcome.ok.inj heq
    refine ⟨h.metaInfo, h.numPieces, h.pieceLength, ?_, ?_⟩
    · rw [PieceManager.length_applyFiles hpp, List.length_replicate]
      exact h.piecePriorities
    · exact List.length_set.trans h.filePriorities
  · obtain rfl := Outcome.ok.inj hset
    exact h

theorem sessionInv_invariant (m : MetaInfo) (downloadDir : List UInt8)
    (prios : Option (List FilePriority)) :
    (sessions m downloadDir prios).Invariant System.unguarded
      (SessionInv m (m.priorityCount prios)) where
  init := fun _ hinit => sessionInv_new hinit
  step := fun _ _ _ hinv _ hstep => hinv.setFilePriority hstep

/-- The session opens when every file whose priority is not `Skip` can be placed. -/
theorem new_debug_iff (m : MetaInfo) (downloadDir : List UInt8)
    (prios : Option (List FilePriority)) :
    (∃ s, TorrentSession.new .debug (.ok ()) m downloadDir prios = .ok s) ↔
      ∀ file ∈ m.files.zip (prios.getD (List.replicate m.files.length .normal)),
        file.2 ≠ .skip →
        0 < m.pieceLength ∧ 0 < m.numPieces ∧ file.1.offset + file.1.length < 2 ^ 64 := by
  have hiff := @PieceManager.applyFilePriorities_debug_iff
    (.new m.numPieces m.pieceLength m.totalSize m.pieces) m.files
    (prios.getD (List.replicate m.files.length .normal)) List.length_replicate
  refine Iff.trans ?_ hiff
  constructor
  · rintro ⟨s, h⟩
    obtain ⟨storage, _, h⟩ := Outcome.bind_eq_ok.mp h
    obtain ⟨pm, hpm, _⟩ := Outcome.bind_eq_ok.mp h
    exact ⟨pm, hpm⟩
  · rintro ⟨pm, hpm⟩
    rw [TorrentSession.new, DiskStorage.new, Outcome.ok_bind, hpm]
    exact ⟨_, rfl⟩

/-- The size of the last piece is found by a division. -/
theorem pieceSize_debug_iff (pm : PieceManager) :
    (∀ i < pm.numPieces, ∃ size, pm.pieceSize .debug i = .ok size) ↔
      (0 < pm.numPieces → 0 < pm.pieceLength) := by
  constructor
  · intro hall hpos
    obtain ⟨size, hsize⟩ := hall (pm.numPieces - 1) (by omega)
    rw [PieceManager.pieceSize, Build.sub_of_le .debug hpos, Outcome.ok_bind, if_pos rfl] at hsize
    obtain ⟨remainder, hrem, _⟩ := Outcome.bind_eq_ok.mp hsize
    exact pos_of_rem hrem
  · intro hpos i hi
    have hlen := hpos (by omega)
    rw [PieceManager.pieceSize, Build.sub_of_le .debug (by omega), Outcome.ok_bind,
      rem_of_pos hlen]
    split
    · exact ⟨_, rfl⟩
    · exact ⟨_, rfl⟩

/-- The arithmetic is safe exactly for a torrent that can be divided into its pieces. -/
theorem arithmeticSafe_iff (m : MetaInfo) (prios : Option (List FilePriority)) :
    ArithmeticSafe m prios ↔ m.Divided (m.priorityCount prios) := by
  constructor
  · intro h
    obtain ⟨s, hs⟩ := h.opens []
    have hreach : (sessions m [] prios).Reachable System.unguarded s := .init hs
    have hinv := sessionInv_new hs
    refine ⟨?_, fun f hf => ?_⟩
    · rw [← hinv.numPieces, ← hinv.pieceLength, ← pieceSize_debug_iff, hinv.numPieces]
      exact h.sizes [] s hreach
    · rw [← hinv.filePriorities] at hf
      obtain ⟨k, hk, hmem⟩ := exists_mem_zip_set hf .high
      have hset := (hinv.setFilePriority_iff k .high).mp (h.sets [] s hreach k .high)
      exact hset (hinv.filePriorities ▸ hk) _ hmem (by simp)
  · intro h
    refine ⟨fun downloadDir => ?_, fun downloadDir s hs => ?_, fun downloadDir s hs k prio => ?_⟩
    · rw [new_debug_iff]
      intro file hfile _
      exact h.files _ (mem_take_of_mem_zip hfile)
    · have hinv := (sessionInv_invariant m downloadDir prios).reachable hs
      rw [← hinv.numPieces, pieceSize_debug_iff, hinv.numPieces, hinv.pieceLength]
      exact h.pieceLength_pos
    · have hinv := (sessionInv_invariant m downloadDir prios).reachable hs
      rw [hinv.setFilePriority_iff]
      intro _ file hfile _
      have hmem := mem_take_of_mem_zip hfile
      rw [List.length_set, hinv.filePriorities] at hmem
      exact h.files _ hmem

/-- A torrent without pieces does not open. -/
theorem piecelessTorrent_not_arithmeticSafe :
    ∃ m, MetaInfo.fromBytes (fun _ => piecelessHash) .debug piecelessTorrent = .ok m ∧
      ¬ ArithmeticSafe m none := by
  have hok : (MetaInfo.fromBytes (fun _ => piecelessHash) .debug piecelessTorrent).isOkAnd
      (fun m => (TorrentSession.new .debug (.ok ()) m [] none).isOkAnd (fun _ => true) = false) =
      true := by
    decide +kernel
  obtain ⟨m, hm, hpanics⟩ := Outcome.isOkAnd_iff.mp hok
  refine ⟨m, hm, fun hsafe => ?_⟩
  obtain ⟨s, hs⟩ := hsafe.opens []
  rw [hs] at hpanics
  simp [Outcome.isOkAnd] at hpanics

end Retorrent

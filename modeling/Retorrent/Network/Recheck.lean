import Retorrent.Network.Session
import Retorrent.Network.Torrent
import Retorrent.Storage.Mapped

/-!
# Checking the pieces again

`recheck` reads one piece after the other with `read_piece`, which looks into its cache first. What
was read before a file was changed is hashed in place of what is on disk now, unless other pieces
have driven it out of the cache before its turn comes.
-/

namespace Retorrent

open Rust

namespace PieceManager

/-- `mark_piece_complete`, with what it leaves when it panics. -/
def completePiece (b : Build) (pm : PieceManager) (i : ℕ) : PieceManager × Res Unit :=
  let pm := { pm with inProgress := pm.inProgress.erase i }
  if pm.have_.length ≤ i then (pm, .panic .indexOutOfBounds)
  else
    let pm := { pm with have_ := pm.have_.set i true }
    match bumpAvailability b pm.pieceAvailability i with
    | .ok avail => ({ pm with pieceAvailability := avail }, .ok ())
    | .err e => (pm, .err e)
    | .panic c => (pm, .panic c)
    | .hang => (pm, .hang)

/-- What `recheck` does with a piece that it does not find. -/
def resetPiece (pm : PieceManager) (i : ℕ) : PieceManager :=
  { pm.clearHave i with inProgress := pm.inProgress.erase i }

end PieceManager

/-- What the blocking task of `recheck` works on. -/
structure Checking where
  pm : PieceManager
  cache : ReadCache

namespace Checking

variable (sha1 : List UInt8 → Hash) (b : Build) (storage : DiskStorage) (disk : Disk)

/-- The body of the loop, with what it leaves when it panics. -/
def piece (s : Checking) (i : ℕ) : Checking × Res Unit :=
  match s.pm.pieceSize b i with
  | .ok size =>
    let (read, cache) := storage.readPiece b i size disk s.cache
    match read with
    | .ok data =>
      match s.pm.hashes[i]? with
      | some hash =>
        if sha1 data = hash then
          let (pm, ended) := s.pm.completePiece b i
          (⟨pm, cache⟩, ended)
        else (⟨s.pm.resetPiece i, cache⟩, .ok ())
      | none => (⟨s.pm, cache⟩, .panic .indexOutOfBounds)
    | .err _ => (⟨s.pm.resetPiece i, cache⟩, .ok ())
    | .panic c => (⟨s.pm, cache⟩, .panic c)
    | .hang => (⟨s.pm, cache⟩, .hang)
  | .err e => (s, .err e)
  | .panic c => (s, .panic c)
  | .hang => (s, .hang)

/-- The loop over `count` pieces from `i` on. -/
def run : ℕ → ℕ → Checking → Checking × Res Unit
  | 0, _, s => (s, .ok ())
  | count + 1, i, s =>
    match s.piece sha1 b storage disk i with
    | (s, .ok ()) => run count (i + 1) s
    | ended => ended

end Checking

/-- `recheck` at the time `now`, when nothing else uses the torrent. -/
def TorrentSession.recheck (sha1 : List UInt8 → Hash) (b : Build) (disk : Disk) (now : ℤ)
    (s : TorrentSession) (cache : ReadCache) : Res (TorrentSession × ReadCache) :=
  if s.metaInfo.numPieces = 0 then .ok (s, cache)
  else
    let s := { s with state := .checking }
    let (checked, ended) := Checking.run sha1 b s.storage disk s.pieceManager.numPieces 0
      ⟨s.pieceManager, cache⟩
    match ended with
    | .panic .busError => .panic .busError
    -- another panic ends the blocking task, and the error of joining it is dropped
    | _ =>
      let s := { s with
        pieceManager := checked.pm
        state := if checked.pm.isComplete then .seeding
          else if s.paused then .paused
          else .downloading }
      .ok ((s.snapshotResume now).1, checked.cache)

namespace PieceManager

variable (sha1 : List UInt8 → Hash) (b : Build) (storage : DiskStorage) (disk : Disk)

/-- The bytes of the piece are in the files, and have its hash. -/
def Intact (pm : PieceManager) (i : ℕ) : Prop :=
  ∃ size data, pm.pieceSize b i = .ok size ∧ storage.seekPiece b i size disk = .ok data ∧
    pm.hashes[i]? = some (sha1 data)

/-- Not all bytes of the piece are in the files, but with the zeros of a map it has its hash. -/
def ZeroFilled (pm : PieceManager) (i : ℕ) : Prop :=
  ∃ size data, pm.pieceSize b i = .ok size ∧
    storage.readPieceUncached b i size disk = .ok data ∧ pm.hashes[i]? = some (sha1 data) ∧
      ∀ data', storage.seekPiece b i size disk ≠ .ok data'

end PieceManager

namespace Checking

variable (sha1 : List UInt8 → Hash) (b : Build) (storage : DiskStorage) (disk : Disk)

/-- What `read_piece` returns has the hash of the piece. -/
def Finds (s : Checking) (i : ℕ) : Prop :=
  ∃ size data, s.pm.pieceSize b i = .ok size ∧
    (storage.readPiece b i size disk s.cache).1 = .ok data ∧ s.pm.hashes[i]? = some (sha1 data)

/-- When the loop comes to the piece, the cache is right about it, or has no entry for it and no map
hides that a file is too short. -/
def Agrees (s : Checking) (i : ℕ) : Prop :=
  match (s.cache.get i).1 with
  | some data => s.pm.hashes[i]? = some (sha1 data) ↔ s.pm.Intact sha1 b storage disk i
  | none => ¬ s.pm.ZeroFilled sha1 b storage disk i

/-- The have vector is right about the pieces from the `i`-th on, if that one counts as soon as it
is found. -/
def RightFrom (count i : ℕ) (s : Checking) : Prop :=
  ∀ k, i ≤ k → k < i + count →
    (s.pm.havePiece k = true ∨
        k = i ∧ s.Finds sha1 b storage disk i ∧ i < s.pm.have_.length ↔
      s.pm.Intact sha1 b storage disk k)

/-- The cache agrees with the disk about every piece when its turn comes. Where a panic ends the
loop, the have vector was right about the rest. -/
def Trusted : ℕ → ℕ → Checking → Prop
  | 0, _, _ => True
  | count + 1, i, s =>
    match s.piece sha1 b storage disk i with
    | (s', .ok ()) => s.Agrees sha1 b storage disk i ∧ Trusted count (i + 1) s'
    | _ => s.RightFrom sha1 b storage disk (count + 1) i

end Checking

section Layout

/-- The piece managers are of one torrent. -/
structure PieceManager.SameLayout (pm pm' : PieceManager) : Prop where
  numPieces : pm'.numPieces = pm.numPieces
  pieceLength : pm'.pieceLength = pm.pieceLength
  totalSize : pm'.totalSize = pm.totalSize
  hashes : pm'.hashes = pm.hashes

namespace PieceManager

variable {sha1 : List UInt8 → Hash} {b : Build} {storage : DiskStorage} {disk : Disk}
  {pm pm' pm'' : PieceManager} {i k : ℕ}

theorem SameLayout.refl (pm : PieceManager) : pm.SameLayout pm := ⟨rfl, rfl, rfl, rfl⟩

theorem SameLayout.trans (h : pm.SameLayout pm') (h' : pm'.SameLayout pm'') :
    pm.SameLayout pm'' where
  numPieces := h'.numPieces.trans h.numPieces
  pieceLength := h'.pieceLength.trans h.pieceLength
  totalSize := h'.totalSize.trans h.totalSize
  hashes := h'.hashes.trans h.hashes

theorem SameLayout.pieceSize_eq (h : pm.SameLayout pm') (b : Build) (i : ℕ) :
    pm'.pieceSize b i = pm.pieceSize b i := by
  rw [pieceSize, pieceSize, h.numPieces, h.pieceLength, h.totalSize]

theorem SameLayout.intact_iff (h : pm.SameLayout pm') :
    pm'.Intact sha1 b storage disk i ↔ pm.Intact sha1 b storage disk i := by
  rw [Intact, Intact, h.pieceSize_eq, h.hashes]

theorem SameLayout.zeroFilled_iff (h : pm.SameLayout pm') :
    pm'.ZeroFilled sha1 b storage disk i ↔ pm.ZeroFilled sha1 b storage disk i := by
  rw [ZeroFilled, ZeroFilled, h.pieceSize_eq, h.hashes]

/-- Completing a piece concerns that piece. -/
theorem sameLayout_completePiece (pm : PieceManager) (i : ℕ) :
    pm.SameLayout (pm.completePiece b i).1 := by
  unfold completePiece
  dsimp only
  split
  · exact ⟨rfl, rfl, rfl, rfl⟩
  · split <;> exact ⟨rfl, rfl, rfl, rfl⟩

theorem have_completePiece (pm : PieceManager) (i : ℕ) :
    (pm.completePiece b i).1.have_ = pm.have_.set i true := by
  unfold completePiece
  dsimp only
  split
  · next hle => exact (List.set_eq_of_length_le hle).symm
  · split <;> rfl

/-- A piece that has been completed is there. -/
theorem havePiece_completePiece (h : (pm.completePiece b i).2 = .ok ()) :
    (pm.completePiece b i).1.havePiece i = true := by
  have hlt : i < pm.have_.length := by
    by_contra hle
    rw [completePiece, if_pos (not_lt.mp hle)] at h
    cases h
  rw [havePiece, have_completePiece, List.getElem?_set_self hlt]
  rfl

theorem getElem?_set_other (hne : k ≠ i) {x : Bool} :
    ((pm.have_.set i x)[k]? == some true) = pm.havePiece k := by
  rw [List.getElem?_set_ne hne.symm]
  rfl

theorem havePiece_resetPiece : (pm.resetPiece i).havePiece i = false := by
  show ((pm.have_.set i false)[i]? == some true) = false
  by_cases hlt : i < pm.have_.length
  · rw [List.getElem?_set_self hlt]
    rfl
  · rw [List.getElem?_eq_none (by rw [List.length_set]; omega)]
    rfl

end PieceManager

end Layout

namespace Checking

variable {sha1 : List UInt8 → Hash} {b : Build} {storage : DiskStorage} {disk : Disk}
  {s s' : Checking} {i k count : ℕ}

variable (sha1 b storage disk) in
/-- The three things that the body of the loop does to the pieces: it panics before it gets to
them, completes the piece, or resets it. -/
theorem piece_cases (s : Checking) (i : ℕ) :
    (¬ s.Finds sha1 b storage disk i ∧ (s.piece sha1 b storage disk i).1.pm = s.pm ∧
      (s.piece sha1 b storage disk i).2 ≠ .ok ()) ∨
    (s.Finds sha1 b storage disk i ∧
      (s.piece sha1 b storage disk i).1.pm = (s.pm.completePiece b i).1 ∧
      (s.piece sha1 b storage disk i).2 = (s.pm.completePiece b i).2) ∨
    (¬ s.Finds sha1 b storage disk i ∧ (∃ size, s.pm.pieceSize b i = .ok size) ∧
      (s.piece sha1 b storage disk i).1.pm = s.pm.resetPiece i ∧
      (s.piece sha1 b storage disk i).2 = .ok ()) := by
  unfold piece
  cases hsize : s.pm.pieceSize b i with
  | ok size =>
    have hfinds : s.Finds sha1 b storage disk i ↔
        ∃ data, (storage.readPiece b i size disk s.cache).1 = .ok data ∧
          s.pm.hashes[i]? = some (sha1 data) := by
      constructor
      · rintro ⟨size', data, hsize', hread, hhash⟩
        obtain rfl := Outcome.ok.inj (hsize.symm.trans hsize')
        exact ⟨data, hread, hhash⟩
      · rintro ⟨data, hread, hhash⟩
        exact ⟨size, data, hsize, hread, hhash⟩
    rw [hfinds]
    cases hread : storage.readPiece b i size disk s.cache with
    | mk read cache =>
      cases read with
      | ok data =>
        cases hhash : s.pm.hashes[i]? with
        | none => exact .inl ⟨by simp, by simp only [hread], by simp [hread]⟩
        | some hash =>
          by_cases heq : sha1 data = hash
          · refine .inr (.inl ⟨⟨data, rfl, by rw [heq]⟩, ?_, ?_⟩)
            · simp only [hread, if_pos heq]
            · simp only [hread, if_pos heq]
          · refine .inr (.inr ⟨?_, ⟨size, rfl⟩, ?_, ?_⟩)
            · rintro ⟨data', hread', hhash'⟩
              obtain rfl := Outcome.ok.inj hread'
              exact heq (Option.some.inj hhash').symm
            · simp only [hread, if_neg heq]
            · simp only [hread, if_neg heq]
      | err e =>
        exact .inr (.inr ⟨by simp, ⟨size, rfl⟩, by simp only [hread], by simp only [hread]⟩)
      | panic c => exact .inl ⟨by simp, by simp only [hread], by simp [hread]⟩
      | hang => exact .inl ⟨by simp, by simp only [hread], by simp [hread]⟩
  | err _ | panic _ | hang =>
    refine .inl ⟨?_, rfl, by simp⟩
    rintro ⟨size, data, hsize', _⟩
    rw [hsize] at hsize'
    cases hsize'

variable (sha1 b storage disk) in
/-- The body of the loop leaves the layout and the other pieces alone. -/
theorem sameLayout_piece (s : Checking) (i : ℕ) :
    s.pm.SameLayout (s.piece sha1 b storage disk i).1.pm := by
  obtain ⟨_, hpm, _⟩ | ⟨_, hpm, _⟩ | ⟨_, _, hpm, _⟩ := s.piece_cases sha1 b storage disk i
  · rw [hpm]
    exact .refl s.pm
  · rw [hpm]
    exact s.pm.sameLayout_completePiece i
  · rw [hpm]
    exact ⟨rfl, rfl, rfl, rfl⟩

variable (sha1 b storage disk) in
theorem havePiece_piece_of_ne (s : Checking) (hne : k ≠ i) :
    (s.piece sha1 b storage disk i).1.pm.havePiece k = s.pm.havePiece k := by
  obtain ⟨_, hpm, _⟩ | ⟨_, hpm, _⟩ | ⟨_, _, hpm, _⟩ := s.piece_cases sha1 b storage disk i
  · rw [hpm]
  · rw [hpm, PieceManager.havePiece, PieceManager.have_completePiece]
    exact PieceManager.getElem?_set_other hne
  · rw [hpm]
    exact PieceManager.getElem?_set_other hne

theorem sameLayout_run (count i : ℕ) (s : Checking) :
    s.pm.SameLayout (run sha1 b storage disk count i s).1.pm := by
  induction count generalizing i s with
  | zero => exact .refl s.pm
  | succ count ih =>
    have hpiece := s.sameLayout_piece sha1 b storage disk i
    rw [run]
    split
    · next s' heq =>
      rw [heq] at hpiece
      exact hpiece.trans (ih (i + 1) s')
    · exact hpiece

theorem havePiece_run_of_lt (hlt : k < i) :
    (run sha1 b storage disk count i s).1.pm.havePiece k = s.pm.havePiece k := by
  induction count generalizing i s with
  | zero => rfl
  | succ count ih =>
    have hpiece := havePiece_piece_of_ne sha1 b storage disk s hlt.ne
    rw [run]
    split
    · next s' heq =>
      rw [heq] at hpiece
      exact (ih (by omega)).trans hpiece
    · exact hpiece

/-- After the body has run to its end, the have vector says what it found. -/
theorem havePiece_piece (h : (s.piece sha1 b storage disk i).2 = .ok ()) :
    (s.piece sha1 b storage disk i).1.pm.havePiece i = true ↔ s.Finds sha1 b storage disk i := by
  obtain ⟨_, _, hended⟩ | ⟨hfinds, hpm, hended⟩ | ⟨hfinds, _, hpm, _⟩ :=
    s.piece_cases sha1 b storage disk i
  · exact absurd h hended
  · rw [hpm]
    exact iff_of_true (PieceManager.havePiece_completePiece (hended.symm.trans h)) hfinds
  · rw [hpm, PieceManager.havePiece_resetPiece]
    exact iff_of_false Bool.false_ne_true hfinds

/-- A body that panics has entered the piece at most when it was found. -/
theorem havePiece_piece_of_ne_ok (h : (s.piece sha1 b storage disk i).2 ≠ .ok ()) :
    (s.piece sha1 b storage disk i).1.pm.havePiece k = true ↔
      s.pm.havePiece k = true ∨ k = i ∧ s.Finds sha1 b storage disk i ∧ i < s.pm.have_.length := by
  by_cases hne : k = i
  · subst hne
    obtain ⟨hfinds, hpm, _⟩ | ⟨hfinds, hpm, _⟩ | ⟨_, _, _, hended⟩ :=
      s.piece_cases sha1 b storage disk k
    · rw [hpm]
      simp [hfinds]
    · rw [hpm, PieceManager.havePiece, PieceManager.have_completePiece]
      by_cases hlt : k < s.pm.have_.length
      · simp [hlt, hfinds]
      · rw [List.set_eq_of_length_le (not_lt.mp hlt)]
        simp [hlt, PieceManager.havePiece]
    · exact absurd hended h
  · rw [havePiece_piece_of_ne sha1 b storage disk s hne]
    simp [hne]

/-- Where no map hides that a file is too short, bytes read from the files have the hash of the
piece exactly when the piece is intact. -/
theorem hash_iff_intact {size : ℕ} {data : List UInt8} {pm : PieceManager}
    (hfilled : ¬ pm.ZeroFilled sha1 b storage disk i) (hsize : pm.pieceSize b i = .ok size)
    (hread : storage.readPieceUncached b i size disk = .ok data) :
    pm.hashes[i]? = some (sha1 data) ↔ pm.Intact sha1 b storage disk i := by
  constructor
  · intro hhash
    by_contra hbroken
    refine hfilled ⟨size, data, hsize, hread, hhash, fun data' hseek => ?_⟩
    obtain rfl := Outcome.ok.inj (hread.symm.trans (readPieceUncached_of_seekPiece hseek))
    exact hbroken ⟨size, data, hsize, hseek, hhash⟩
  · rintro ⟨size', data', hsize', hseek, hhash⟩
    obtain rfl := Outcome.ok.inj (hsize.symm.trans hsize')
    obtain rfl := Outcome.ok.inj (hread.symm.trans (readPieceUncached_of_seekPiece hseek))
    exact hhash

/-- What is found is what is on disk exactly when the cache agrees. -/
theorem finds_iff_intact_iff {size : ℕ} (hsize : s.pm.pieceSize b i = .ok size) :
    (s.Finds sha1 b storage disk i ↔ s.pm.Intact sha1 b storage disk i) ↔
      s.Agrees sha1 b storage disk i := by
  rw [Agrees]
  cases hget : s.cache.get i with
  | mk cached cache =>
    cases cached with
    | some data =>
      have hread : (storage.readPiece b i size disk s.cache).1 = .ok data := by
        rw [DiskStorage.readPiece, hget]
      have hfinds : s.Finds sha1 b storage disk i ↔ s.pm.hashes[i]? = some (sha1 data) := by
        constructor
        · rintro ⟨size', data', hsize', hread', hhash⟩
          obtain rfl := Outcome.ok.inj (hsize.symm.trans hsize')
          obtain rfl := Outcome.ok.inj (hread.symm.trans hread')
          exact hhash
        · exact fun hhash => ⟨size, data, hsize, hread, hhash⟩
      rw [hfinds]
    | none =>
      have hread {data : List UInt8} : (storage.readPiece b i size disk s.cache).1 = .ok data ↔
          storage.readPieceUncached b i size disk = .ok data := by
        rw [DiskStorage.readPiece, hget]
        cases storage.readPieceUncached b i size disk <;> rfl
      constructor
      · rintro hiff ⟨size', data, hsize', huncached, hhash, hnone⟩
        obtain rfl := Outcome.ok.inj (hsize.symm.trans hsize')
        obtain ⟨size', data', hsize', hseek, _⟩ :=
          hiff.mp ⟨size, data, hsize, hread.mpr huncached, hhash⟩
        obtain rfl := Outcome.ok.inj (hsize.symm.trans hsize')
        exact hnone data' hseek
      · intro hfilled
        constructor
        · rintro ⟨size', data, hsize', hfound, hhash⟩
          obtain rfl := Outcome.ok.inj (hsize.symm.trans hsize')
          exact (hash_iff_intact hfilled hsize (hread.mp hfound)).mp hhash
        · rintro ⟨size', data, hsize', hseek, hhash⟩
          obtain rfl := Outcome.ok.inj (hsize.symm.trans hsize')
          exact ⟨size, data, hsize, hread.mpr (readPieceUncached_of_seekPiece hseek), hhash⟩

/-- The body knows the size of the piece if it runs to its end. -/
theorem pieceSize_of_piece (h : (s.piece sha1 b storage disk i).2 = .ok ()) :
    ∃ size, s.pm.pieceSize b i = .ok size := by
  obtain ⟨_, _, hended⟩ | ⟨⟨size, _, hsize, _⟩, _⟩ | ⟨_, hsize, _⟩ :=
    s.piece_cases sha1 b storage disk i
  · exact absurd h hended
  · exact ⟨size, hsize⟩
  · exact hsize

/-- A read of a piece adds nothing else to the cache. -/
theorem all_readPiece {good : ℕ → List UInt8 → Prop} {cache : ReadCache} (h : cache.All good)
    {size : ℕ} (hread : ∀ data, storage.readPieceUncached b i size disk = .ok data → good i data) :
    (storage.readPiece b i size disk cache).2.All good := by
  have hcache := h.get i
  rw [DiskStorage.readPiece]
  cases hget : cache.get i with
  | mk cached cache =>
    rw [hget] at hcache
    cases cached with
    | some data => exact hcache
    | none =>
      cases huncached : storage.readPieceUncached b i size disk with
      | ok data => exact hcache.put (hread data huncached)
      | _ => exact hcache

variable (sha1) in
/-- The cache of the body is the one that `read_piece` leaves. -/
theorem cache_piece {size : ℕ} (hsize : s.pm.pieceSize b i = .ok size) :
    (s.piece sha1 b storage disk i).1.cache =
      (storage.readPiece b i size disk s.cache).2 := by
  rw [piece, hsize]
  cases hread : storage.readPiece b i size disk s.cache with
  | mk read cache =>
    cases read with
    | ok data =>
      cases hhash : s.pm.hashes[i]? with
      | none => simp only [hread]
      | some hash => by_cases heq : sha1 data = hash <;> simp [hread, heq]
    | _ => simp only [hread]

/-- A cache that is right about all its entries is right about every piece at its turn, if no map
hides that a file is too short. -/
theorem trusted_of_fresh
    (hfilled : ∀ k, ¬ s.pm.ZeroFilled sha1 b storage disk k)
    (hfresh : s.cache.All fun k data =>
      s.pm.hashes[k]? = some (sha1 data) ↔ s.pm.Intact sha1 b storage disk k)
    (hended : (run sha1 b storage disk count i s).2 = .ok ()) :
    Trusted sha1 b storage disk count i s := by
  induction count generalizing i s with
  | zero => trivial
  | succ count ih =>
    have hlayout := s.sameLayout_piece sha1 b storage disk i
    rw [run] at hended
    rw [Trusted]
    cases hpiece : s.piece sha1 b storage disk i with
    | mk s' ended =>
      have hends : (s.piece sha1 b storage disk i).2 = ended := by rw [hpiece]
      rw [hpiece] at hended hlayout
      cases ended with
      | ok value =>
        obtain ⟨size, hsize⟩ := pieceSize_of_piece hends
        have hagrees : s.Agrees sha1 b storage disk i := by
          rw [Agrees]
          cases hget : (s.cache.get i).1 with
          | some data => exact hfresh.of_get hget
          | none => exact hfilled i
        refine ⟨hagrees, ih (fun k => ?_) ?_ hended⟩
        · rw [hlayout.zeroFilled_iff]
          exact hfilled k
        · have hcache : s'.cache = (storage.readPiece b i size disk s.cache).2 := by
            rw [← cache_piece sha1 hsize, hpiece]
          have hhashes : s'.pm.hashes = s.pm.hashes := hlayout.hashes
          simp only [hhashes, hlayout.intact_iff, hcache]
          exact all_readPiece hfresh fun data hread => hash_iff_intact (hfilled i) hsize hread
      | _ => cases hended

/-- The loop leaves the have vector right about its pieces exactly when the cache agrees with the
disk about each of them at its turn. -/
theorem run_iff_trusted (count i : ℕ) (s : Checking) :
    (∀ k, i ≤ k → k < i + count →
      ((run sha1 b storage disk count i s).1.pm.havePiece k = true ↔
        s.pm.Intact sha1 b storage disk k)) ↔
      Trusted sha1 b storage disk count i s := by
  induction count generalizing i s with
  | zero =>
    refine iff_of_true ?_ trivial
    intro k hle hlt
    omega
  | succ count ih =>
    have hlayout := s.sameLayout_piece sha1 b storage disk i
    rw [run, Trusted]
    cases hpiece : s.piece sha1 b storage disk i with
    | mk s' ended =>
      have hended : (s.piece sha1 b storage disk i).2 = ended := by rw [hpiece]
      rw [hpiece] at hlayout
      cases ended with
      | ok value =>
        obtain ⟨size, hsize⟩ := pieceSize_of_piece hended
        have hhave := havePiece_piece hended
        rw [hpiece] at hhave
        have hfirst : (run sha1 b storage disk count (i + 1) s').1.pm.havePiece i =
            s'.pm.havePiece i := havePiece_run_of_lt (Nat.lt_succ_self i)
        dsimp only
        rw [← ih (i + 1) s', ← finds_iff_intact_iff hsize, ← hhave, ← hfirst]
        constructor
        · intro hall
          refine ⟨hall i le_rfl (by omega), fun k hle hlt => ?_⟩
          rw [hlayout.intact_iff]
          exact hall k (by omega) (by omega)
        · rintro ⟨hi, hrest⟩ k hle hlt
          rcases hle.eq_or_lt with rfl | hlt'
          · exact hi
          · rw [← hlayout.intact_iff]
            exact hrest k hlt' (by omega)
      | err _ | panic _ | hang =>
        have hne : (s.piece sha1 b storage disk i).2 ≠ .ok () := by simp [hpiece]
        have hleft (k : ℕ) := havePiece_piece_of_ne_ok (k := k) hne
        simp only [hpiece] at hleft
        dsimp only
        simp only [RightFrom, hleft]

end Checking

namespace TorrentSession

variable {sha1 : List UInt8 → Hash} {b : Build} {disk : Disk} {now : ℤ} {s s' : TorrentSession}
  {cache cache' : ReadCache}

/-- The have vector describes the disk. -/
def HaveDescribesDisk (sha1 : List UInt8 → Hash) (b : Build) (disk : Disk)
    (s : TorrentSession) : Prop :=
  ∀ i < s.metaInfo.numPieces, s.pieceManager.havePiece i = true ↔
    s.pieceManager.Intact sha1 b s.storage disk i

/-- A `recheck` that comes to its end has run its loop. -/
theorem recheck_eq_ok (h : s.recheck sha1 b disk now cache = .ok (s', cache')) :
    s'.metaInfo = s.metaInfo ∧ s'.storage = s.storage ∧
      (s.metaInfo.numPieces = 0 ∧ s'.pieceManager = s.pieceManager ∨
        s'.pieceManager = (Checking.run sha1 b s.storage disk s.pieceManager.numPieces 0
          ⟨s.pieceManager, cache⟩).1.pm) := by
  unfold recheck at h
  split at h
  · next hnone =>
    obtain ⟨rfl, _⟩ := Prod.mk.inj (Outcome.ok.inj h)
    exact ⟨rfl, rfl, .inl ⟨hnone, rfl⟩⟩
  · dsimp only at h
    split at h
    · cases h
    · obtain ⟨rfl, _⟩ := Prod.mk.inj (Outcome.ok.inj h)
      exact ⟨rfl, rfl, .inr rfl⟩

/-- After a `recheck` the have vector describes the disk exactly when the cache agreed with the disk
about every piece at its turn. -/
theorem haveDescribesDisk_iff (hnum : s.pieceManager.numPieces = s.metaInfo.numPieces)
    (h : s.recheck sha1 b disk now cache = .ok (s', cache')) :
    s'.HaveDescribesDisk sha1 b disk ↔
      Checking.Trusted sha1 b s.storage disk s.metaInfo.numPieces 0 ⟨s.pieceManager, cache⟩ := by
  obtain ⟨hmeta, hstorage, ⟨hnone, _⟩ | hpm⟩ := recheck_eq_ok h
  · rw [HaveDescribesDisk, hmeta, hnone]
    exact iff_of_true (fun i hi => absurd hi (Nat.not_lt_zero i)) trivial
  · have hlayout : s.pieceManager.SameLayout s'.pieceManager := by
      rw [hpm]
      exact Checking.sameLayout_run s.pieceManager.numPieces 0 ⟨s.pieceManager, cache⟩
    rw [← Checking.run_iff_trusted, HaveDescribesDisk, hmeta, hstorage, hpm, hnum]
    simp only [Nat.zero_le, true_imp_iff, Nat.zero_add, ← hnum]
    rw [← hpm]
    exact forall₂_congr fun i _ => by rw [hlayout.intact_iff]

end TorrentSession

/-- The hash of a file that consists of the byte 7. -/
def sevenHash : Hash :=
  ⟨[93, 27, 231, 233, 221, 161, 238, 136, 150, 190, 91, 126, 52, 168, 94, 225, 100, 82, 167, 180],
    rfl⟩

/-- The torrent of this file. -/
def sevenTorrent : Bytes :=
  ⟨Str.asciiBytes "d4:infod6:lengthi1e4:name1:x12:piece lengthi1e6:pieces20:" ++ sevenHash.val ++
    Str.asciiBytes "ee", by decide +kernel⟩

/-- The session of the torrent. -/
def sevenSession : Res TorrentSession := do
  let m ← MetaInfo.fromBytes (fun _ => sevenHash) .release sevenTorrent
  TorrentSession.new .release (.ok ()) m [] none

/-- The disk with this file. -/
def sevenDisk : Disk := fun path => if path = .ascii "x" then some [7] else none

/-- With nothing in the cache the check describes the disk. -/
theorem haveDescribesDisk_sevenDisk : ∃ s s' cache',
    sevenSession = .ok s ∧ s.pieceManager.numPieces = s.metaInfo.numPieces ∧
    s.recheck (fun _ => sevenHash) .release sevenDisk 0 (.new (cacheEntries 256 1)) =
      .ok (s', cache') ∧
    s'.HaveDescribesDisk (fun _ => sevenHash) .release sevenDisk := by
  have hok : sevenSession.isOkAnd (fun s => decide (
      s.pieceManager.numPieces = s.metaInfo.numPieces ∧ s.metaInfo.numPieces = 1 ∧
      s.pieceManager.pieceSize .release 0 = .ok 1 ∧
      s.storage.seekPiece .release 0 1 sevenDisk = .ok [7] ∧
      (Checking.piece (fun _ => sevenHash) .release s.storage sevenDisk
        ⟨s.pieceManager, .new (cacheEntries 256 1)⟩ 0).2 = .ok () ∧
      (s.recheck (fun _ => sevenHash) .release sevenDisk 0 (.new (cacheEntries 256 1))).isOkAnd
        (fun _ => true) = true)) = true := by
    decide +kernel
  obtain ⟨s, hs, hruns⟩ := Outcome.isOkAnd_iff.mp hok
  obtain ⟨hnum, hpieces, hsize, hseek, hended, hrecheck⟩ := of_decide_eq_true hruns
  obtain ⟨⟨s', cache'⟩, hrecheck, _⟩ := Outcome.isOkAnd_iff.mp hrecheck
  refine ⟨s, s', cache', hs, hnum, hrecheck,
    (TorrentSession.haveDescribesDisk_iff hnum hrecheck).mpr ?_⟩
  rw [hpieces, Checking.Trusted]
  split
  · refine ⟨?_, trivial⟩
    rintro ⟨size, data, hsize', _, _, hnone⟩
    obtain rfl := Outcome.ok.inj (hsize.symm.trans hsize')
    exact hnone [7] hseek
  · next hne => exact (hne _ (Prod.ext rfl hended)).elim

/-- The piece is read, the file is deleted, and the check still finds the piece. -/
theorem not_haveDescribesDisk_deleted : ∃ s cache s' cache',
    sevenSession = .ok s ∧
    s.storage.readPiece .release 0 1 sevenDisk (.new (cacheEntries 256 1)) = (.ok [7], cache) ∧
    s.recheck (fun _ => sevenHash) .release (fun _ => none) 0 cache = .ok (s', cache') ∧
    s'.pieceManager.havePiece 0 = true ∧
    ¬ s'.HaveDescribesDisk (fun _ => sevenHash) .release (fun _ => none) := by
  have hok : sevenSession.isOkAnd (fun s =>
      decide ((s.storage.readPiece .release 0 1 sevenDisk (.new (cacheEntries 256 1))).1 =
        .ok [7]) &&
      (s.recheck (fun _ => sevenHash) .release (fun _ => none) 0
        (s.storage.readPiece .release 0 1 sevenDisk (.new (cacheEntries 256 1))).2).isOkAnd
        (fun checked => decide (
          checked.1.metaInfo.numPieces = 1 ∧ checked.1.pieceManager.havePiece 0 = true ∧
          checked.1.pieceManager.pieceSize .release 0 = .ok 1 ∧
          (checked.1.storage.seekPiece .release 0 1 fun _ => none) = .err notFound))) = true := by
    decide +kernel
  obtain ⟨s, hs, hruns⟩ := Outcome.isOkAnd_iff.mp hok
  rw [Bool.and_eq_true, decide_eq_true_iff] at hruns
  obtain ⟨hread, hrecheck⟩ := hruns
  obtain ⟨⟨s', cache'⟩, hrecheck, hchecked⟩ := Outcome.isOkAnd_iff.mp hrecheck
  obtain ⟨hpieces, hfound, hsize, hseek⟩ := of_decide_eq_true hchecked
  refine ⟨s, _, s', cache', hs, Prod.ext hread rfl, hrecheck, hfound, fun hdescribes => ?_⟩
  obtain ⟨size, data, hsize', hseek', _⟩ := (hdescribes 0 (by rw [hpieces]; decide)).mp hfound
  obtain rfl := Outcome.ok.inj (hsize.symm.trans hsize')
  rw [hseek] at hseek'
  cases hseek'

end Retorrent

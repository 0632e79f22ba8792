import Retorrent.Network.Session
import Retorrent.Systems.Transition

/-!
# Downloads and file priorities

Verified pieces are written and marked as had while the file priorities change.
A piece that is written while one of its files is skipped leaves a hole in that
file, and nothing fills it when the file is wanted again.
-/

namespace Retorrent

open Rust Systems

/-- A piece that passed verification, and the files that have got its bytes. -/
structure Verified where
  data : List UInt8
  held : ℕ → Bool

/-- A session with the files it downloads to. `verified` records the history: what
the last verification of each piece had. -/
structure Download where
  session : TorrentSession
  disk : Disk
  verified : ℕ → Option Verified

/-- The record of a piece after one more write: files that already hold the same
data keep it when they are skipped. -/
def Download.record (s : Download) (index : ℕ) (data : List UInt8) : Verified where
  data := data
  held file := !isSkipped s.session.filePriorities file ||
    match s.verified index with
    | some v => v.data == data && v.held file
    | none => false

inductive DownloadEvent where
  | writePiece (index : ℕ) (data : List UInt8)
  | markPieceComplete (index : ℕ)
  | setFilePriority (fileIndex : ℕ) (priority : FilePriority)

/-- One step of the verify tasks or of the user. -/
inductive DownloadStep (sha1 : List UInt8 → Hash) (b : Build) :
    Download → DownloadEvent → Download → Prop where
  | writePiece {s : Download} {index : ℕ} {data : List UInt8} {disk : Disk} :
      s.session.pieceManager.hashes[index]? = some (sha1 data) →
      s.session.pieceManager.pieceSize b index = .ok data.length →
      s.session.storage.writePiece b s.session.filePriorities index data s.disk = .ok disk →
      DownloadStep sha1 b s (.writePiece index data)
        { s with
          disk := disk
          verified := Function.update s.verified index (some (s.record index data)) }
  | markPieceComplete {s : Download} {index : ℕ} {pm : PieceManager} :
      (s.verified index).isSome → s.session.pieceManager.markPieceComplete b index = .ok pm →
      DownloadStep sha1 b s (.markPieceComplete index)
        { s with session := { s.session with pieceManager := pm } }
  | setFilePriority {s : Download} {session : TorrentSession} {fileIndex : ℕ}
      {priority : FilePriority} :
      s.session.setFilePriority b fileIndex priority = .ok session →
      DownloadStep sha1 b s (.setFilePriority fileIndex priority) { s with session := session }

/-- Downloads of `m` that start with nothing: any files may lie on disk and any
priorities may be set. -/
structure Download.Initial (m : MetaInfo) (s : Download) : Prop where
  storage : s.session.storage.metaInfo = m
  pieceManager : ∃ pp, s.session.pieceManager =
    { PieceManager.new m.numPieces m.pieceLength m.totalSize m.pieces with piecePriorities := pp }
  verified : ∀ i, s.verified i = none

def downloads (sha1 : List UInt8 → Hash) (b : Build) (m : MetaInfo) :
    System Download DownloadEvent where
  init := Download.Initial m
  step := DownloadStep sha1 b

/-- The bytes of a piece that lie in a file are on disk. -/
def OnDisk (m : MetaInfo) (disk : Disk) (index : ℕ) (data : List UInt8) (f : FileInfo) : Prop :=
  ∀ k < data.length, f.offset ≤ index * m.pieceLength + k →
    index * m.pieceLength + k < f.offset + f.length →
    byteAt (disk f.path) (index * m.pieceLength + k - f.offset) = data[k]?

/-- A piece and a file have a byte in common. -/
def Shares (m : MetaInfo) (index : ℕ) (data : List UInt8) (f : FileInfo) : Prop :=
  ∃ k < data.length, f.offset ≤ index * m.pieceLength + k ∧
    index * m.pieceLength + k < f.offset + f.length

/-- What a session promises about the pieces it has. -/
def HaveOnDisk (m : MetaInfo) (s : Download) : Prop :=
  ∀ i, s.session.pieceManager.havePiece i = true → ∃ v, s.verified i = some v ∧
    ∀ j f, m.files[j]? = some f → isSkipped s.session.filePriorities j = false →
      OnDisk m s.disk i v.data f

/-- A skipped file is wanted again only if it holds the bytes of all verified
pieces that it shares, and no piece ends beyond the range of `u64`. -/
def KeepsHoles (m : MetaInfo) (s : Download) : DownloadEvent → Prop
  | .writePiece index data => index * m.pieceLength + data.length < 2 ^ 64
  | .markPieceComplete _ => True
  | .setFilePriority j priority => priority ≠ .skip → isSkipped s.session.filePriorities j = true →
      ∀ i v f, s.verified i = some v → m.files[j]? = some f → Shares m i v.data f →
        v.held j = true

/-- What holds of a recorded piece: its bytes are in the files that have got them,
and the others are skipped. -/
structure PieceInv (m : MetaInfo) (s : Download) (index : ℕ) (v : Verified) : Prop where
  size : v.data.length ≤ m.pieceLength
  onDisk : ∀ j f, m.files[j]? = some f → v.held j = true → OnDisk m s.disk index v.data f
  skipped : ∀ j f, m.files[j]? = some f → v.held j = false → Shares m index v.data f →
    isSkipped s.session.filePriorities j = true

/-- The invariant of a download. -/
structure DownloadInv (m : MetaInfo) (s : Download) : Prop where
  storage : s.session.storage.metaInfo = m
  pieceLength : s.session.pieceManager.pieceLength = m.pieceLength
  recorded : ∀ i, s.session.pieceManager.havePiece i = true → (s.verified i).isSome
  pieces : ∀ i v, s.verified i = some v → PieceInv m s i v

variable {sha1 : List UInt8 → Hash} {b : Build} {m : MetaInfo} {s s' : Download}

/-- The invariant gives what the session promises. -/
theorem DownloadInv.haveOnDisk (h : DownloadInv m s) : HaveOnDisk m s := by
  intro i hi
  obtain ⟨v, hv⟩ := Option.isSome_iff_exists.mp (h.recorded i hi)
  refine ⟨v, hv, ?_⟩
  intro j f hf hwanted
  have hp := h.pieces i v hv
  cases hheld : v.held j with
  | true => exact hp.onDisk j f hf hheld
  | false =>
    intro k hk hlo hhi
    have hskip := hp.skipped j f hf hheld ⟨k, hk, hlo, hhi⟩
    rw [hwanted] at hskip
    simp at hskip

theorem havePiece_of_set {pm : PieceManager} {avail : List ℕ} {index i : ℕ}
    (h : PieceManager.havePiece { pm with
      inProgress := pm.inProgress.erase index
      have_ := pm.have_.set index true
      pieceAvailability := avail } i = true) : i = index ∨ pm.havePiece i = true := by
  by_cases hi : i = index
  · exact .inl hi
  · right
    rw [PieceManager.havePiece] at h ⊢
    rwa [List.getElem?_set_ne (Ne.symm hi)] at h

theorem downloadInv_init (h : Download.Initial m s) : DownloadInv m s := by
  obtain ⟨hstorage, ⟨pp, hpm⟩, hnone⟩ := h
  constructor
  · exact hstorage
  · rw [hpm]
    rfl
  · intro i hi
    rw [hpm] at hi
    simp [PieceManager.havePiece, PieceManager.new, List.getElem?_replicate] at hi
  · intro i v hv
    rw [hnone i] at hv
    simp at hv

/-- Pieces do not overlap. -/
theorem index_eq_of_overlap {i j : ℕ} (k len : ℕ) (hk : k < len) (hlo : i * len ≤ j * len + k)
    (hhi : j * len + k < i * len + len) : i = j := by
  have hpos : 0 < len := by omega
  have hj : (j * len + k) / len = j := by
    rw [Nat.add_comm, Nat.add_mul_div_right _ _ hpos, Nat.div_eq_of_lt hk, Nat.zero_add]
  have hi : (j * len + k) / len = i := by
    rw [Nat.div_eq_iff hpos]
    omega
  exact hi.symm.trans hj

/-- Writing a piece fills the files that are not skipped and touches no other piece. -/
theorem downloadInv_writePiece (hm : WellFormed m) (h : DownloadInv m s) {index : ℕ}
    {data : List UInt8} {disk : Disk} (hend : index * m.pieceLength + data.length < 2 ^ 64)
    (hsize : s.session.pieceManager.pieceSize b index = .ok data.length)
    (hwrite : s.session.storage.writePiece b s.session.filePriorities index data s.disk =
      .ok disk) :
    DownloadInv m { s with
      disk := disk
      verified := Function.update s.verified index (some (s.record index data)) } := by
  have hle : data.length ≤ m.pieceLength := by
    rw [← h.pieceLength]
    exact PieceManager.pieceSize_le (by rw [h.pieceLength]; exact hm.pieceLength_pos) hsize
  have hwf : WellFormed s.session.storage.metaInfo := by
    rw [h.storage]
    exact hm
  obtain ⟨disk', hrun, hwrote⟩ := DiskStorage.writePiece_spec b s.session.storage
    s.session.filePriorities index data s.disk hwf
    (by rw [h.storage]; exact hend)
  obtain rfl : disk' = disk := Outcome.ok.inj (hrun.symm.trans hwrite)
  rw [h.storage] at hwrote
  refine ⟨h.storage, h.pieceLength, ?_, ?_⟩
  · intro i hi
    show (Function.update s.verified index _ i).isSome
    by_cases heq : i = index
    · rw [heq, Function.update_self]
      rfl
    · rw [Function.update_of_ne heq]
      exact h.recorded i hi
  · intro i v hv
    replace hv : Function.update s.verified index (some (s.record index data)) i = some v := hv
    by_cases heq : i = index
    · rw [heq, Function.update_self, Option.some.injEq] at hv
      subst heq hv
      refine ⟨hle, ?_, ?_⟩
      · intro j f hf hheld k hk hlo hhi
        cases hskip : isSkipped s.session.filePriorities j with
        | false => exact (hwrote j f hf).stored hskip k hk hlo hhi
        | true =>
          -- a skipped file keeps the same data from an earlier write
          show byteAt (disk' f.path) _ = data[k]?
          rw [(hwrote j f hf).kept hskip]
          simp only [Download.record, hskip, Bool.not_true, Bool.false_or] at hheld
          split at hheld
          · next v hv =>
            rw [Bool.and_eq_true, beq_iff_eq] at hheld
            obtain ⟨rfl, hheld⟩ := hheld
            exact (h.pieces i v hv).onDisk j f hf hheld k hk hlo hhi
          · simp at hheld
      · intro j f _ hheld _
        simp only [Download.record, Bool.or_eq_false_iff, Bool.not_eq_false'] at hheld
        exact hheld.1
    · rw [Function.update_of_ne heq] at hv
      have hp := h.pieces i v hv
      refine ⟨hp.size, ?_, hp.skipped⟩
      intro j f hf hheld k hk hlo hhi
      have hold := hp.onDisk j f hf hheld k hk hlo hhi
      rw [List.getElem?_eq_getElem hk] at hold ⊢
      apply (hwrote j f hf).frame _ _ hold
      intro hin
      have hsize := hp.size
      exact heq (index_eq_of_overlap k m.pieceLength (by omega) (by omega)
        (by omega)).symm

theorem downloadInv_markPieceComplete (h : DownloadInv m s) {index : ℕ} {pm : PieceManager}
    (hver : (s.verified index).isSome)
    (hmark : s.session.pieceManager.markPieceComplete b index = .ok pm) :
    DownloadInv m { s with session := { s.session with pieceManager := pm } } := by
  obtain ⟨avail, _, rfl⟩ := PieceManager.markPieceComplete_eq_ok hmark
  refine ⟨h.storage, h.pieceLength, ?_, ?_⟩
  · intro i hi
    rcases havePiece_of_set hi with rfl | hi
    · exact hver
    · exact h.recorded i hi
  · intro i v hv
    obtain ⟨hsize, hdisk, hskip⟩ := h.pieces i v hv
    exact ⟨hsize, hdisk, hskip⟩

theorem isSkipped_set {fp : List FilePriority} {j k : ℕ} {p : FilePriority} (hj : j < fp.length) :
    isSkipped (fp.set j p) k = if k = j then p == .skip else isSkipped fp k := by
  simp only [isSkipped]
  by_cases h : k = j
  · subst h
    rw [if_pos rfl, List.getElem?_set_self hj]
    cases p <;> rfl
  · rw [if_neg h, List.getElem?_set_ne (Ne.symm h)]

/-- Changing a priority keeps the holes of a download in skipped files. -/
theorem downloadInv_setFilePriority (h : DownloadInv m s) {j : ℕ} {p : FilePriority}
    {session : TorrentSession} (hguard : KeepsHoles m s (.setFilePriority j p))
    (hset : s.session.setFilePriority b j p = .ok session) :
    DownloadInv m { s with session := session } := by
  unfold TorrentSession.setFilePriority at hset
  split at hset
  · next hj =>
    simp only [Outcome.bind_eq_ok, Outcome.pure_eq, Outcome.ok.injEq] at hset
    obtain ⟨pm, hpm, rfl⟩ := hset
    obtain ⟨pp, rfl⟩ := PieceManager.applyFilePriorities_eq_ok hpm
    refine ⟨h.storage, h.pieceLength, h.recorded, ?_⟩
    intro i v hv
    have hp := h.pieces i v hv
    refine ⟨hp.size, hp.onDisk, ?_⟩
    intro k f hf hheld hshares
    have hskip := hp.skipped k f hf hheld hshares
    show isSkipped (s.session.filePriorities.set j p) k = true
    rw [isSkipped_set hj]
    split
    · next hkj =>
      subst hkj
      by_contra hne
      -- the guard would have the file hold the piece
      have hall := hguard (fun hp => hne (by rw [hp]; rfl)) hskip i v f hv hf hshares
      rw [hheld] at hall
      simp at hall
    · exact hskip
  · obtain rfl := Outcome.ok.inj hset
    exact h

theorem downloadInv_step (hm : WellFormed m) {e : DownloadEvent} (h : DownloadInv m s)
    (hguard : KeepsHoles m s e) (hstep : DownloadStep sha1 b s e s') : DownloadInv m s' := by
  cases hstep with
  | writePiece _ hsize hwrite => exact downloadInv_writePiece hm h hguard hsize hwrite
  | markPieceComplete hver hmark => exact downloadInv_markPieceComplete h hver hmark
  | setFilePriority hset => exact downloadInv_setFilePriority h hguard hset

/-- In every run that wants a skipped file again only when it lacks no verified
bytes, what the session has is on disk. -/
theorem have_on_disk_of_run {sha1 : List UInt8 → Hash} {b : Build} {m : MetaInfo} {s : Download}
    (hm : WellFormed m) (hs : (downloads sha1 b m).Reachable (KeepsHoles m) s) :
    HaveOnDisk m s := by
  have hinv : (downloads sha1 b m).Invariant (KeepsHoles m) (DownloadInv m) :=
    ⟨fun _ hinit => downloadInv_init hinit,
      fun _ _ _ h hguard hstep => downloadInv_step hm h hguard hstep⟩
  exact (hinv.reachable hs).haveOnDisk

section TwoFiles

/-- The SHA-1 of `ab`. -/
def pieceHash : Hash :=
  ⟨[218, 35, 97, 78, 2, 70, 154, 13, 124, 123, 209, 189, 171, 92, 156, 71, 75, 25, 4, 220],
    by decide⟩

/-- Two files of one byte each that share the only piece. -/
def twoFiles : MetaInfo where
  infoHash := sampleHash
  name := .ascii "t"
  pieceLength := 2
  pieces := [pieceHash]
  files := [⟨.ascii "t/a", 1, 0⟩, ⟨.ascii "t/b", 1, 1⟩]
  totalSize := 2
  announce := none
  announceList := []
  urlList := []
  comment := none
  createdBy := none
  creationDate := none
  isPrivate := false

theorem twoFiles_wellFormed : WellFormed twoFiles where
  pieceLength_pos := by decide
  contiguous := ⟨rfl, rfl, trivial⟩
  distinct := by decide
  total_lt := by decide

/-- A session on the two files that runs. -/
def twoFilesSession (pm : PieceManager) (filePriorities : List FilePriority) : TorrentSession where
  infoHash := sampleHash
  metaInfo := twoFiles
  pieceManager := pm
  storage := ⟨[], twoFiles⟩
  state := .downloading
  paused := false
  started := true
  totalDownloaded := 0
  totalUploaded := 0
  filePriorities := filePriorities
  completedTime := none
  torrentBytes := none
  queuePaused := false

/-- Nothing is downloaded yet, and the second file is skipped. -/
def skippingDownload : Download where
  session := twoFilesSession (PieceManager.new 1 2 2 [pieceHash]) [.normal, .skip]
  disk _ := none
  verified _ := none

/-- The manager that has the only piece. -/
def completeManager : PieceManager :=
  { PieceManager.new 1 2 2 [pieceHash] with have_ := [true], pieceAvailability := [1] }

/-- The piece `ab` is written and marked. -/
theorem skippingDownload_completes :
    ∃ disk verified,
      (downloads (fun _ => pieceHash) .release twoFiles).Reachable (KeepsHoles twoFiles)
        ⟨twoFilesSession completeManager [.normal, .skip], disk, verified⟩ ∧
      disk (.ascii "t/b") = none ∧
      verified 0 = some (skippingDownload.record 0 [0x61, 0x62]) := by
  obtain ⟨disk, hrun, hwrote⟩ := DiskStorage.writePiece_spec .release ⟨[], twoFiles⟩
    [.normal, .skip] 0 [0x61, 0x62] (fun _ => none) twoFiles_wellFormed (by decide)
  let verified := Function.update skippingDownload.verified 0
    (some (skippingDownload.record 0 [0x61, 0x62]))
  have hinit : (downloads (fun _ => pieceHash) .release twoFiles).Reachable (KeepsHoles twoFiles)
      skippingDownload :=
    .init ⟨rfl, ⟨[.normal], rfl⟩, fun _ => rfl⟩
  have hwrite : DownloadStep (fun _ => pieceHash) .release skippingDownload
      (.writePiece 0 [0x61, 0x62]) { skippingDownload with disk := disk, verified := verified } :=
    .writePiece rfl rfl hrun
  have hmark : DownloadStep (fun _ => pieceHash) .release
      { skippingDownload with disk := disk, verified := verified } (.markPieceComplete 0)
      ⟨twoFilesSession completeManager [.normal, .skip], disk, verified⟩ :=
    .markPieceComplete rfl rfl
  have hguard : KeepsHoles twoFiles skippingDownload (.writePiece 0 [0x61, 0x62]) := by
    show 0 * 2 + 2 < 2 ^ 64
    decide
  refine ⟨disk, verified, (hinit.step hguard hwrite).step (e := .markPieceComplete 0) trivial hmark,
    ?_, rfl⟩
  exact (hwrote 1 ⟨.ascii "t/b", 1, 1⟩ rfl).kept rfl

theorem have_on_disk_skippingDownload :
    ∃ s, HaveOnDisk twoFiles s ∧ s.session.pieceManager.havePiece 0 = true := by
  obtain ⟨disk, verified, hreach, _, _⟩ := skippingDownload_completes
  exact ⟨_, have_on_disk_of_run twoFiles_wellFormed hreach, rfl⟩

/-- When the second file is wanted again, the session has the piece, but the
byte of the file is nowhere. -/
theorem hole_after_unskipping :
    ∃ s, (downloads (fun _ => pieceHash) .release twoFiles).Reachable System.unguarded s ∧
      s.session.pieceManager.havePiece 0 = true ∧ isSkipped s.session.filePriorities 1 = false ∧
      s.disk (.ascii "t/b") = none ∧ ¬ HaveOnDisk twoFiles s := by
  obtain ⟨disk, verified, hreach, hnone, hver⟩ := skippingDownload_completes
  have hset : DownloadStep (fun _ => pieceHash) .release
      ⟨twoFilesSession completeManager [.normal, .skip], disk, verified⟩
      (.setFilePriority 1 .normal)
      ⟨twoFilesSession completeManager [.normal, .normal], disk, verified⟩ := by
    have happly : completeManager.applyFilePriorities .release twoFiles.files [.normal, .normal] =
        .ok completeManager := rfl
    have hlt : 1 < [FilePriority.normal, FilePriority.skip].length := by decide
    have hok : (twoFilesSession completeManager [.normal, .skip]).setFilePriority .release 1
        .normal = .ok (twoFilesSession completeManager [.normal, .normal]) := by
      show (if 1 < [FilePriority.normal, FilePriority.skip].length then _ else _) = _
      rw [if_pos hlt]
      show (completeManager.applyFilePriorities .release twoFiles.files [.normal, .normal] >>= _) =
        _
      rw [happly]
      rfl
    exact .setFilePriority hok
  refine ⟨_, (hreach.mono fun _ _ _ => trivial).step trivial hset, rfl, rfl, hnone, ?_⟩
  intro h
  obtain ⟨v, hv, hfiles⟩ := h 0 rfl
  obtain rfl := Option.some.inj (hver.symm.trans hv)
  have hbyte := hfiles 1 ⟨.ascii "t/b", 1, 1⟩ rfl rfl 1 (by decide) (by decide) (by decide)
  rw [show byteAt (disk (.ascii "t/b")) _ = none by rw [hnone]; rfl] at hbyte
  exact absurd hbyte (by decide)

end TwoFiles

end Retorrent

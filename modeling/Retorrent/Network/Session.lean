import Retorrent.Hex
import Retorrent.Resume
import Retorrent.Storage

/-!
# Torrent sessions

The state of a `TorrentSession` that resuming, file priorities and the metadata
exchange work on. The progress of the statistics is a float and left out.
-/

namespace Retorrent

open Rust

structure TorrentSession where
  infoHash : Hash
  metaInfo : MetaInfo
  pieceManager : PieceManager
  storage : DiskStorage
  state : TorrentState
  paused : Bool
  started : Bool
  totalDownloaded : ℕ
  totalUploaded : ℕ
  filePriorities : List FilePriority
  completedTime : Option ℤ
  torrentBytes : Option Bytes
  queuePaused : Bool

/-- The metainfo that `add_torrent_from_magnet` starts with. -/
def MetaInfo.ofMagnet (infoHash : Hash) (name : Str) (trackers webSeeds : List Str) :
    MetaInfo where
  infoHash := infoHash
  name := name
  pieceLength := 0
  pieces := []
  files := []
  totalSize := 0
  announce := trackers.head?
  announceList := if trackers.isEmpty then [] else [trackers]
  urlList := webSeeds
  comment := none
  createdBy := none
  creationDate := none
  isPrivate := false

namespace TorrentSession

/-- `TorrentSession::new`, where `io` is how the creation of the files ended. -/
def new (b : Build) (io : Res Unit) (metaInfo : MetaInfo) (downloadDir : List UInt8)
    (initialPriorities : Option (List FilePriority)) : Res TorrentSession := do
  let pm := PieceManager.new metaInfo.numPieces metaInfo.pieceLength metaInfo.totalSize
    metaInfo.pieces
  let fp := initialPriorities.getD (List.replicate metaInfo.files.length .normal)
  let storage ← DiskStorage.new io downloadDir metaInfo
  let pm ← pm.applyFilePriorities b metaInfo.files fp
  return {
    infoHash := metaInfo.infoHash
    metaInfo := metaInfo
    pieceManager := pm
    storage := storage
    state := .downloading
    paused := false
    started := false
    totalDownloaded := 0
    totalUploaded := 0
    filePriorities := fp
    completedTime := none
    torrentBytes := none
    queuePaused := false }

def setTorrentBytes (s : TorrentSession) (data : Bytes) : TorrentSession :=
  { s with torrentBytes := some data }

def applyResume (b : Build) (s : TorrentSession) (rd : ResumeData) : Res TorrentSession := do
  let pm := s.pieceManager.loadHave rd.havePieces
  let fits := rd.filePriorities.length = s.metaInfo.files.length
  let pm ← if fits then pm.applyFilePriorities b s.metaInfo.files rd.filePriorities else .ok pm
  return { s with
    pieceManager := pm
    totalDownloaded := rd.downloaded
    totalUploaded := rd.uploaded
    filePriorities := if fits then rd.filePriorities else s.filePriorities
    paused := rd.prevState = .paused
    state := if rd.prevState = .paused then .paused
      else if pm.isComplete then .seeding
      else .downloading }

/-- `snapshot_resume` at the time `now`, with the session it leaves. -/
def snapshotResume (now : ℤ) (s : TorrentSession) : TorrentSession × ResumeData :=
  let s := { s with completedTime :=
    if s.pieceManager.isComplete ∧ s.completedTime.isNone then some now else s.completedTime }
  (s, {
    infoHash := toHex s.infoHash
    havePieces := s.pieceManager.have_
    downloaded := s.totalDownloaded
    uploaded := s.totalUploaded
    filePriorities := s.filePriorities
    addedTime := now
    completedTime := s.completedTime
    torrentBytes := s.torrentBytes
    prevState := if (s.paused ∧ ¬ s.queuePaused) ∨ ¬ s.started then .paused else .running })

def setFilePriority (b : Build) (s : TorrentSession) (fileIndex : ℕ) (priority : FilePriority) :
    Res TorrentSession :=
  if fileIndex < s.filePriorities.length then do
    let fp := s.filePriorities.set fileIndex priority
    let pm ← s.pieceManager.applyFilePriorities b s.metaInfo.files fp
    return { s with filePriorities := fp, pieceManager := pm }
  else .ok s

/-- A session without metadata, as `new` makes it for a magnet link. -/
def ofMagnet (infoHash : Hash) (name : Str) (trackers webSeeds : List Str)
    (downloadDir : List UInt8) : TorrentSession where
  infoHash := infoHash
  metaInfo := .ofMagnet infoHash name trackers webSeeds
  pieceManager := .new 0 0 0 []
  storage := ⟨downloadDir, .ofMagnet infoHash name trackers webSeeds⟩
  state := .downloading
  paused := false
  started := false
  totalDownloaded := 0
  totalUploaded := 0
  filePriorities := []
  completedTime := none
  torrentBytes := none
  queuePaused := false

theorem new_ofMagnet (b : Build) (infoHash : Hash) (name : Str) (trackers webSeeds : List Str)
    (downloadDir : List UInt8) :
    new b (.ok ()) (.ofMagnet infoHash name trackers webSeeds) downloadDir none =
      .ok (.ofMagnet infoHash name trackers webSeeds downloadDir) := rfl

end TorrentSession

end Retorrent

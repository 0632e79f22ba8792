import Retorrent.Engine.Queue
import Retorrent.Engine.Removal
import Retorrent.Piece.Priorities
import Retorrent.Storage.RoundTrip

/-!
# Sessions after a restart

Torrents that `add_torrent_from_bytes` adds, what happens to their sessions, and what
`load_resume_data` makes of the records that `save_all_resume` writes. A record does not say where
the files of its torrent are.
-/

namespace Retorrent

open Rust Systems

namespace TorrentSession

/-- The loop over the priorities of the user in `add_torrent_from_bytes`. -/
def setFilePriorities (b : Build) : TorrentSession → ℕ → List FilePriority → Res TorrentSession
  | s, _, [] => .ok s
  | s, i, p :: rest => do
    let s ← s.setFilePriority b i p
    setFilePriorities b s (i + 1) rest

/-- A call on the piece manager of the session. -/
def onPieces (s : TorrentSession) (f : PieceManager → Res PieceManager) : Res TorrentSession := do
  let pm ← f s.pieceManager
  return { s with pieceManager := pm }

end TorrentSession

/-- What happens to a session. The queue starts, resumes and pauses sessions, too. -/
inductive SessionCall where
  | start
  | pause
  | resume
  | queuePause
  | received (bytes : ℕ)
  | sent (bytes : ℕ)
  | pieceDone (index : ℕ)
  | recheck (index : ℕ) (ok : Bool)
  | setFilePriority (fileIndex : ℕ) (priority : FilePriority)
  | save (now : ℤ)

def SessionCall.run (b : Build) (s : TorrentSession) : SessionCall → Res TorrentSession
  | start => .ok s.setStarted
  | pause => .ok (s.setQueuePaused false).pause
  | resume => .ok s.resume
  | queuePause => .ok s.queuePause
  | received bytes => .ok { s with totalDownloaded := (s.totalDownloaded + bytes) % 2 ^ 64 }
  | sent bytes => .ok { s with totalUploaded := (s.totalUploaded + bytes) % 2 ^ 64 }
  | pieceDone index => s.onPieces fun pm => pm.markPieceComplete b index
  | recheck index ok => s.onPieces fun pm => pm.recheckPiece b index ok
  | setFilePriority fileIndex priority => s.setFilePriority b fileIndex priority
  | save now => .ok (s.snapshotResume now).1

/-- What differs from one restart to another: the order in which the records are found, the times
at which they were made, how the creation of the files ends, and the configured directory. -/
structure Reload where
  order : List Hash
  clock : Hash → ℤ
  createError : MetaInfo → Option TorrentError
  downloadDir : List UInt8

/-- How the creation of the files ends. -/
def Reload.io (r : Reload) (m : MetaInfo) : Res Unit :=
  match r.createError m with
  | none => .ok ()
  | some e => .err e

namespace TorrentEngine

/-- `add_torrent_from_bytes` at the time `now`, where `io` is how the creation of the files ends and
`existing` the record that `load_from_dir` finds. -/
def addTorrentFromBytes (sha1 : List UInt8 → Hash) (b : Build) (io : Res Unit)
    (existing : Option ResumeData) (now : ℤ) (engine : TorrentEngine) (data : Bytes)
    (downloadDir : Option (List UInt8)) (filePriorities : Option (List FilePriority)) :
    Res (TorrentEngine × Hash) := do
  let metaInfo ← MetaInfo.fromBytes sha1 b data
  if engine.sessions.containsKey metaInfo.infoHash then return (engine, metaInfo.infoHash)
  else do
    let dir := downloadDir.getD engine.downloadDir
    let session ← TorrentSession.new b io metaInfo dir filePriorities
    let session ← match existing with
      | some rd => session.applyResume b rd
      | none => .ok session
    let session ← session.setFilePriorities b 0 (filePriorities.getD [])
    let (session, _record) := (session.setTorrentBytes data).snapshotResume now
    return ({ engine with sessions := engine.sessions.insert metaInfo.infoHash session },
      metaInfo.infoHash)

/-- The records that `save_all_resume` writes, in the order in which they are found later. -/
def savedRecords (engine : TorrentEngine) (r : Reload) : List ResumeData :=
  r.order.filterMap fun h =>
    (engine.sessions.lookup h).map fun s => (s.snapshotResume (r.clock h)).2

/-- The records are saved, and another engine loads them with their torrents. -/
def reload (sha1 : List UInt8 → Hash) (b : Build) (r : Reload) (engine : TorrentEngine) :
    Res (TorrentEngine × List Hash) :=
  loadRecords sha1 b r.io (engine.savedRecords r) (.new r.downloadDir, [])

end TorrentEngine

inductive EngineEvent where
  | add (data : Bytes) (downloadDir : Option (List UInt8))
    (filePriorities : Option (List FilePriority)) (existing : Option ResumeData) (io : Res Unit)
    (now : ℤ)
  | call (infoHash : Hash) (c : SessionCall)
  | remove (infoHash : Hash)
  | applyConfig (downloadDir : List UInt8)
  | reload (r : Reload)

def TorrentEngine.step (sha1 : List UInt8 → Hash) (b : Build) (engine : TorrentEngine) :
    EngineEvent → Option TorrentEngine
  | .add data downloadDir filePriorities existing io now =>
    (engine.addTorrentFromBytes sha1 b io existing now data downloadDir filePriorities).toOption.map
      Prod.fst
  | .call infoHash c => do
    let s ← engine.sessions.lookup infoHash
    let s' ← (c.run b s).toOption
    return { engine with sessions := engine.sessions.modify infoHash fun _ => s' }
  | .remove infoHash => some { engine with sessions := engine.sessions.erase infoHash }
  | .applyConfig downloadDir => some { engine with downloadDir := downloadDir }
  | .reload r =>
    if r.order.Perm engine.sessions.keys then (engine.reload sha1 b r).toOption.map Prod.fst
    else none

/-- The runs of an engine whose torrents were added from their bytes. -/
def engineRuns (sha1 : List UInt8 → Hash) (b : Build) : System TorrentEngine EngineEvent where
  init engine := ∃ downloadDir, engine = .new downloadDir
  step engine e engine' := engine.step sha1 b e = some engine'

/-- Every piece that the session has is read from its files with the hash that it should have,
where `fs` says what is below each directory. -/
def TorrentSession.HaveDescribes (sha1 : List UInt8 → Hash) (b : Build) (fs : List UInt8 → Disk)
    (s : TorrentSession) : Prop :=
  ∀ i, s.pieceManager.havePiece i = true → ∃ size data, s.pieceManager.pieceSize b i = .ok size ∧
    s.storage.readPieceUncached b i size (fs s.storage.basePath) = .ok data ∧
    s.pieceManager.hashes[i]? = some (sha1 data)

/-- What a restart promises of a session. -/
structure SameSession (sha1 : List UInt8 → Hash) (b : Build) (s s' : TorrentSession) : Prop where
  infoHash : s'.infoHash = s.infoHash
  have_ : s'.pieceManager.have_ = s.pieceManager.have_
  downloaded : s'.totalDownloaded = s.totalDownloaded
  uploaded : s'.totalUploaded = s.totalUploaded
  filePriorities : s'.filePriorities = s.filePriorities
  basePath : s'.storage.basePath = s.storage.basePath
  describes : ∀ fs, s.HaveDescribes sha1 b fs → s'.HaveDescribes sha1 b fs

/-- Every session that was restored is as it was. -/
def ReloadedAs (sha1 : List UInt8 → Hash) (b : Build) (engine engine' : TorrentEngine) : Prop :=
  ∀ h s', engine'.sessions.lookup h = some s' →
    ∃ s, engine.sessions.lookup h = some s ∧ SameSession sha1 b s s'

section Priorities

namespace PieceManager

variable {b : Build} {pm pm' : PieceManager} {pp pp' : List FilePriority}

/-- The priorities of the pieces depend on nothing but the layout of the torrent. -/
theorem applyFiles_congr (hnum : pm'.numPieces = pm.numPieces)
    (hlen : pm'.pieceLength = pm.pieceLength) (pp : List FilePriority)
    (files : List (FileInfo × FilePriority)) :
    applyFiles b pm' pp files = applyFiles b pm pp files := by
  induction files generalizing pp with
  | nil => rfl
  | cons file rest ih =>
    have hfile : applyFile b pm' pp file.1 file.2 = applyFile b pm pp file.1 file.2 := by
      rw [applyFile, applyFile, hnum, hlen]
    show (applyFile b pm' pp file.1 file.2 >>= fun pp => applyFiles b pm' pp rest) =
      (applyFile b pm pp file.1 file.2 >>= fun pp => applyFiles b pm pp rest)
    rw [hfile]
    congr 1
    funext pp
    exact ih pp

end PieceManager

/-- The priorities that the pieces of a torrent get from those of its files. -/
def MetaInfo.piecePriorities (b : Build) (m : MetaInfo) (fp : List FilePriority) :
    Res (List FilePriority) :=
  m.pieceManager.applyFiles b (List.replicate m.numPieces .skip) (m.files.zip fp)

/-- The manager is one of the torrent. -/
structure PieceManager.Fits (m : MetaInfo) (pm : PieceManager) : Prop where
  numPieces : pm.numPieces = m.numPieces
  pieceLength : pm.pieceLength = m.pieceLength
  totalSize : pm.totalSize = m.totalSize
  hashes : pm.hashes = m.pieces
  have_ : pm.have_.length = m.numPieces
  piecePriorities : pm.piecePriorities.length = m.numPieces

namespace PieceManager.Fits

variable {b : Build} {m : MetaInfo} {pm pm' : PieceManager} {fp : List FilePriority}

theorem new (m : MetaInfo) : m.pieceManager.Fits m :=
  ⟨rfl, rfl, rfl, rfl, List.length_replicate, List.length_replicate⟩

theorem applyFilePriorities_eq (h : pm.Fits m) (fp : List FilePriority) :
    pm.applyFilePriorities b m.files fp =
      m.piecePriorities b fp >>= fun pp => .ok { pm with piecePriorities := pp } := by
  have hpieces : m.pieceManager.numPieces = pm.numPieces := h.numPieces.symm
  have hlength : m.pieceManager.pieceLength = pm.pieceLength := h.pieceLength.symm
  rw [PieceManager.applyFilePriorities, h.piecePriorities, MetaInfo.piecePriorities,
    PieceManager.applyFiles_congr hpieces hlength]
  rfl

theorem setPriorities (h : pm.Fits m) {pp : List FilePriority}
    (hpp : m.piecePriorities b fp = .ok pp) : Fits m { pm with piecePriorities := pp } where
  numPieces := h.numPieces
  pieceLength := h.pieceLength
  totalSize := h.totalSize
  hashes := h.hashes
  have_ := h.have_
  piecePriorities := (PieceManager.length_applyFiles hpp).trans List.length_replicate

/-- What happens to the have vector and to the pieces in progress. -/
theorem setHave (h : pm.Fits m) {bits : List Bool} (hbits : bits.length = pm.have_.length)
    (inProgress : HashMap ℕ ℕ) (avail : List ℕ) :
    Fits m { pm with have_ := bits, inProgress := inProgress, pieceAvailability := avail } where
  numPieces := h.numPieces
  pieceLength := h.pieceLength
  totalSize := h.totalSize
  hashes := h.hashes
  have_ := hbits.trans h.have_
  piecePriorities := h.piecePriorities

end PieceManager.Fits

end Priorities

namespace TorrentSession

/-- The session is one of its torrent, and its pieces have the priorities of its files. -/
structure OfTorrent (b : Build) (s : TorrentSession) : Prop where
  infoHash : s.infoHash = s.metaInfo.infoHash
  storage : s.storage.metaInfo = s.metaInfo
  fits : s.pieceManager.Fits s.metaInfo
  applied : s.metaInfo.piecePriorities b s.filePriorities = .ok s.pieceManager.piecePriorities

/-- The session has the bytes of its torrent. -/
structure FromBytes (sha1 : List UInt8 → Hash) (b : Build) (s : TorrentSession) : Prop
    extends OfTorrent b s where
  torrentBytes : ∃ data, s.torrentBytes = some data ∧
    MetaInfo.fromBytes sha1 b data = .ok s.metaInfo

variable {sha1 : List UInt8 → Hash} {b : Build} {s s' : TorrentSession} {m : MetaInfo}

/-- What `TorrentSession::new` returns. -/
theorem new_eq_ok {io : Res Unit} {dir : List UInt8} {prios : Option (List FilePriority)}
    (h : new b io m dir prios = .ok s) : s.OfTorrent b ∧ s.metaInfo = m := by
  obtain ⟨storage, hstorage, h⟩ := Outcome.bind_eq_ok.mp h
  obtain ⟨pm, hpm, h⟩ := Outcome.bind_eq_ok.mp h
  obtain rfl := Outcome.ok.inj h
  obtain ⟨_, _, hnew⟩ := Outcome.bind_eq_ok.mp hstorage
  obtain rfl := Outcome.ok.inj hnew
  change m.pieceManager.applyFilePriorities b m.files _ = .ok pm at hpm
  rw [(PieceManager.Fits.new m).applyFilePriorities_eq] at hpm
  obtain ⟨pp, hpp, hset⟩ := Outcome.bind_eq_ok.mp hpm
  obtain rfl := Outcome.ok.inj hset
  exact ⟨⟨rfl, rfl, (PieceManager.Fits.new m).setPriorities hpp, hpp⟩, rfl⟩

theorem length_loadHave (pm : PieceManager) (bits : List Bool) :
    (pm.loadHave bits).have_.length = pm.have_.length := List.length_mapIdx

namespace OfTorrent

theorem setPriorities (h : s.OfTorrent b) {fp : List FilePriority} {pm : PieceManager}
    (hpm : s.pieceManager.applyFilePriorities b s.metaInfo.files fp = .ok pm) :
    OfTorrent b { s with filePriorities := fp, pieceManager := pm } := by
  rw [h.fits.applyFilePriorities_eq] at hpm
  obtain ⟨pp, hpp, hset⟩ := Outcome.bind_eq_ok.mp hpm
  obtain rfl := Outcome.ok.inj hset
  exact ⟨h.infoHash, h.storage, h.fits.setPriorities hpp, hpp⟩

theorem setFilePriority (h : s.OfTorrent b) {i : ℕ} {p : FilePriority}
    (hset : s.setFilePriority b i p = .ok s') : s'.OfTorrent b := by
  rw [TorrentSession.setFilePriority] at hset
  split at hset
  · obtain ⟨pm, hpm, heq⟩ := Outcome.bind_eq_ok.mp hset
    obtain rfl := Outcome.ok.inj heq
    exact h.setPriorities hpm
  · obtain rfl := Outcome.ok.inj hset
    exact h

theorem setFilePriorities (h : s.OfTorrent b) {i : ℕ} {fp : List FilePriority}
    (hset : s.setFilePriorities b i fp = .ok s') : s'.OfTorrent b := by
  induction fp generalizing s i with
  | nil =>
    obtain rfl := Outcome.ok.inj hset
    exact h
  | cons p rest ih =>
    obtain ⟨mid, hmid, hrest⟩ := Outcome.bind_eq_ok.mp hset
    exact ih (h.setFilePriority hmid) hrest

/-- The have vector of a session changes, but not its length. -/
theorem setHave (h : s.OfTorrent b) {bits : List Bool}
    (hbits : bits.length = s.pieceManager.have_.length) (inProgress : HashMap ℕ ℕ)
    (avail : List ℕ) :
    OfTorrent b { s with pieceManager := { s.pieceManager with
      have_ := bits, inProgress := inProgress, pieceAvailability := avail } } :=
  ⟨h.infoHash, h.storage, h.fits.setHave hbits inProgress avail, h.applied⟩

theorem applyResume (h : s.OfTorrent b) {rd : ResumeData} (hrd : s.applyResume b rd = .ok s') :
    s'.OfTorrent b := by
  have hload : OfTorrent b { s with pieceManager := s.pieceManager.loadHave rd.havePieces } :=
    h.setHave (length_loadHave _ _) _ _
  unfold TorrentSession.applyResume at hrd
  dsimp only at hrd
  split at hrd
  · obtain ⟨pm, hpm, heq⟩ := Outcome.bind_eq_ok.mp hrd
    obtain rfl := Outcome.ok.inj heq
    have hset := hload.setPriorities hpm
    exact ⟨hset.infoHash, hset.storage, hset.fits, hset.applied⟩
  · obtain rfl := Outcome.ok.inj hrd
    exact ⟨hload.infoHash, hload.storage, hload.fits, hload.applied⟩

theorem run (h : s.OfTorrent b) {c : SessionCall} (hrun : c.run b s = .ok s') :
    s'.OfTorrent b := by
  cases c with
  | start | pause | resume | queuePause | received _ | sent _ | save _ =>
    obtain rfl := Outcome.ok.inj hrun
    exact ⟨h.infoHash, h.storage, h.fits, h.applied⟩
  | setFilePriority i p => exact h.setFilePriority hrun
  | pieceDone index =>
    obtain ⟨pm, hpm, heq⟩ := Outcome.bind_eq_ok.mp hrun
    obtain rfl := Outcome.ok.inj heq
    obtain ⟨avail, _, rfl⟩ := PieceManager.markPieceComplete_eq_ok hpm
    exact h.setHave List.length_set _ _
  | recheck index ok =>
    obtain ⟨pm, hpm, heq⟩ := Outcome.bind_eq_ok.mp hrun
    obtain rfl := Outcome.ok.inj heq
    change s.pieceManager.recheckPiece b index ok = .ok pm at hpm
    unfold PieceManager.recheckPiece at hpm
    split at hpm
    · obtain ⟨avail, _, rfl⟩ := PieceManager.markPieceComplete_eq_ok hpm
      exact h.setHave List.length_set _ _
    · obtain rfl := Outcome.ok.inj hpm
      exact h.setHave List.length_set _ _

end OfTorrent

/-- No call changes what a session was made from. -/
theorem run_keeps {c : SessionCall} (hrun : c.run b s = .ok s') :
    s'.torrentBytes = s.torrentBytes ∧ s'.metaInfo = s.metaInfo ∧ s'.infoHash = s.infoHash := by
  cases c with
  | start | pause | resume | queuePause | received _ | sent _ | save _ =>
    obtain rfl := Outcome.ok.inj hrun
    exact ⟨rfl, rfl, rfl⟩
  | pieceDone _ | recheck _ _ =>
    obtain ⟨pm, _, heq⟩ := Outcome.bind_eq_ok.mp hrun
    obtain rfl := Outcome.ok.inj heq
    exact ⟨rfl, rfl, rfl⟩
  | setFilePriority i p =>
    change s.setFilePriority b i p = .ok s' at hrun
    rw [setFilePriority] at hrun
    split at hrun
    · obtain ⟨pm, _, heq⟩ := Outcome.bind_eq_ok.mp hrun
      obtain rfl := Outcome.ok.inj heq
      exact ⟨rfl, rfl, rfl⟩
    · obtain rfl := Outcome.ok.inj hrun
      exact ⟨rfl, rfl, rfl⟩

theorem metaInfo_setFilePriorities {i : ℕ} {fp : List FilePriority}
    (hset : s.setFilePriorities b i fp = .ok s') : s'.metaInfo = s.metaInfo := by
  induction fp generalizing s i with
  | nil =>
    obtain rfl := Outcome.ok.inj hset
    rfl
  | cons p rest ih =>
    obtain ⟨mid, hmid, hrest⟩ := Outcome.bind_eq_ok.mp hset
    exact (ih hrest).trans (run_keeps (c := .setFilePriority i p) hmid).2.1

theorem metaInfo_applyResume {rd : ResumeData} (hrd : s.applyResume b rd = .ok s') :
    s'.metaInfo = s.metaInfo := by
  unfold applyResume at hrd
  dsimp only at hrd
  split at hrd
  · obtain ⟨pm, _, heq⟩ := Outcome.bind_eq_ok.mp hrd
    obtain rfl := Outcome.ok.inj heq
    rfl
  · obtain rfl := Outcome.ok.inj hrd
    rfl

theorem FromBytes.run (h : s.FromBytes sha1 b) {c : SessionCall} (hrun : c.run b s = .ok s') :
    s'.FromBytes sha1 b := by
  obtain ⟨hbytes, hmeta, _⟩ := run_keeps hrun
  refine ⟨h.toOfTorrent.run hrun, ?_⟩
  rw [hbytes, hmeta]
  exact h.torrentBytes

/-- The manager that the record of a session is loaded into. -/
def reloadedPieces (s : TorrentSession) : PieceManager :=
  { s.metaInfo.pieceManager with
    have_ := s.pieceManager.have_
    piecePriorities := s.pieceManager.piecePriorities }

/-- The session that is made of the record of a session. -/
def reloaded (s : TorrentSession) (dir : List UInt8) (now : ℤ) : TorrentSession :=
  let prev := (s.snapshotResume now).2.prevState
  { infoHash := s.metaInfo.infoHash
    metaInfo := s.metaInfo
    pieceManager := s.reloadedPieces
    storage := ⟨dir, s.metaInfo⟩
    state := if prev = .paused then .paused
      else if s.reloadedPieces.isComplete then .seeding
      else .downloading
    paused := prev = .paused
    started := false
    totalDownloaded := s.totalDownloaded
    totalUploaded := s.totalUploaded
    filePriorities := s.filePriorities
    completedTime := none
    torrentBytes := s.torrentBytes
    queuePaused := false }

/-- The session before the record is applied to it. -/
def fresh (s : TorrentSession) (dir : List UInt8) : TorrentSession :=
  { s.reloaded dir 0 with
    pieceManager :=
      { s.metaInfo.pieceManager with piecePriorities := s.pieceManager.piecePriorities }
    state := .downloading
    paused := false
    totalDownloaded := 0
    totalUploaded := 0
    torrentBytes := none }

theorem loadHave_eq (pm : PieceManager) {bits : List Bool} (h : bits.length = pm.have_.length) :
    pm.loadHave bits = { pm with have_ := bits } := by
  have hbits : pm.have_.mapIdx (fun i old => bits[i]?.getD old) = bits := by
    apply List.ext_getElem
    · rw [List.length_mapIdx, h]
    · intro i _ hi
      rw [List.getElem_mapIdx, List.getElem?_eq_getElem hi, Option.getD_some]
  rw [PieceManager.loadHave, hbits]

/-- A record with the priorities that the session has already. -/
theorem applyResume_eq {rd : ResumeData} {pm : PieceManager}
    (hload : s.pieceManager.loadHave rd.havePieces = pm)
    (hfp : rd.filePriorities = s.filePriorities)
    (happly : pm.applyFilePriorities b s.metaInfo.files s.filePriorities = .ok pm) :
    s.applyResume b rd = .ok { s with
      pieceManager := pm
      totalDownloaded := rd.downloaded
      totalUploaded := rd.uploaded
      paused := rd.prevState = .paused
      state := if rd.prevState = .paused then .paused
        else if pm.isComplete then .seeding
        else .downloading } := by
  unfold TorrentSession.applyResume
  dsimp only
  rw [hload, hfp]
  split
  · rw [happly]
    rfl
  · rfl

namespace OfTorrent

/-- The priorities that the pieces had are given to the pieces of a new manager. -/
theorem applyFilePriorities_new (h : s.OfTorrent b) :
    s.metaInfo.pieceManager.applyFilePriorities b s.metaInfo.files s.filePriorities =
      .ok { s.metaInfo.pieceManager with piecePriorities := s.pieceManager.piecePriorities } := by
  rw [(PieceManager.Fits.new s.metaInfo).applyFilePriorities_eq, h.applied]
  rfl

/-- They are given again when the record is applied. -/
theorem applyFilePriorities_reloaded (h : s.OfTorrent b) :
    s.reloadedPieces.applyFilePriorities b s.metaInfo.files s.filePriorities =
      .ok s.reloadedPieces := by
  have hfits : s.reloadedPieces.Fits s.metaInfo :=
    ⟨rfl, rfl, rfl, rfl, h.fits.have_, h.fits.piecePriorities⟩
  rw [hfits.applyFilePriorities_eq, h.applied]
  rfl

theorem new_eq (h : s.OfTorrent b) (dir : List UInt8) :
    TorrentSession.new b (.ok ()) s.metaInfo dir (some s.filePriorities) = .ok (s.fresh dir) := by
  have happly : PieceManager.applyFilePriorities b (.new s.metaInfo.numPieces
      s.metaInfo.pieceLength s.metaInfo.totalSize s.metaInfo.pieces) s.metaInfo.files
        s.filePriorities = _ := h.applyFilePriorities_new
  rw [TorrentSession.new, DiskStorage.new, Outcome.ok_bind, Outcome.pure_eq, Outcome.ok_bind,
    Option.getD_some, happly]
  rfl

/-- A record is loaded when the files can be created. -/
theorem resumeSession_eq (h : s.OfTorrent b) {data : Bytes} (hdata : s.torrentBytes = some data)
    (hparse : MetaInfo.fromBytes sha1 b data = .ok s.metaInfo) {io : MetaInfo → Res Unit}
    (hio : io s.metaInfo = .ok ()) (engine : TorrentEngine) (now : ℤ) :
    engine.resumeSession sha1 b io (s.snapshotResume now).2 data =
      .ok (s.reloaded engine.downloadDir now) := by
  have hload : (s.fresh engine.downloadDir).pieceManager.loadHave s.pieceManager.have_ =
      s.reloadedPieces := by
    rw [loadHave_eq]
    · rfl
    · exact h.fits.have_.trans List.length_replicate.symm
  have happlied := @applyResume_eq _ _ (s.snapshotResume now).2 _ hload rfl
    h.applyFilePriorities_reloaded
  rw [TorrentEngine.resumeSession, hparse, Outcome.ok_bind, hio]
  show (TorrentSession.new b (.ok ()) s.metaInfo engine.downloadDir (some s.filePriorities) >>=
    fun session => session.applyResume b (s.snapshotResume now).2 >>= fun session =>
      .ok (session.setTorrentBytes data)) = _
  rw [h.new_eq, Outcome.ok_bind, happlied, Outcome.ok_bind, setTorrentBytes, ← hdata]
  rfl

/-- What is loaded is a session of the torrent again. -/
theorem reloaded (h : s.OfTorrent b) (dir : List UInt8) (now : ℤ) :
    (s.reloaded dir now).OfTorrent b :=
  ⟨rfl, rfl, ⟨rfl, rfl, rfl, rfl, h.fits.have_, h.fits.piecePriorities⟩, h.applied⟩

end OfTorrent

/-- Without its files a record is not loaded. -/
theorem resumeSession_err {data : Bytes} (hparse : MetaInfo.fromBytes sha1 b data = .ok m)
    {io : MetaInfo → Res Unit} {e : TorrentError} (hio : io m = .err e) (engine : TorrentEngine)
    (rd : ResumeData) : engine.resumeSession sha1 b io rd data = .err e := by
  rw [TorrentEngine.resumeSession, hparse, Outcome.ok_bind, hio]
  rfl

end TorrentSession

namespace TorrentEngine

variable {sha1 : List UInt8 → Hash} {b : Build} {engine : TorrentEngine} {r : Reload}

/-- Every session of the engine was made from the bytes of its torrent. -/
def Sound (sha1 : List UInt8 → Hash) (b : Build) (engine : TorrentEngine) : Prop :=
  ∀ h s, engine.sessions.lookup h = some s → s.infoHash = h ∧ s.FromBytes sha1 b

/-- What is found under a hash after the records were loaded. -/
def reloadedAt (r : Reload) (engine : TorrentEngine) (h : Hash) : Option TorrentSession :=
  (engine.sessions.lookup h).bind fun s =>
    if r.createError s.metaInfo = none then some (s.reloaded r.downloadDir (r.clock h)) else none

/-- The record of a session is loaded under its hash, if its files can be created. -/
theorem loadRecord_saved {h : Hash} {s : TorrentSession} (hs : s.infoHash = h)
    (hbytes : s.FromBytes sha1 b) {acc : TorrentEngine × List Hash}
    (hdir : acc.1.downloadDir = r.downloadDir) :
    ∃ acc', loadRecord sha1 b r.io acc (s.snapshotResume (r.clock h)).2 = .ok acc' ∧
      acc'.1.downloadDir = r.downloadDir ∧
      ∀ k, acc'.1.sessions.lookup k =
        if k = h ∧ r.createError s.metaInfo = none then some (s.reloaded r.downloadDir (r.clock h))
        else acc.1.sessions.lookup k := by
  obtain ⟨data, hdata, hparse⟩ := hbytes.torrentBytes
  have hrecord : (s.snapshotResume (r.clock h)).2.torrentBytes = some data := hdata
  rw [loadRecord, hrecord]
  dsimp only
  cases hcreate : r.createError s.metaInfo with
  | some e =>
    have hio : r.io s.metaInfo = .err e := by rw [Reload.io, hcreate]
    rw [TorrentSession.resumeSession_err hparse hio]
    exact ⟨acc, rfl, hdir, fun k => by rw [if_neg (by simp)]⟩
  | none =>
    have hio : r.io s.metaInfo = .ok () := by rw [Reload.io, hcreate]
    rw [hbytes.resumeSession_eq hdata hparse hio, hdir]
    refine ⟨_, rfl, rfl, ?_⟩
    intro k
    have hkey : (s.reloaded r.downloadDir (r.clock h)).infoHash = h := hbytes.infoHash.symm.trans hs
    dsimp only
    rw [HashMap.lookup_insert_eq, hkey]
    simp only [and_true]

/-- The records are loaded one after another, each under a hash of its own. -/
theorem loadRecords_saved (hsound : engine.Sound sha1 b) {order : List Hash} (hnodup : order.Nodup)
    {acc : TorrentEngine × List Hash} (hdir : acc.1.downloadDir = r.downloadDir)
    (hfresh : ∀ h ∈ order, acc.1.sessions.lookup h = none) :
    ∃ acc', loadRecords sha1 b r.io (order.filterMap fun h => (engine.sessions.lookup h).map
        fun s => (s.snapshotResume (r.clock h)).2) acc = .ok acc' ∧
      acc'.1.downloadDir = r.downloadDir ∧
      ∀ k, acc'.1.sessions.lookup k =
        if k ∈ order then reloadedAt r engine k else acc.1.sessions.lookup k := by
  induction order generalizing acc with
  | nil => exact ⟨acc, rfl, hdir, fun k => by simp⟩
  | cons h order ih =>
    obtain ⟨hnew, hnodup⟩ := List.nodup_cons.mp hnodup
    cases hs : engine.sessions.lookup h with
    | none =>
      rw [List.filterMap_cons_none (by rw [hs]; rfl)]
      obtain ⟨acc', hrun, hdir', hlookup⟩ :=
        ih hnodup hdir fun k hk => hfresh k (List.mem_cons_of_mem _ hk)
      refine ⟨acc', hrun, hdir', ?_⟩
      intro k
      rw [hlookup]
      by_cases hk : k = h
      · subst hk
        rw [if_neg hnew, if_pos List.mem_cons_self, reloadedAt, hs, hfresh k List.mem_cons_self]
        rfl
      · simp only [List.mem_cons, hk, false_or]
    | some s =>
      obtain ⟨hhash, hbytes⟩ := hsound h s hs
      obtain ⟨mid, hmid, hmiddir, hmidlookup⟩ := loadRecord_saved (r := r) hhash hbytes hdir
      rw [List.filterMap_cons_some (by rw [hs]; rfl)]
      have hfresh' : ∀ k ∈ order, mid.1.sessions.lookup k = none := by
        intro k hk
        have hne : k ≠ h := fun heq => hnew (heq ▸ hk)
        rw [hmidlookup, if_neg (fun hand => hne hand.1)]
        exact hfresh k (List.mem_cons_of_mem _ hk)
      obtain ⟨acc', hrun, hdir', hlookup⟩ := ih hnodup hmiddir hfresh'
      refine ⟨acc', ?_, hdir', ?_⟩
      · show (loadRecord sha1 b r.io acc _ >>= fun mid => loadRecords sha1 b r.io _ mid) = _
        rw [hmid, Outcome.ok_bind, hrun]
      · intro k
        rw [hlookup, hmidlookup]
        by_cases hk : k = h
        · subst hk
          rw [if_neg hnew, if_pos List.mem_cons_self, reloadedAt, hs, hfresh k List.mem_cons_self]
          simp only [true_and, Option.bind_some]
        · simp only [List.mem_cons, hk, false_or, false_and, if_false]

/-- The sessions after a restart. -/
theorem Sound.reload_eq (hsound : engine.Sound sha1 b)
    (horder : r.order.Perm engine.sessions.keys) :
    ∃ engine' toStart, engine.reload sha1 b r = .ok (engine', toStart) ∧
      ∀ h, engine'.sessions.lookup h = reloadedAt r engine h := by
  have hnodup : r.order.Nodup := horder.nodup_iff.mpr engine.sessions.nodupKeys
  have hempty (h : Hash) (_ : h ∈ r.order) :
      (TorrentEngine.new r.downloadDir).sessions.lookup h = none := AList.lookup_empty h
  obtain ⟨acc, hrun, _, hlookup⟩ :=
    @loadRecords_saved _ _ _ r hsound _ hnodup (.new r.downloadDir, []) rfl hempty
  refine ⟨acc.1, acc.2, hrun, ?_⟩
  intro h
  rw [hlookup]
  split
  · rfl
  · next hmem =>
    have hnone : engine.sessions.lookup h = none := by
      rw [AList.lookup_eq_none]
      exact fun hkey => hmem (horder.mem_iff.mpr hkey)
    rw [reloadedAt, hnone]
    exact AList.lookup_empty h

/-- A session that was loaded was there before, and its files could be created. -/
theorem reloadedAt_eq_some {h : Hash} {s' : TorrentSession} :
    reloadedAt r engine h = some s' ↔ ∃ s, engine.sessions.lookup h = some s ∧
      r.createError s.metaInfo = none ∧ s.reloaded r.downloadDir (r.clock h) = s' := by
  rw [reloadedAt, Option.bind_eq_some_iff]
  simp only [Option.ite_none_right_eq_some, Option.some.injEq]

theorem sound_new (dir : List UInt8) : (new dir).Sound sha1 b := by
  intro h s hs
  rw [new, AList.lookup_empty] at hs
  cases hs

namespace Sound

variable {engine' : TorrentEngine}

/-- A session is put under its hash. -/
theorem insert (hsound : engine.Sound sha1 b) {s : TorrentSession} {h : Hash}
    (hhash : s.infoHash = h) (hs : s.FromBytes sha1 b) :
    Sound sha1 b { engine with sessions := engine.sessions.insert h s } := by
  intro k s' hs'
  rw [HashMap.lookup_insert_eq] at hs'
  split at hs'
  · next heq =>
    obtain rfl := Option.some.inj hs'
    exact ⟨hhash.trans heq.symm, hs⟩
  · exact hsound k s' hs'

/-- The end of `add_torrent_from_bytes`, which a torrent with a record and one without share. -/
theorem insert_prepared (hsound : engine.Sound sha1 b) {data : Bytes} {m : MetaInfo}
    (hparse : MetaInfo.fromBytes sha1 b data = .ok m) {s s' : TorrentSession}
    (hof : s.OfTorrent b) (hmeta : s.metaInfo = m) {fp : List FilePriority}
    (hset : s.setFilePriorities b 0 fp = .ok s') (now : ℤ) :
    Sound sha1 b { engine with
      sessions := engine.sessions.insert m.infoHash
        ((s'.setTorrentBytes data).snapshotResume now).1 } := by
  have hof' := hof.setFilePriorities hset
  have hmeta' : s'.metaInfo = m := (TorrentSession.metaInfo_setFilePriorities hset).trans hmeta
  have hsaved : TorrentSession.OfTorrent b ((s'.setTorrentBytes data).snapshotResume now).1 :=
    ⟨hof'.infoHash, hof'.storage, hof'.fits, hof'.applied⟩
  refine hsound.insert ?_ ⟨hsaved, data, rfl, ?_⟩
  · rw [← hmeta']
    exact hof'.infoHash
  · show MetaInfo.fromBytes sha1 b data = .ok s'.metaInfo
    rw [hmeta', hparse]

theorem addTorrentFromBytes (hsound : engine.Sound sha1 b) {io : Res Unit}
    {existing : Option ResumeData} {now : ℤ} {data : Bytes} {dir : Option (List UInt8)}
    {prios : Option (List FilePriority)} {h : Hash}
    (hadd : engine.addTorrentFromBytes sha1 b io existing now data dir prios = .ok (engine', h)) :
    engine'.Sound sha1 b := by
  obtain ⟨m, hparse, hadd⟩ := Outcome.bind_eq_ok.mp hadd
  split at hadd
  · obtain ⟨rfl, _⟩ := Prod.mk.inj (Outcome.ok.inj hadd)
    exact hsound
  · obtain ⟨s, hnew, hadd⟩ := Outcome.bind_eq_ok.mp hadd
    obtain ⟨hof, hmeta⟩ := TorrentSession.new_eq_ok hnew
    cases existing with
    | none =>
      change (s.setFilePriorities b 0 (prios.getD []) >>= _) = _ at hadd
      obtain ⟨s', hset, heq⟩ := Outcome.bind_eq_ok.mp hadd
      obtain ⟨rfl, _⟩ := Prod.mk.inj (Outcome.ok.inj heq)
      exact hsound.insert_prepared hparse hof hmeta hset now
    | some rd =>
      obtain ⟨mid, hresume, hadd⟩ := Outcome.bind_eq_ok.mp hadd
      obtain ⟨s', hset, heq⟩ := Outcome.bind_eq_ok.mp hadd
      obtain ⟨rfl, _⟩ := Prod.mk.inj (Outcome.ok.inj heq)
      have hmeta' := (TorrentSession.metaInfo_applyResume hresume).trans hmeta
      exact hsound.insert_prepared hparse (hof.applyResume hresume) hmeta' hset now

theorem step (hsound : engine.Sound sha1 b) {e : EngineEvent}
    (hstep : engine.step sha1 b e = some engine') : engine'.Sound sha1 b := by
  cases e with
  | add data dir prios existing io now =>
    obtain ⟨⟨engine'', h⟩, hadd, rfl⟩ := Option.map_eq_some_iff.mp hstep
    exact hsound.addTorrentFromBytes (Outcome.toOption_eq_some.mp hadd)
  | call h c =>
    obtain ⟨s, hs, hstep⟩ := Option.bind_eq_some_iff.mp hstep
    obtain ⟨s', hrun, hstep⟩ := Option.bind_eq_some_iff.mp hstep
    obtain rfl := Option.some.inj hstep
    have hcall := Outcome.toOption_eq_some.mp hrun
    obtain ⟨hhash, hbytes⟩ := hsound h s hs
    intro k t ht
    by_cases hk : k = h
    · subst hk
      rw [HashMap.lookup_modify_self, hs] at ht
      obtain rfl := Option.some.inj ht
      exact ⟨(TorrentSession.run_keeps hcall).2.2.trans hhash, hbytes.run hcall⟩
    · rw [HashMap.lookup_modify_ne hk] at ht
      exact hsound k t ht
  | remove h =>
    obtain rfl := Option.some.inj hstep
    intro k s hs
    rw [HashMap.lookup_erase_eq] at hs
    split at hs
    · cases hs
    · exact hsound k s hs
  | applyConfig dir =>
    obtain rfl := Option.some.inj hstep
    exact hsound
  | reload r =>
    obtain ⟨horder, hstep⟩ := Option.ite_none_right_eq_some.mp hstep
    obtain ⟨⟨engine'', toStart⟩, hreload, rfl⟩ := Option.map_eq_some_iff.mp hstep
    obtain ⟨engine₁, toStart₁, hload, hlookup⟩ := hsound.reload_eq horder
    rw [hload] at hreload
    obtain ⟨rfl, _⟩ := Prod.mk.inj (Option.some.inj hreload)
    intro h s' hs'
    rw [hlookup] at hs'
    obtain ⟨s, hs, _, rfl⟩ := reloadedAt_eq_some.mp hs'
    obtain ⟨hhash, hbytes⟩ := hsound h s hs
    exact ⟨hbytes.infoHash.symm.trans hhash, hbytes.toOfTorrent.reloaded _ _, hbytes.torrentBytes⟩

end Sound

end TorrentEngine

section Reload

variable {sha1 : List UInt8 → Hash} {b : Build} {engine : TorrentEngine} {r : Reload}
  {s : TorrentSession}

/-- What is loaded is what was there before, but for the directory. -/
theorem sameSession_reloaded_iff (h : s.OfTorrent b) (dir : List UInt8) (now : ℤ) :
    SameSession sha1 b s (s.reloaded dir now) ↔ s.storage.basePath = dir := by
  constructor
  · intro hsame
    exact hsame.basePath.symm
  · rintro rfl
    have hstorage : (s.reloaded s.storage.basePath now).storage = s.storage := by
      show DiskStorage.mk s.storage.basePath s.metaInfo = s.storage
      rw [← h.storage]
    refine ⟨h.infoHash.symm, rfl, rfl, rfl, rfl, rfl, ?_⟩
    intro fs hdescribes i hi
    obtain ⟨size, data, hsize, hread, hhash⟩ := hdescribes i hi
    refine ⟨size, data, ?_, ?_, ?_⟩
    · rw [← hsize, PieceManager.pieceSize, PieceManager.pieceSize, h.fits.numPieces,
        h.fits.totalSize, h.fits.pieceLength]
      rfl
    · rw [hstorage]
      exact hread
    · rw [← hhash, h.fits.hashes]
      rfl

theorem sound_of_run (hrun : (engineRuns sha1 b).Reachable System.unguarded engine) :
    engine.Sound sha1 b := by
  have hinv : (engineRuns sha1 b).Invariant System.unguarded (TorrentEngine.Sound sha1 b) := by
    refine ⟨?_, fun _ _ _ h _ hstep => h.step hstep⟩
    rintro engine ⟨dir, rfl⟩
    exact TorrentEngine.sound_new dir
  exact hinv.reachable hrun

/-- The sessions that a restart restores are as they were exactly when their files are below the
directory that is configured at the restart. -/
theorem reloadedAs_iff (hrun : (engineRuns sha1 b).Reachable System.unguarded engine)
    (horder : r.order.Perm engine.sessions.keys) :
    ∃ engine' toStart, engine.reload sha1 b r = .ok (engine', toStart) ∧
      (∀ h, h ∈ engine'.sessions ↔
        ∃ s, engine.sessions.lookup h = some s ∧ r.createError s.metaInfo = none) ∧
      (ReloadedAs sha1 b engine engine' ↔
        ∀ h s, engine.sessions.lookup h = some s → r.createError s.metaInfo = none →
          s.storage.basePath = r.downloadDir) := by
  have hsound := sound_of_run hrun
  obtain ⟨engine', toStart, hload, hlookup⟩ := hsound.reload_eq horder
  refine ⟨engine', toStart, hload, ?_, ?_⟩
  · intro h
    rw [← AList.lookup_isSome, hlookup, Option.isSome_iff_exists]
    simp only [TorrentEngine.reloadedAt_eq_some]
    constructor
    · rintro ⟨_, s, hs, hcreate, _⟩
      exact ⟨s, hs, hcreate⟩
    · rintro ⟨s, hs, hcreate⟩
      exact ⟨_, s, hs, hcreate, rfl⟩
  · constructor
    · intro hsame h s hs hcreate
      obtain ⟨s₀, hs₀, hsame⟩ := hsame h (s.reloaded r.downloadDir (r.clock h)) (by
        rw [hlookup]
        exact TorrentEngine.reloadedAt_eq_some.mpr ⟨s, hs, hcreate, rfl⟩)
      obtain rfl := Option.some.inj (hs.symm.trans hs₀)
      exact (sameSession_reloaded_iff (hsound h s hs).2.toOfTorrent _ _).mp hsame
    · intro hdirs h s' hs'
      rw [hlookup] at hs'
      obtain ⟨s, hs, hcreate, rfl⟩ := TorrentEngine.reloadedAt_eq_some.mp hs'
      exact ⟨s, hs, (sameSession_reloaded_iff (hsound h s hs).2.toOfTorrent _ _).mpr
        (hdirs h s hs hcreate)⟩

/-- Where the engine of the examples keeps its torrents. -/
def sampleDir : List UInt8 := Str.asciiBytes "/downloads"

/-- A torrent is added, its first piece is downloaded and it is paused and changed. -/
def sampleCalls (downloadDir : Option (List UInt8)) : List EngineEvent :=
  [.add sampleTorrent downloadDir none none (.ok ()) 0, .call sampleHash .start,
    .call sampleHash (.received 2), .call sampleHash (.pieceDone 0),
    .call sampleHash (.setFilePriority 0 .high), .call sampleHash .pause]

/-- A restart with the torrent at which every file can be created. -/
def sampleReload : Reload where
  order := [sampleHash]
  clock _ := 60
  createError _ := none
  downloadDir := sampleDir

theorem reloadedAs_sampleTorrent :
    ∃ engine engine' toStart,
      (engineRuns (fun _ => sampleHash) .debug).Reachable System.unguarded engine ∧
      (engine.sessions.lookup sampleHash).any (fun s => s.pieceManager.have_ = [true, false] ∧
        s.filePriorities = [.high] ∧ s.totalDownloaded = 2 ∧ s.paused) = true ∧
      engine.reload (fun _ => sampleHash) .debug sampleReload = .ok (engine', toStart) ∧
      ReloadedAs (fun _ => sampleHash) .debug engine engine' := by
  have hany : (System.runWhile (TorrentEngine.step (fun _ => sampleHash) .debug) (fun _ _ => true)
      (.new sampleDir) (sampleCalls none)).any (fun engine => decide (
        (engine.sessions.lookup sampleHash).any (fun s => s.pieceManager.have_ = [true, false] ∧
          s.filePriorities = [.high] ∧ s.totalDownloaded = 2 ∧ s.paused) = true ∧
        engine.sessions.keys = [sampleHash] ∧
        ∀ e ∈ engine.sessions.entries, e.2.storage.basePath = sampleDir)) = true := by
    decide +kernel
  obtain ⟨engine, hrun, hs⟩ := (Option.any_eq_true _ _).mp hany
  obtain ⟨hholds, hkeys, hdirs⟩ := of_decide_eq_true hs
  have hreach : (engineRuns (fun _ => sampleHash) .debug).Reachable System.unguarded engine :=
    System.runWhile_reachable (fun _ _ _ h => h) (fun _ _ _ => trivial) (.init ⟨_, rfl⟩) hrun
  have horder : sampleReload.order.Perm engine.sessions.keys := by
    rw [hkeys]
    rfl
  obtain ⟨engine', toStart, hload, _, hiff⟩ := reloadedAs_iff hreach horder
  refine ⟨engine, engine', toStart, hreach, hholds, hload, hiff.mpr ?_⟩
  intro h s hlookup _
  exact hdirs ⟨h, s⟩ (AList.mem_lookup_iff.mp hlookup)

/-- A torrent that was added below another directory is restored below the configured one, with
the bits of the pieces that it had in the other. -/
theorem reloaded_elsewhere :
    ∃ engine engine' toStart s s',
      (engineRuns (fun _ => sampleHash) .debug).Reachable System.unguarded engine ∧
      engine.reload (fun _ => sampleHash) .debug sampleReload = .ok (engine', toStart) ∧
      engine.sessions.lookup sampleHash = some s ∧ engine'.sessions.lookup sampleHash = some s' ∧
      s.pieceManager.have_ = [true, false] ∧ s'.pieceManager.have_ = [true, false] ∧
      s.storage.basePath = Str.asciiBytes "/data" ∧
      s'.storage.basePath = Str.asciiBytes "/downloads" ∧
      ¬ ReloadedAs (fun _ => sampleHash) .debug engine engine' := by
  have hany : (System.runWhile (TorrentEngine.step (fun _ => sampleHash) .debug) (fun _ _ => true)
      (.new sampleDir) (sampleCalls (some (Str.asciiBytes "/data")))).any (fun engine => decide (
        engine.sessions.keys = [sampleHash] ∧
        (engine.sessions.lookup sampleHash).any (fun s => s.pieceManager.have_ = [true, false] ∧
          s.storage.basePath = Str.asciiBytes "/data") = true)) = true := by
    decide +kernel
  obtain ⟨engine, hrun, hs⟩ := (Option.any_eq_true _ _).mp hany
  obtain ⟨hkeys, hlookup⟩ := of_decide_eq_true hs
  obtain ⟨s, hsession, hdecided⟩ := (Option.any_eq_true _ _).mp hlookup
  obtain ⟨hhave, hbase⟩ := of_decide_eq_true hdecided
  have hreach : (engineRuns (fun _ => sampleHash) .debug).Reachable System.unguarded engine :=
    System.runWhile_reachable (fun _ _ _ h => h) (fun _ _ _ => trivial) (.init ⟨_, rfl⟩) hrun
  have hsound := sound_of_run hreach
  have horder : sampleReload.order.Perm engine.sessions.keys := by
    rw [hkeys]
    rfl
  obtain ⟨engine', toStart, hload, hreloaded⟩ := hsound.reload_eq horder
  have hrestored : engine'.sessions.lookup sampleHash = some (s.reloaded sampleDir 60) := by
    rw [hreloaded]
    exact TorrentEngine.reloadedAt_eq_some.mpr ⟨s, hsession, rfl, rfl⟩
  refine ⟨engine, engine', toStart, s, s.reloaded sampleDir 60, hreach, hload, hsession, hrestored,
    hhave, hhave, hbase, rfl, ?_⟩
  intro hsame
  obtain ⟨s₀, hs₀, hsession₀⟩ := hsame sampleHash _ hrestored
  obtain rfl := Option.some.inj (hsession.symm.trans hs₀)
  have hdir := hbase.symm.trans
    ((sameSession_reloaded_iff (hsound sampleHash s hsession).2.toOfTorrent _ _).mp hsession₀)
  exact absurd hdir (by decide)

end Reload

end Retorrent

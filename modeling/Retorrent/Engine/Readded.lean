import Retorrent.Engine.Reload

/-!
# Torrents that are added again

`add_torrent_from_bytes` for a torrent with a resume record: the record is loaded, applied to a new
session, and the snapshot of that session is saved over it. The new session has not been started,
and it does not know when its torrent was added or completed.
-/

namespace Retorrent

open Rust

/-- The session that `add_torrent_from_bytes` makes, before its snapshot. `existing` is the record
that `load_from_dir` finds. -/
def TorrentSession.added (b : Build) (io : Res Unit) (existing : Option ResumeData)
    (metaInfo : MetaInfo) (dir : List UInt8) (data : Bytes)
    (filePriorities : Option (List FilePriority)) : Res TorrentSession := do
  let session ← TorrentSession.new b io metaInfo dir filePriorities
  let session ← match existing with
    | some rd => session.applyResume b rd
    | none => .ok session
  let session ← session.setFilePriorities b 0 (filePriorities.getD [])
  return session.setTorrentBytes data

/-- `add_torrent_from_bytes` with the directory of the resume records. A call that does not return
`Ok` has saved nothing. -/
def TorrentEngine.addTorrentFromBytesIn (sha1 : List UInt8 → Hash) (b : Build) (io : Res Unit)
    (serde : Serde) (now : ℤ) (engine : TorrentEngine) (resumeDir : Dir) (data : Bytes)
    (downloadDir : Option (List UInt8)) (filePriorities : Option (List FilePriority)) :
    Dir × Res (TorrentEngine × Hash) :=
  let made : Res (MetaInfo × Option TorrentSession) := do
    let metaInfo ← MetaInfo.fromBytes sha1 b data
    if engine.sessions.containsKey metaInfo.infoHash then return (metaInfo, none)
    else do
      let session ← TorrentSession.added b io
        (ResumeData.loadFromDir serde (toHex metaInfo.infoHash) resumeDir) metaInfo
        (downloadDir.getD engine.downloadDir) data filePriorities
      return (metaInfo, some session)
  match made with
  | .ok (metaInfo, none) => (resumeDir, .ok (engine, metaInfo.infoHash))
  | .ok (metaInfo, some session) =>
    let (session, rd) := session.snapshotResume now
    (rd.saveToDir serde resumeDir,
      .ok ({ engine with sessions := engine.sessions.insert metaInfo.infoHash session },
        metaInfo.infoHash))
  | .err e => (resumeDir, .err e)
  | .panic c => (resumeDir, .panic c)
  | .hang => (resumeDir, .hang)

namespace ResumeData

/-- The fields of a record that adding its torrent again should not change. -/
structure SameRecord (rd rd' : ResumeData) : Prop where
  havePieces : rd'.havePieces = rd.havePieces
  downloaded : rd'.downloaded = rd.downloaded
  uploaded : rd'.uploaded = rd.uploaded
  filePriorities : rd'.filePriorities = rd.filePriorities
  addedTime : rd'.addedTime = rd.addedTime
  completedTime : rd'.completedTime = rd.completedTime
  prevState : rd'.prevState = rd.prevState

/-- What is stored under a hash stays the same. -/
def Kept (serde : Serde) (h : Str) (dir dir' : Dir) : Prop :=
  ∀ rd, loadFromDir serde h dir = some rd →
    ∃ rd', loadFromDir serde h dir' = some rd' ∧ SameRecord rd rd'

/-- Every piece is there. -/
def Whole (rd : ResumeData) : Prop := rd.havePieces ≠ [] ∧ false ∉ rd.havePieces

instance (rd : ResumeData) : Decidable rd.Whole := inferInstanceAs (Decidable (_ ∧ _))

/-- The vectors of the record have the lengths of the torrent. -/
structure Matches (rd : ResumeData) (m : MetaInfo) : Prop where
  havePieces : rd.havePieces.length = m.numPieces
  filePriorities : rd.filePriorities.length = m.files.length

/-- The record that is saved over the other one at the time `now`. -/
def readded (rd : ResumeData) (m : MetaInfo) (data : Bytes) (now : ℤ) : ResumeData where
  infoHash := toHex m.infoHash
  havePieces := rd.havePieces
  downloaded := rd.downloaded
  uploaded := rd.uploaded
  filePriorities := rd.filePriorities
  addedTime := now
  completedTime := if rd.Whole then some now else none
  torrentBytes := some data
  prevState := .paused

/-- The record says what the snapshot of a new session says. -/
structure SavedAt (rd : ResumeData) (now : ℤ) : Prop where
  addedTime : rd.addedTime = now
  completedTime : rd.completedTime = if rd.Whole then some now else none
  prevState : rd.prevState = .paused

variable {rd : ResumeData} {m : MetaInfo} {data : Bytes} {now : ℤ}

variable (m data) in
theorem sameRecord_readded : rd.SameRecord (rd.readded m data now) ↔ rd.SavedAt now := by
  constructor
  · exact fun h => ⟨h.addedTime.symm, h.completedTime.symm, h.prevState.symm⟩
  · exact fun h => ⟨rfl, rfl, rfl, rfl, h.addedTime.symm, h.completedTime.symm, h.prevState.symm⟩

end ResumeData

/-- A call of `add_torrent_from_bytes` gets to its end: the torrent is new to the engine, its files
can be created, and the priorities of its pieces follow those of the files. -/
structure TorrentEngine.Takes (b : Build) (io : Res Unit) (engine : TorrentEngine) (m : MetaInfo)
    (rd : ResumeData) : Prop where
  new : engine.sessions.containsKey m.infoHash = false
  created : io = .ok ()
  fresh : ∃ pp, m.piecePriorities b (List.replicate m.files.length .normal) = .ok pp
  restored : ∃ pp, m.piecePriorities b rd.filePriorities = .ok pp

namespace TorrentSession

variable {b : Build} {io : Res Unit} {m : MetaInfo} {dir : List UInt8} {s s' : TorrentSession}
  {rd : ResumeData} {pp : List FilePriority}

/-- What `new` makes of a torrent without priorities. -/
def ofPriorities (m : MetaInfo) (dir : List UInt8) (pp : List FilePriority) : TorrentSession where
  infoHash := m.infoHash
  metaInfo := m
  pieceManager := { m.pieceManager with piecePriorities := pp }
  storage := ⟨dir, m⟩
  state := .downloading
  paused := false
  started := false
  totalDownloaded := 0
  totalUploaded := 0
  filePriorities := List.replicate m.files.length .normal
  completedTime := none
  torrentBytes := none
  queuePaused := false

theorem new_none_eq_ok : new b io m dir none = .ok s ↔ io = .ok () ∧ ∃ pp,
    m.piecePriorities b (List.replicate m.files.length .normal) = .ok pp ∧
      s = ofPriorities m dir pp := by
  have hpieces : PieceManager.applyFilePriorities b (.new m.numPieces m.pieceLength m.totalSize
      m.pieces) m.files (List.replicate m.files.length .normal) = _ :=
    (PieceManager.Fits.new m).applyFilePriorities_eq _
  simp only [new, DiskStorage.new, Option.getD_none, hpieces, Outcome.bind_eq_ok, Outcome.pure_eq,
    Outcome.ok.injEq]
  constructor
  · rintro ⟨_, ⟨⟨⟩, hio, rfl⟩, _, ⟨pp, hpp, rfl⟩, rfl⟩
    exact ⟨hio, pp, hpp, rfl⟩
  · rintro ⟨hio, pp, hpp, rfl⟩
    exact ⟨_, ⟨(), hio, rfl⟩, _, ⟨pp, hpp, rfl⟩, rfl⟩

/-- What `apply_resume` makes of it. -/
def restored (m : MetaInfo) (dir : List UInt8) (pp : List FilePriority) (rd : ResumeData) :
    TorrentSession :=
  { ofPriorities m dir pp with
    pieceManager := { m.pieceManager with have_ := rd.havePieces, piecePriorities := pp }
    totalDownloaded := rd.downloaded
    totalUploaded := rd.uploaded
    filePriorities := rd.filePriorities
    paused := rd.prevState = .paused
    state := if rd.prevState = .paused then .paused
      else if { m.pieceManager with have_ := rd.havePieces }.isComplete then .seeding
      else .downloading }

/-- The record fits, so that all of it is applied. -/
theorem applyResume_ofPriorities (h : rd.Matches m)
    (hpp : m.piecePriorities b (List.replicate m.files.length .normal) = .ok pp) :
    (ofPriorities m dir pp).applyResume b rd =
      m.piecePriorities b rd.filePriorities >>= fun pp => .ok (restored m dir pp rd) := by
  have hlen : rd.havePieces.length = m.pieceManager.have_.length := by
    rw [h.havePieces]
    exact List.length_replicate.symm
  have hload : (ofPriorities m dir pp).pieceManager.loadHave rd.havePieces =
      { m.pieceManager with have_ := rd.havePieces, piecePriorities := pp } := loadHave_eq _ hlen
  have hfits : PieceManager.Fits m
      { m.pieceManager with have_ := rd.havePieces, piecePriorities := pp } :=
    ((PieceManager.Fits.new m).setPriorities hpp).setHave hlen _ _
  have happly := hfits.applyFilePriorities_eq (b := b) rd.filePriorities
  have hfiles : rd.filePriorities.length = (ofPriorities m dir pp).metaInfo.files.length :=
    h.filePriorities
  unfold applyResume
  simp only [hload, hfiles, if_true]
  show (PieceManager.applyFilePriorities b _ m.files rd.filePriorities >>= _) = _
  rw [happly]
  cases m.piecePriorities b rd.filePriorities <;> rfl

/-- All pieces are there exactly when the piece manager says so. -/
theorem isComplete_restored (h : rd.Matches m) :
    (restored m dir pp rd).pieceManager.isComplete = true ↔ rd.Whole := by
  have hlt : m.numPieces < 2 ^ 32 := Nat.mod_lt _ (by decide)
  have hlen := h.havePieces
  have hle := List.length_filter_le id rd.havePieces
  have hcount : (rd.havePieces.filter id).length % 2 ^ 32 = (rd.havePieces.filter id).length :=
    Nat.mod_eq_of_lt (by omega)
  have hall : (rd.havePieces.filter id).length = rd.havePieces.length ↔
      false ∉ rd.havePieces := by
    rw [List.length_filter_eq_length_iff]
    constructor
    · exact fun hall hmem => Bool.false_ne_true (hall false hmem)
    · intro hnot x hx
      cases x with
      | false => exact absurd hx hnot
      | true => rfl
  show (decide (0 < m.numPieces) && (rd.havePieces.filter id).length % 2 ^ 32 == m.numPieces) =
    true ↔ _
  rw [hcount, Bool.and_eq_true, decide_eq_true_eq, beq_iff_eq, ← hlen, List.length_pos_iff, hall]
  rfl

/-- The snapshot of the new session is the record that is saved. -/
theorem snapshotResume_restored (h : rd.Matches m) (data : Bytes) (now : ℤ) :
    (((restored m dir pp rd).setTorrentBytes data).snapshotResume now).2 =
      rd.readded m data now := by
  have hcomplete : ((restored m dir pp rd).setTorrentBytes data).pieceManager.isComplete = true ↔
      rd.Whole :=
    show (restored m dir pp rd).pieceManager.isComplete = true ↔ rd.Whole from
      isComplete_restored h
  have hwhole : (if ((restored m dir pp rd).setTorrentBytes data).pieceManager.isComplete = true ∧
      (none : Option ℤ).isNone = true then some now else none) =
        if rd.Whole then some now else none := by
    simp only [hcomplete, Option.isNone_none, and_true]
  -- the session has not been started
  have hpaused : (if (decide (rd.prevState = .paused) = true ∧ ¬ false = true) ∨ ¬ false = true
      then PrevState.paused else .running) = .paused := if_pos (.inr Bool.false_ne_true)
  show ({ rd.readded m data now with
    completedTime := if ((restored m dir pp rd).setTorrentBytes data).pieceManager.isComplete =
      true ∧ (none : Option ℤ).isNone = true then some now else none
    prevState := if (decide (rd.prevState = .paused) = true ∧ ¬ false = true) ∨ ¬ false = true
      then .paused else .running } : ResumeData) = _
  rw [hwhole, hpaused]
  rfl

end TorrentSession

namespace TorrentEngine

variable {sha1 : List UInt8 → Hash} {b : Build} {io : Res Unit} {serde : Serde} {now : ℤ}
  {engine : TorrentEngine} {resumeDir : Dir} {data : Bytes} {downloadDir : Option (List UInt8)}
  {m : MetaInfo} {rd : ResumeData}

/-- The engine gets the session of `added`, after its snapshot. -/
theorem addTorrentFromBytes_eq (hmeta : MetaInfo.fromBytes sha1 b data = .ok m)
    (hnew : engine.sessions.containsKey m.infoHash = false) (existing : Option ResumeData)
    (filePriorities : Option (List FilePriority)) :
    engine.addTorrentFromBytes sha1 b io existing now data downloadDir filePriorities =
      (TorrentSession.added b io existing m (downloadDir.getD engine.downloadDir) data
        filePriorities >>= fun session => .ok ({ engine with
          sessions := engine.sessions.insert m.infoHash (session.snapshotResume now).1 },
            m.infoHash)) := by
  unfold addTorrentFromBytes TorrentSession.added
  rw [hmeta, Outcome.ok_bind, if_neg (by simp [hnew])]
  dsimp only
  cases TorrentSession.new b io m (downloadDir.getD engine.downloadDir) filePriorities with
  | ok session =>
    cases existing with
    | none =>
      simp only [Outcome.ok_bind]
      cases session.setFilePriorities b 0 (filePriorities.getD []) <;> rfl
    | some rd =>
      simp only [Outcome.ok_bind]
      cases session.applyResume b rd with
      | ok session =>
        simp only [Outcome.ok_bind]
        cases session.setFilePriorities b 0 (filePriorities.getD []) <;> rfl
      | _ => rfl
  | _ => rfl

/-- Apart from the directory the call is that of `addTorrentFromBytes` with the stored record. -/
theorem addTorrentFromBytesIn_snd (hmeta : MetaInfo.fromBytes sha1 b data = .ok m)
    (filePriorities : Option (List FilePriority)) :
    (engine.addTorrentFromBytesIn sha1 b io serde now resumeDir data downloadDir
        filePriorities).2 =
      engine.addTorrentFromBytes sha1 b io
        (ResumeData.loadFromDir serde (toHex m.infoHash) resumeDir) now data downloadDir
        filePriorities := by
  by_cases hnew : engine.sessions.containsKey m.infoHash = true
  · rw [addTorrentFromBytes, hmeta, Outcome.ok_bind, if_pos hnew, addTorrentFromBytesIn, hmeta]
    simp only [Outcome.ok_bind, if_pos hnew, Outcome.pure_eq]
  · rw [addTorrentFromBytes_eq hmeta (by simpa using hnew), addTorrentFromBytesIn, hmeta]
    simp only [Outcome.ok_bind, if_neg hnew]
    cases TorrentSession.added b io (ResumeData.loadFromDir serde (toHex m.infoHash) resumeDir) m
      (downloadDir.getD engine.downloadDir) data filePriorities <;> rfl

/-- The session is made exactly when the call gets to its end. -/
theorem added_eq_ok (h : rd.Matches m) {dir : List UInt8} {s : TorrentSession} :
    TorrentSession.added b io (some rd) m dir data none = .ok s ↔
      io = .ok () ∧ (∃ pp, m.piecePriorities b (List.replicate m.files.length .normal) = .ok pp) ∧
        ∃ pp, m.piecePriorities b rd.filePriorities = .ok pp ∧
          s = (TorrentSession.restored m dir pp rd).setTorrentBytes data := by
  simp only [TorrentSession.added, Outcome.bind_eq_ok, TorrentSession.new_none_eq_ok,
    Option.getD_none, TorrentSession.setFilePriorities, Outcome.pure_eq, Outcome.ok.injEq]
  constructor
  · rintro ⟨_, ⟨hio, pp, hpp, rfl⟩, _, happly, _, rfl, rfl⟩
    rw [TorrentSession.applyResume_ofPriorities h hpp] at happly
    obtain ⟨pp', hpp', heq⟩ := Outcome.bind_eq_ok.mp happly
    obtain rfl := Outcome.ok.inj heq
    exact ⟨hio, ⟨pp, hpp⟩, pp', hpp', rfl⟩
  · rintro ⟨hio, ⟨pp, hpp⟩, pp', hpp', rfl⟩
    refine ⟨_, ⟨hio, pp, hpp, rfl⟩, TorrentSession.restored m dir pp' rd, ?_, _, rfl, rfl⟩
    rw [TorrentSession.applyResume_ofPriorities h hpp, hpp']
    rfl

variable (io now engine downloadDir) in
/-- The directory after a call without priorities. -/
theorem addTorrentFromBytesIn_fst (hmeta : MetaInfo.fromBytes sha1 b data = .ok m)
    (hload : ResumeData.loadFromDir serde (toHex m.infoHash) resumeDir = some rd)
    (h : rd.Matches m) :
    (engine.Takes b io m rd → (engine.addTorrentFromBytesIn sha1 b io serde now resumeDir data
        downloadDir none).1 = (rd.readded m data now).saveToDir serde resumeDir) ∧
      (¬ engine.Takes b io m rd → (engine.addTorrentFromBytesIn sha1 b io serde now resumeDir data
        downloadDir none).1 = resumeDir) := by
  rw [addTorrentFromBytesIn, hmeta, Outcome.ok_bind, hload]
  constructor
  · rintro ⟨hnew, hio, hfresh, ⟨pp, hpp⟩⟩
    have hadded : TorrentSession.added b io (some rd) m (downloadDir.getD engine.downloadDir)
        data none = .ok _ := (added_eq_ok h).mpr ⟨hio, hfresh, pp, hpp, rfl⟩
    rw [if_neg (by simp [hnew]), hadded]
    exact congrArg (·.saveToDir serde resumeDir)
      (TorrentSession.snapshotResume_restored h data now)
  · intro hnot
    split_ifs with hnew
    · rfl
    · cases hadded : TorrentSession.added b io (some rd) m (downloadDir.getD engine.downloadDir)
        data none with
      | ok s =>
        obtain ⟨hio, hfresh, pp, hpp, _⟩ := (added_eq_ok h).mp hadded
        exact absurd ⟨by simpa using hnew, hio, hfresh, pp, hpp⟩ hnot
      | _ => rfl

/-- Adding a torrent with a record keeps what is stored exactly when the call does not get to its
end, or the record is the one of a torrent that has been added just now. -/
theorem kept_iff (hmeta : MetaInfo.fromBytes sha1 b data = .ok m)
    (hload : ResumeData.loadFromDir serde (toHex m.infoHash) resumeDir = some rd)
    (h : rd.Matches m) (hserde : serde.RoundTrips (rd.readded m data now).slim) :
    ResumeData.Kept serde (toHex m.infoHash) resumeDir (engine.addTorrentFromBytesIn sha1 b io serde
        now resumeDir data downloadDir none).1 ↔
      (engine.Takes b io m rd → rd.SavedAt now) := by
  obtain ⟨htaken, hleft⟩ := addTorrentFromBytesIn_fst io now engine downloadDir hmeta hload h
  by_cases htakes : engine.Takes b io m rd
  · have hsaved : ResumeData.loadFromDir serde (toHex m.infoHash)
        ((rd.readded m data now).saveToDir serde resumeDir) = some (rd.readded m data now) :=
      ResumeData.loadFromDir_saveToDir_of_notMem hserde fun hnone => by cases hnone
    rw [htaken htakes, ← ResumeData.sameRecord_readded m data]
    constructor
    · intro hkept _
      obtain ⟨rd', hrd', hsame⟩ := hkept rd hload
      obtain rfl := Option.some.inj (hsaved.symm.trans hrd')
      exact hsame
    · intro hsame rd' hrd'
      obtain rfl := Option.some.inj (hload.symm.trans hrd')
      exact ⟨_, hsaved, hsame htakes⟩
  · rw [hleft htakes]
    refine iff_of_true ?_ fun htakes' => absurd htakes' htakes
    exact fun rd' hrd' => ⟨rd', hrd', rfl, rfl, rfl, rfl, rfl, rfl, rfl⟩

end TorrentEngine

/-- `sampleRecord` at another time and with another state. -/
def recordAt (addedTime : ℤ) (prevState : PrevState) : ResumeData :=
  { sampleRecord with addedTime := addedTime, prevState := prevState }

def pausedSerde : Serde := .reading [(recordAt 1700000000 .paused).slim]

theorem pausedSerde_roundTrips : pausedSerde.RoundTrips (recordAt 1700000000 .paused).slim :=
  Serde.reading_roundTrips (List.pairwise_singleton _ _) List.mem_cons_self

/-- The records of a torrent that is added twice. -/
def addedTwice : Serde :=
  .reading [(recordAt 1700000000 .running).slim, (recordAt 1700000100 .paused).slim]

theorem addedTwice_roundTrips : addedTwice.RoundTrips (recordAt 1700000000 .running).slim ∧
    addedTwice.RoundTrips (recordAt 1700000100 .paused).slim := by
  have htexts : [(recordAt 1700000000 .running).slim, (recordAt 1700000100 .paused).slim].Pairwise
      fun x y => x.toStringPretty ≠ y.toStringPretty :=
    List.pairwise_pair.mpr (ResumeData.toStringPretty_ne (by decide +kernel) (by decide +kernel)
      (by decide +kernel))
  exact ⟨Serde.reading_roundTrips htexts List.mem_cons_self,
    Serde.reading_roundTrips htexts (List.mem_cons_of_mem _ List.mem_cons_self)⟩

/-- What the torrent of the records looks like. -/
theorem sampleTorrent_matches :
    ∃ m, MetaInfo.fromBytes (fun _ => sampleHash) .release sampleTorrent = .ok m ∧
      m.infoHash = sampleHash ∧ (∀ added state, (recordAt added state).Matches m) ∧
      ∃ pp, m.piecePriorities .release [.normal] = .ok pp := by
  have hok : (MetaInfo.fromBytes (fun _ => sampleHash) .release sampleTorrent).isOkAnd
      (fun m => decide (m.infoHash = sampleHash ∧ m.numPieces = 2 ∧ m.files.length = 1) &&
        (m.piecePriorities .release [.normal]).isOkAnd fun _ => true) = true := by
    decide +kernel
  obtain ⟨m, hm, hchecks⟩ := Outcome.isOkAnd_iff.mp hok
  obtain ⟨hlayout, hpieces⟩ := Bool.and_eq_true_iff.mp hchecks
  obtain ⟨hhash, hnum, hfiles⟩ := of_decide_eq_true hlayout
  obtain ⟨pp, hpp, _⟩ := Outcome.isOkAnd_iff.mp hpieces
  exact ⟨m, hm, hhash, fun _ _ => ⟨hnum.symm, hfiles.symm⟩, pp, hpp⟩

/-- The record is saved again as it would be by the torrent, but at another time and paused. -/
theorem readded_recordAt {m : MetaInfo} (hhash : m.infoHash = sampleHash) (added now : ℤ)
    (state : PrevState) :
    (recordAt added state).readded m sampleTorrent now = recordAt now .paused := by
  rw [ResumeData.readded, hhash]
  rfl

/-- A record of a paused torrent, in the second in which it was saved. -/
theorem kept_recordAt : ∃ m,
    MetaInfo.fromBytes (fun _ => sampleHash) .release sampleTorrent = .ok m ∧
      ResumeData.Kept pausedSerde (toHex m.infoHash)
        ((recordAt 1700000000 .paused).saveToDir pausedSerde ∅)
        ((TorrentEngine.new []).addTorrentFromBytesIn (fun _ => sampleHash) .release (.ok ())
          pausedSerde 1700000000 ((recordAt 1700000000 .paused).saveToDir pausedSerde ∅)
          sampleTorrent none none).1 := by
  obtain ⟨m, hm, hhash, hmatches, _⟩ := sampleTorrent_matches
  have hload : ResumeData.loadFromDir pausedSerde (toHex m.infoHash)
      ((recordAt 1700000000 .paused).saveToDir pausedSerde ∅) =
        some (recordAt 1700000000 .paused) := by
    rw [hhash]
    exact ResumeData.loadFromDir_saveToDir pausedSerde_roundTrips
      ⟨AList.notMem_empty _, AList.notMem_empty _⟩
  refine ⟨m, hm, (TorrentEngine.kept_iff hm hload (hmatches _ _) ?_).mpr fun _ => ?_⟩
  · rw [readded_recordAt hhash]
    exact pausedSerde_roundTrips
  · exact ⟨rfl, (if_neg fun hwhole => hwhole.2 List.mem_cons_self).symm, rfl⟩

/-- A download that ran is paused once its torrent is added again, and is as old as that call. -/
theorem not_kept_recordAt : ∃ m,
    MetaInfo.fromBytes (fun _ => sampleHash) .release sampleTorrent = .ok m ∧
      ResumeData.loadFromDir addedTwice (toHex m.infoHash)
          ((recordAt 1700000000 .running).saveToDir addedTwice ∅) =
        some (recordAt 1700000000 .running) ∧
      (recordAt 1700000000 .running).Matches m ∧
      ResumeData.loadFromDir addedTwice (toHex m.infoHash)
          ((TorrentEngine.new []).addTorrentFromBytesIn (fun _ => sampleHash) .release (.ok ())
            addedTwice 1700000100 ((recordAt 1700000000 .running).saveToDir addedTwice ∅)
            sampleTorrent none none).1 = some (recordAt 1700000100 .paused) ∧
      ¬ ResumeData.Kept addedTwice (toHex m.infoHash)
        ((recordAt 1700000000 .running).saveToDir addedTwice ∅)
        ((TorrentEngine.new []).addTorrentFromBytesIn (fun _ => sampleHash) .release (.ok ())
          addedTwice 1700000100 ((recordAt 1700000000 .running).saveToDir addedTwice ∅)
          sampleTorrent none none).1 := by
  obtain ⟨m, hm, hhash, hmatches, hpieces⟩ := sampleTorrent_matches
  obtain ⟨hserde, hserde'⟩ := addedTwice_roundTrips
  have hload : ResumeData.loadFromDir addedTwice (toHex m.infoHash)
      ((recordAt 1700000000 .running).saveToDir addedTwice ∅) =
        some (recordAt 1700000000 .running) := by
    rw [hhash]
    exact ResumeData.loadFromDir_saveToDir hserde ⟨AList.notMem_empty _, AList.notMem_empty _⟩
  have hfiles : List.replicate m.files.length FilePriority.normal = [.normal] := by
    rw [← (hmatches 0 .running).filePriorities]
    rfl
  have htakes : (TorrentEngine.new []).Takes .release (.ok ()) m
      (recordAt 1700000000 .running) :=
    ⟨rfl, rfl, by rw [hfiles]; exact hpieces, hpieces⟩
  have hsaved : ResumeData.loadFromDir addedTwice (toHex m.infoHash)
      ((TorrentEngine.new []).addTorrentFromBytesIn (fun _ => sampleHash) .release (.ok ())
        addedTwice 1700000100 ((recordAt 1700000000 .running).saveToDir addedTwice ∅)
        sampleTorrent none none).1 = some (recordAt 1700000100 .paused) := by
    rw [(TorrentEngine.addTorrentFromBytesIn_fst _ _ _ _ hm hload (hmatches _ _)).1 htakes,
      readded_recordAt hhash, hhash]
    exact ResumeData.loadFromDir_saveToDir_of_notMem hserde' fun hnone =>
      absurd hnone (Option.some_ne_none sampleTorrent)
  refine ⟨m, hm, hload, hmatches _ _, hsaved, fun hkept => ?_⟩
  obtain ⟨rd', hrd', hsame⟩ := hkept _ hload
  obtain rfl := Option.some.inj (hsaved.symm.trans hrd')
  cases hsame.prevState

end Retorrent

import Retorrent.Network.Session
import Retorrent.Resume.Text

/-!
# Restarting the engine

`load_resume_data` recreates the sessions of the last run from the records that
`list_all` finds. The torrents are in files of their own, which `list_all` does
not read.
-/

namespace Retorrent

open Rust

/-- The parts of the engine that loading resume data works on. -/
structure TorrentEngine where
  downloadDir : List UInt8
  sessions : HashMap Hash TorrentSession

namespace TorrentEngine

/-- An engine that starts. -/
def new (downloadDir : List UInt8) : TorrentEngine where
  downloadDir := downloadDir
  sessions := ∅

section Load

variable (sha1 : List UInt8 → Hash) (b : Build) (io : MetaInfo → Res Unit)

/-- The session of a record with a torrent, where `io` is how the creation of its
files ends. -/
def resumeSession (engine : TorrentEngine) (rd : ResumeData) (torrentBytes : Bytes) :
    Res TorrentSession := do
  let metaInfo ← MetaInfo.fromBytes sha1 b torrentBytes
  let session ← TorrentSession.new b (io metaInfo) metaInfo engine.downloadDir
    (some rd.filePriorities)
  let session ← session.applyResume b rd
  return session.setTorrentBytes torrentBytes

/-- One iteration of the loop of `load_resume_data`. -/
def loadRecord (acc : TorrentEngine × List Hash) (rd : ResumeData) :
    Res (TorrentEngine × List Hash) :=
  match rd.torrentBytes with
  | none => .ok acc
  | some torrentBytes =>
    match acc.1.resumeSession sha1 b io rd torrentBytes with
    | .ok session =>
      .ok ({ acc.1 with sessions := acc.1.sessions.insert session.infoHash session },
        if rd.prevState = .running then acc.2 ++ [session.infoHash] else acc.2)
    -- a torrent that cannot be resumed is logged
    | .err _ => .ok acc
    | .panic cause => .panic cause
    | .hang => .hang

def loadRecords (records : List ResumeData) (acc : TorrentEngine × List Hash) :
    Res (TorrentEngine × List Hash) :=
  records.foldlM (loadRecord sha1 b io) acc

/-- `load_resume_data`, with the engine it leaves. -/
def loadResumeData (serde : Serde) (dir : Dir) (engine : TorrentEngine) :
    Res (TorrentEngine × List Hash) :=
  loadRecords sha1 b io (ResumeData.listAll serde dir) (engine, [])

end Load

variable {sha1 : List UInt8 → Hash} {b : Build} {io : MetaInfo → Res Unit}
  {acc acc' : TorrentEngine × List Hash} {rd : ResumeData}

/-- One iteration keeps the sessions and the download directory. -/
theorem loadRecord_keeps (h : loadRecord sha1 b io acc rd = .ok acc') :
    acc'.1.downloadDir = acc.1.downloadDir ∧ ∀ k ∈ acc.1.sessions, k ∈ acc'.1.sessions := by
  unfold loadRecord at h
  split at h
  · obtain rfl := Outcome.ok.inj h
    exact ⟨rfl, fun k hk => hk⟩
  · split at h
    · obtain rfl := Outcome.ok.inj h
      exact ⟨rfl, fun k hk => (AList.mem_insert _).mpr (.inr hk)⟩
    · obtain rfl := Outcome.ok.inj h
      exact ⟨rfl, fun k hk => hk⟩
    · simp at h
    · simp at h

theorem loadRecords_keeps {records : List ResumeData}
    (h : loadRecords sha1 b io records acc = .ok acc') :
    acc'.1.downloadDir = acc.1.downloadDir ∧ ∀ k ∈ acc.1.sessions, k ∈ acc'.1.sessions := by
  induction records generalizing acc with
  | nil =>
    obtain rfl := Outcome.ok.inj h
    exact ⟨rfl, fun k hk => hk⟩
  | cons rd records ih =>
    obtain ⟨mid, hrd, hrest⟩ := Outcome.bind_eq_ok.mp h
    obtain ⟨hdir, hkeep⟩ := loadRecord_keeps hrd
    obtain ⟨hdir', hkeep'⟩ := ih hrest
    exact ⟨hdir'.trans hdir, fun k hk => hkeep' k (hkeep k hk)⟩

/-- A record that comes with its torrent gets a session. -/
theorem mem_sessions_of_loadRecords {records : List ResumeData} {torrentBytes : Bytes}
    {session : TorrentSession} (h : loadRecords sha1 b io records acc = .ok acc')
    (hmem : rd ∈ records) (hbytes : rd.torrentBytes = some torrentBytes)
    (hsession : acc.1.resumeSession sha1 b io rd torrentBytes = .ok session) :
    session.infoHash ∈ acc'.1.sessions := by
  induction records generalizing acc with
  | nil => simp at hmem
  | cons first records ih =>
    obtain ⟨mid, hfirst, hrest⟩ := Outcome.bind_eq_ok.mp h
    rcases List.mem_cons.mp hmem with rfl | hmem
    · apply (loadRecords_keeps hrest).2
      unfold loadRecord at hfirst
      rw [hbytes] at hfirst
      simp only [hsession, Outcome.ok.injEq] at hfirst
      subst hfirst
      exact (AList.mem_insert _).mpr (.inl rfl)
    · have hdir := (loadRecord_keeps hfirst).1
      apply ih hrest hmem
      rw [resumeSession] at hsession ⊢
      rw [hdir]
      exact hsession

/-- Records without a torrent are passed over. -/
theorem loadRecords_of_none {records : List ResumeData}
    (hnone : ∀ rd ∈ records, rd.torrentBytes = none) :
    loadRecords sha1 b io records acc = .ok acc := by
  induction records with
  | nil => rfl
  | cons rd records ih =>
    have hfirst : loadRecord sha1 b io acc rd = .ok acc := by
      rw [loadRecord]
      rw [hnone rd List.mem_cons_self]
    show (loadRecord sha1 b io acc rd >>= fun mid => loadRecords sha1 b io records mid) = _
    rw [hfirst]
    exact ih fun r hr => hnone r (List.mem_cons_of_mem _ hr)

end TorrentEngine

section Restart

open ResumeData TorrentEngine

/-- What a restart promises about the records that were saved to `dir`. -/
def Restored (sha1 : List UInt8 → Hash) (b : Build) (io : MetaInfo → Res Unit) (serde : Serde)
    (dir : Dir) (engine : TorrentEngine) (records : List ResumeData) : Prop :=
  (listAll serde dir).Perm records ∧
    ∃ engine' toStart, engine.loadResumeData sha1 b io serde dir = .ok (engine', toStart) ∧
      ∀ rd ∈ records, ∀ torrentBytes metaInfo, rd.torrentBytes = some torrentBytes →
        MetaInfo.fromBytes sha1 b torrentBytes = .ok metaInfo →
        metaInfo.infoHash ∈ engine'.sessions

variable {sha1 : List UInt8 → Hash} {b : Build} {io : MetaInfo → Res Unit} {serde : Serde}
  {records : List ResumeData}

/-- No record that `list_all` returns carries a torrent. -/
theorem torrentBytes_of_mem_listAll (hserde : ∀ rd ∈ records, serde.RoundTrips rd.slim)
    (hdistinct : (records.map infoHash).Nodup) :
    ∀ rd ∈ listAll serde (saveAll serde records ∅), rd.torrentBytes = none := by
  rw [listAll_saveAll hserde hdistinct fun rd _ => ⟨AList.notMem_empty _, AList.notMem_empty _⟩]
  intro rd hrd
  rcases List.mem_append.mp hrd with hrd | hrd
  · obtain ⟨r, _, rfl⟩ := List.mem_map.mp (List.mem_reverse.mp hrd)
    rfl
  · simp [listAll] at hrd

/-- After saving, a restart recreates no session at all. -/
theorem loadResumeData_saveAll {engine : TorrentEngine}
    (hserde : ∀ rd ∈ records, serde.RoundTrips rd.slim)
    (hdistinct : (records.map infoHash).Nodup) :
    engine.loadResumeData sha1 b io serde (saveAll serde records ∅) = .ok (engine, []) :=
  loadRecords_of_none (torrentBytes_of_mem_listAll hserde hdistinct)

/-- A restart restores the saved records exactly when none of them carries a
torrent. -/
theorem restored_iff {downloadDir : List UInt8}
    (hserde : ∀ rd ∈ records, serde.RoundTrips rd.slim)
    (hdistinct : (records.map infoHash).Nodup) :
    Restored sha1 b io serde (saveAll serde records ∅) (.new downloadDir) records ↔
      ∀ rd ∈ records, rd.torrentBytes = none := by
  constructor
  · rintro ⟨hperm, _⟩ rd hrd
    exact torrentBytes_of_mem_listAll hserde hdistinct rd (hperm.mem_iff.mpr hrd)
  · intro hnone
    refine ⟨?_, _, _, loadResumeData_saveAll hserde hdistinct, ?_⟩
    · have hslim : records.map slim = records := by
        calc
          records.map slim = records.map id := List.map_congr_left fun rd hrd => by
            show { rd with torrentBytes := none } = rd
            rw [← hnone rd hrd]
          _ = records := List.map_id records
      rw [listAll_saveAll hserde hdistinct fun rd _ =>
        ⟨AList.notMem_empty _, AList.notMem_empty _⟩, hslim]
      show (records.reverse ++ []).Perm records
      rw [List.append_nil]
      exact records.reverse_perm
    · intro rd hrd torrentBytes _ hbytes
      rw [hnone rd hrd] at hbytes
      simp at hbytes

/-- The record of a download that has just been added. -/
def sampleRecord : ResumeData where
  infoHash := toHex sampleHash
  havePieces := [false, false]
  downloaded := 0
  uploaded := 0
  filePriorities := [.normal]
  addedTime := 1700000000
  completedTime := none
  torrentBytes := some sampleTorrent
  prevState := .running

example : sampleRecord.slim.json =
    ["\x7b\n", "  \"info_hash\": ", "\"0c7af2111d99dc5077e0d6cd88ae90aec87e5c9f\",\n",
      "  \"have_pieces\": [\n", "    false,\n", "    false\n", "  ],\n",
      "  \"downloaded\": 0,\n", "  \"uploaded\": 0,\n",
      "  \"file_priorities\": [\n", "    \"Normal\"\n", "  ],\n",
      "  \"added_time\": 1700000000,\n", "  \"completed_time\": null,\n",
      "  \"torrent_bytes\": null,\n", "  \"prev_state\": \"running\"\n",
      "\x7d"].flatMap Str.asciiBytes := by decide +kernel

def sampleSerde : Serde := .reading [sampleRecord.slim]

theorem sampleSerde_roundTrips : sampleSerde.RoundTrips sampleRecord.slim :=
  Serde.reading_roundTrips (List.pairwise_singleton _ _) List.mem_cons_self

theorem restored_sampleRecord :
    Restored (fun _ => sampleHash) .release (fun _ => .ok ()) sampleSerde
      (saveAll sampleSerde [sampleRecord.slim] ∅) (.new []) [sampleRecord.slim] := by
  have hserde : ∀ rd ∈ [sampleRecord.slim], sampleSerde.RoundTrips rd.slim := by
    intro rd hrd
    obtain rfl := List.mem_singleton.mp hrd
    exact sampleSerde_roundTrips
  apply (restored_iff hserde (List.nodup_singleton _)).mpr
  intro rd hrd
  obtain rfl := List.mem_singleton.mp hrd
  rfl

/-- The torrent of the record can be parsed, yet the restart has no session for
it. -/
theorem sampleRecord_lost :
    (∃ metaInfo, MetaInfo.fromBytes (fun _ => sampleHash) .release sampleTorrent =
      .ok metaInfo) ∧
    (TorrentEngine.new []).loadResumeData (fun _ => sampleHash) .release (fun _ => .ok ())
      sampleSerde (saveAll sampleSerde [sampleRecord] ∅) = .ok (.new [], []) ∧
    ¬ Restored (fun _ => sampleHash) .release (fun _ => .ok ()) sampleSerde
      (saveAll sampleSerde [sampleRecord] ∅) (.new []) [sampleRecord] := by
  have hserde : ∀ rd ∈ [sampleRecord], sampleSerde.RoundTrips rd.slim := by
    intro rd hrd
    obtain rfl := List.mem_singleton.mp hrd
    exact sampleSerde_roundTrips
  refine ⟨sampleTorrent_accepted, loadResumeData_saveAll hserde (List.nodup_singleton _), ?_⟩
  rintro ⟨hperm, _⟩
  have hlisted := hperm.mem_iff.mpr (List.mem_singleton_self sampleRecord)
  have hnone := torrentBytes_of_mem_listAll hserde (List.nodup_singleton _) _ hlisted
  exact Option.some_ne_none _ hnone

end Restart

end Retorrent

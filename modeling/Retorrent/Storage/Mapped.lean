import Retorrent.Storage.RoundTrip

/-!
# Ranges that are mapped into memory

`read_piece_uncached` maps a range of a mebibyte or more into memory, whatever the length of the
file is. Where the file ends before the range, `read_exact` would have returned an error; the map
gives zeros, or the process faults.
-/

namespace Retorrent

open Rust

/-- Both calls return the same, up to the error, and none of them faults. -/
def SameOutcome {α : Type} : Res α → Res α → Prop
  | .ok x, .ok y => x = y
  | .err _, .err _ => True
  | _, _ => False

section Create

/-- A file that `DiskStorage::new` creates. -/
def createFile (prealloc : Bool) (f : FileInfo) (disk : Disk) : Disk :=
  if (disk f.path).isSome then disk
  else Function.update disk f.path (some (if prealloc then File.setLen [] f.length else []))

/-- The loop of `DiskStorage::new` over the files, from the file `fileIdx` on, when the file system
lets it create them. -/
def createFiles (prealloc : Bool) (priorities : List FilePriority) :
    ℕ → List FileInfo → Disk → Disk
  | _, [], disk => disk
  | fileIdx, f :: files, disk =>
    createFiles prealloc priorities (fileIdx + 1) files
      (if isSkipped priorities fileIdx then disk else createFile prealloc f disk)

theorem createFile_of_none (prealloc : Bool) {f : FileInfo} (disk : Disk)
    (h : disk f.path = none) : createFile prealloc f disk f.path =
      some (if prealloc then File.setLen [] f.length else []) := by
  rw [createFile, h, if_neg (by simp), Function.update_self]

/-- The only file of a torrent. -/
theorem createFiles_singleton (prealloc : Bool) (f : FileInfo) :
    createFiles prealloc [] 0 [f] (fun _ => none) f.path =
      some (if prealloc then File.setLen [] f.length else []) :=
  createFile_of_none prealloc (fun _ => none) rfl

end Create

section Range

variable {page offset n : ℕ} {disk : Disk} {path : Str}

/-- A mapped range gives what seeking and reading gives exactly when the range is empty or the file,
if there is one, does not end before it. -/
theorem sameOutcome_iff (hpage : 0 < page) :
    SameOutcome (mmapRead page disk path offset n) (seekRead disk path offset n) ↔
      ∀ content, disk path = some content → n = 0 ∨ offset + n ≤ content.length := by
  rw [mmapRead, seekRead]
  cases disk path with
  | none => exact iff_of_true trivial fun content hcontent => by cases hcontent
  | some content =>
    simp only [Option.some.injEq, forall_eq']
    rw [← File.mapAt_eq_readExact_iff hpage]
    cases File.mapAt page content offset n with
    | none => cases File.readExact content offset n <;> simp [SameOutcome]
    | some bytes =>
      cases File.readExact content offset n with
      | none => simp [SameOutcome]
      | some bytes' => simp [SameOutcome, eq_comm]

/-- The file of a torrent of a mebibyte. -/
def mebibyteFile : FileInfo := ⟨.ascii "x", mmapThreshold, 0⟩

/-- With `prealloc_files` it has got its length. -/
theorem sameOutcome_mebibyteFile :
    SameOutcome (mmapRead pageSize (createFiles true [] 0 [mebibyteFile] fun _ => none)
        mebibyteFile.path 0 mmapThreshold)
      (seekRead (createFiles true [] 0 [mebibyteFile] fun _ => none) mebibyteFile.path 0
        mmapThreshold) := by
  have hpage : 0 < pageSize := by decide
  rw [sameOutcome_iff hpage]
  intro content hcontent
  have hlen : content.length = mebibyteFile.length := by
    rw [← Option.some.inj ((createFiles_singleton true mebibyteFile).symm.trans hcontent),
      if_pos rfl, File.length_setLen]
  rw [hlen, Nat.zero_add]
  exact .inr le_rfl

end Range

section Piece

/-- The loop of `read_piece_uncached`, with what fills its buffer. -/
def fillLoop (b : Build) (fill : Str → ℕ → ℕ → Res (List UInt8))
    (pieceOffset dataOffset remaining : ℕ) (result : List UInt8) :
    List FileInfo → Res (List UInt8)
  | [] => .ok result
  | fileInfo :: files => do
    let fileEnd ← b.add 64 fileInfo.offset fileInfo.length
    let absStart ← b.add 64 pieceOffset dataOffset
    if fileEnd ≤ absStart then
      fillLoop b fill pieceOffset dataOffset remaining result files
    else do
      let absEnd ← b.add 64 absStart remaining
      if absEnd ≤ fileInfo.offset then
        fillLoop b fill pieceOffset dataOffset remaining result files
      else do
        let offsetInFile := absStart - fileInfo.offset
        let space ← b.sub 64 fileInfo.length offsetInFile
        let readable := min remaining space
        if readable = 0 then
          fillLoop b fill pieceOffset dataOffset remaining result files
        else do
          let next ← b.addUsize dataOffset readable
          let bytes ← fill fileInfo.path offsetInFile readable
          let left ← b.sub 64 remaining readable
          let result := File.writeAt result dataOffset bytes
          if left = 0 then .ok result
          else fillLoop b fill pieceOffset next left result files

/-- The bytes of a piece that are in the files: what `read_piece_uncached` would return if it mapped
nothing. -/
def DiskStorage.seekPiece (b : Build) (storage : DiskStorage) (index pieceSize : ℕ) (disk : Disk) :
    Res (List UInt8) := do
  let pieceOffset ← b.mul 64 index storage.metaInfo.pieceLength
  let result ← Bytes.ofList (List.replicate pieceSize 0)
  fillLoop b (seekRead disk) pieceOffset 0 pieceSize result.bytes storage.metaInfo.files

variable {b : Build} {disk : Disk} {files : List FileInfo} {pieceOffset : ℕ}

theorem readLoop_eq_fillLoop (dataOffset remaining : ℕ) (result : List UInt8) :
    readLoop b disk pieceOffset dataOffset remaining result files =
      fillLoop b (readPart disk) pieceOffset dataOffset remaining result files := by
  induction files generalizing dataOffset remaining result with
  | nil => rfl
  | cons f files ih => simp only [readLoop, fillLoop, ih]

/-- Where one way to fill the buffer succeeds, so does a better one. -/
theorem fillLoop_mono {fill fill' : Str → ℕ → ℕ → Res (List UInt8)}
    (hfill : ∀ path o n bytes, fill path o n = .ok bytes → fill' path o n = .ok bytes)
    {dataOffset remaining : ℕ} {result data : List UInt8}
    (h : fillLoop b fill pieceOffset dataOffset remaining result files = .ok data) :
    fillLoop b fill' pieceOffset dataOffset remaining result files = .ok data := by
  induction files generalizing dataOffset remaining result with
  | nil => exact h
  | cons f files ih =>
    rw [fillLoop] at h ⊢
    obtain ⟨fileEnd, hend, h⟩ := Outcome.bind_eq_ok.mp h
    obtain ⟨absStart, hstart, h⟩ := Outcome.bind_eq_ok.mp h
    rw [hend, Outcome.ok_bind, hstart, Outcome.ok_bind]
    split_ifs at h ⊢
    · exact ih h
    · obtain ⟨absEnd, hend, h⟩ := Outcome.bind_eq_ok.mp h
      rw [hend, Outcome.ok_bind]
      split_ifs at h ⊢
      · exact ih h
      · dsimp only at h ⊢
        obtain ⟨space, hspace, h⟩ := Outcome.bind_eq_ok.mp h
        rw [hspace, Outcome.ok_bind]
        split_ifs at h ⊢
        · exact ih h
        · obtain ⟨next, hnext, h⟩ := Outcome.bind_eq_ok.mp h
          obtain ⟨bytes, hbytes, h⟩ := Outcome.bind_eq_ok.mp h
          obtain ⟨left, hleft, h⟩ := Outcome.bind_eq_ok.mp h
          rw [hnext, Outcome.ok_bind, hfill _ _ _ _ hbytes, Outcome.ok_bind, hleft,
            Outcome.ok_bind]
          split_ifs at h ⊢
          · exact h
          · exact ih h

/-- What is in the files is read. -/
theorem readPieceUncached_of_seekPiece {storage : DiskStorage} {index size : ℕ} {data : List UInt8}
    (h : storage.seekPiece b index size disk = .ok data) :
    storage.readPieceUncached b index size disk = .ok data := by
  have hfill : ∀ path o n bytes, seekRead disk path o n = .ok bytes →
      readPart disk path o n = .ok bytes := by
    intro path o n bytes hseek
    rw [seekRead] at hseek
    cases hcontent : disk path with
    | none => simp [hcontent] at hseek
    | some content =>
      simp only [hcontent] at hseek
      split at hseek
      · next hread =>
        obtain ⟨hle, rfl⟩ := File.readExact_eq_some.mp hread
        obtain rfl := Outcome.ok.inj hseek
        exact readPart_of_le hcontent hle
      · cases hseek
  rw [DiskStorage.seekPiece] at h
  obtain ⟨offset, hoffset, h⟩ := Outcome.bind_eq_ok.mp h
  obtain ⟨buffer, hbuffer, h⟩ := Outcome.bind_eq_ok.mp h
  rw [DiskStorage.readPieceUncached, hoffset, Outcome.ok_bind, hbuffer, Outcome.ok_bind,
    readLoop_eq_fillLoop]
  exact fillLoop_mono hfill h

end Piece

/-- The torrent of this file, in one piece. -/
def mebibyteTorrent : Bytes :=
  ⟨Str.asciiBytes ("d4:infod6:lengthi1048576e4:name1:x12:piece lengthi1048576e6:pieces20:" ++
    "aaaaaaaaaaaaaaaaaaaaee"), by decide +kernel⟩

/-- Reading all of a large file that is empty. -/
theorem readLoop_empty (b : Build) {disk : Disk} {f : FileInfo} (buffer : List UInt8)
    (hempty : disk f.path = some []) (hoffset : f.offset = 0) (hlen : mmapThreshold ≤ f.length)
    (hbound : f.length < 2 ^ 64) :
    readLoop b disk 0 0 f.length buffer [f] = .panic .busError := by
  have hpos : 0 < f.length := lt_of_lt_of_le (by decide) hlen
  have hfault : readPart disk f.path 0 f.length = .panic .busError := by
    have hmap : File.mapAt pageSize [] 0 f.length = none := by
      rw [File.mapAt, if_neg]
      rw [Nat.zero_add, show File.pageEnd pageSize ([] : List UInt8).length = 0 from rfl]
      omega
    rw [readPart, if_pos hlen, mmapRead, hempty]
    simp only [hmap]
  rw [readLoop, hoffset, Build.add_of_lt b (by omega), Outcome.ok_bind,
    Build.add_of_lt b (by omega), Outcome.ok_bind, if_neg (by omega),
    Build.add_of_lt b (by omega), Outcome.ok_bind, if_neg (by omega)]
  dsimp only
  rw [Build.sub_of_le b (by omega), Outcome.ok_bind, Nat.sub_self, Nat.sub_zero, Nat.min_self,
    if_neg (by omega), Build.addUsize_of_lt b (by omega), Outcome.ok_bind, hfault]
  rfl

/-- Without `prealloc_files` the file is empty: reading its piece faults, where seeking and reading
is an error. -/
theorem not_sameOutcome_mebibyteTorrent :
    ∃ m, MetaInfo.fromBytes (fun _ => sampleHash) .release mebibyteTorrent = .ok m ∧
      m.files = [mebibyteFile] ∧
      DiskStorage.readPieceUncached .release ⟨[], m⟩ 0 mmapThreshold
        (createFiles false [] 0 m.files fun _ => none) = .panic .busError ∧
      seekRead (createFiles false [] 0 m.files fun _ => none) mebibyteFile.path 0 mmapThreshold =
        .err (.io (.ascii "failed to fill whole buffer")) ∧
      ¬ SameOutcome (mmapRead pageSize (createFiles false [] 0 m.files fun _ => none)
          mebibyteFile.path 0 mmapThreshold)
        (seekRead (createFiles false [] 0 m.files fun _ => none) mebibyteFile.path 0
          mmapThreshold) := by
  have hok : (MetaInfo.fromBytes (fun _ => sampleHash) .release mebibyteTorrent).isOkAnd
      (fun m => decide (m.files = [mebibyteFile])) = true := by
    decide +kernel
  obtain ⟨m, hm, hfiles⟩ := Outcome.isOkAnd_iff.mp hok
  have hfiles : m.files = [mebibyteFile] := of_decide_eq_true hfiles
  have hempty : createFiles false [] 0 [mebibyteFile] (fun _ => none) mebibyteFile.path =
      some [] := createFiles_singleton false mebibyteFile
  have hmap : File.mapAt pageSize [] 0 mmapThreshold = none := by
    rw [File.mapAt, if_neg (by decide)]
  have hread : File.readExact [] 0 mmapThreshold = none := by
    rw [File.readExact, if_neg (by decide)]
  refine ⟨m, hm, hfiles, ?_, ?_, ?_⟩
  · have hbound : (List.replicate mmapThreshold (0 : UInt8)).length ≤ isizeMax := by
      rw [List.length_replicate]
      decide
    have hbuffer : (Bytes.ofList (List.replicate mmapThreshold 0) : Res Bytes) =
        .ok ⟨List.replicate mmapThreshold 0, hbound⟩ := Bytes.ofList_eq_ok.mpr rfl
    rw [DiskStorage.readPieceUncached, Build.mul_of_lt .release (by omega), Outcome.ok_bind,
      hbuffer, Outcome.ok_bind, Nat.zero_mul, hfiles]
    exact readLoop_empty .release _ hempty rfl le_rfl (by decide)
  · rw [hfiles, seekRead, hempty]
    simp only [hread]
  · rw [hfiles, mmapRead, seekRead, hempty]
    simp only [hmap, hread]
    exact id

end Retorrent

import Retorrent.Rustlib.Lru
import Retorrent.Storage
import Retorrent.Systems.Transition

/-!
# Reading pieces back

`read_piece` with its cache and `read_piece_uncached`. What was written to a piece is read
back as long as no piece is larger than what is left of the torrent.
-/

namespace Retorrent

open Rust Systems

/-- Ranges of this size and larger ones are mapped into memory. -/
def mmapThreshold : ℕ := 1048576

/-- The bytes of a page. -/
def pageSize : ℕ := 4096

/-- Opening a file that does not exist. -/
def notFound : TorrentError := .storage (.ascii "No such file or directory (os error 2)")

/-- `seek` and `read_exact`. -/
def seekRead (disk : Disk) (path : Str) (offset n : ℕ) : Res (List UInt8) :=
  match disk path with
  | none => .err notFound
  | some content =>
    match File.readExact content offset n with
    | some bytes => .ok bytes
    | none => .err (.io (.ascii "failed to fill whole buffer"))

/-- `mmap_read`, with pages of `page` bytes. The map is made whatever the length of the file is,
and copying from it faults. -/
def mmapRead (page : ℕ) (disk : Disk) (path : Str) (offset n : ℕ) : Res (List UInt8) :=
  match disk path with
  | none => .err notFound
  | some content =>
    match File.mapAt page content offset n with
    | some bytes => .ok bytes
    | none => .panic .busError

/-- Fill a buffer of `n` bytes from a file. -/
def readPart (disk : Disk) (path : Str) (offset n : ℕ) : Res (List UInt8) :=
  if mmapThreshold ≤ n then mmapRead pageSize disk path offset n
  else seekRead disk path offset n

/-- The loop of `read_piece_uncached`. -/
def readLoop (b : Build) (disk : Disk) (pieceOffset dataOffset remaining : ℕ)
    (result : List UInt8) : List FileInfo → Res (List UInt8)
  | [] => .ok result
  | fileInfo :: files => do
    let fileEnd ← b.add 64 fileInfo.offset fileInfo.length
    let absStart ← b.add 64 pieceOffset dataOffset
    if fileEnd ≤ absStart then
      readLoop b disk pieceOffset dataOffset remaining result files
    else do
      let absEnd ← b.add 64 absStart remaining
      if absEnd ≤ fileInfo.offset then
        readLoop b disk pieceOffset dataOffset remaining result files
      else do
        let offsetInFile := absStart - fileInfo.offset
        let space ← b.sub 64 fileInfo.length offsetInFile
        let readable := min remaining space
        if readable = 0 then
          readLoop b disk pieceOffset dataOffset remaining result files
        else do
          let next ← b.addUsize dataOffset readable
          let bytes ← readPart disk fileInfo.path offsetInFile readable
          let left ← b.sub 64 remaining readable
          let result := File.writeAt result dataOffset bytes
          if left = 0 then .ok result
          else readLoop b disk pieceOffset next left result files

/-- `DiskStorage::read_piece_uncached`. -/
def DiskStorage.readPieceUncached (b : Build) (storage : DiskStorage) (index pieceSize : ℕ)
    (disk : Disk) : Res (List UInt8) := do
  let pieceOffset ← b.mul 64 index storage.metaInfo.pieceLength
  let result ← Bytes.ofList (List.replicate pieceSize 0)
  readLoop b disk pieceOffset 0 pieceSize result.bytes storage.metaInfo.files

/-- The cache of pieces that were read. -/
abbrev ReadCache := LruCache ℕ (List UInt8)

/-- `DiskStorage::read_piece`, with the cache it leaves. -/
def DiskStorage.readPiece (b : Build) (storage : DiskStorage) (index pieceSize : ℕ)
    (disk : Disk) (cache : ReadCache) : Res (List UInt8) × ReadCache :=
  match cache.get index with
  | (some data, cache) => (.ok data, cache)
  | (none, cache) =>
    match storage.readPieceUncached b index pieceSize disk with
    | .ok data => (.ok data, cache.put index data)
    | r => (r, cache)

/-- The number of entries that `DiskStorage::new` gives the cache. -/
def cacheEntries (cacheSizeMb pieceLength : ℕ) : ℕ :=
  if 0 < pieceLength then
    min (max (min (cacheSizeMb * (1024 * 1024)) (2 ^ 64 - 1) / pieceLength) 64) 2048
  else 128

section Read

variable {files : List FileInfo} {start pos : ℕ} {data : List UInt8} {disk : Disk}

/-- The bytes of `data`, placed at the torrent offset `pos`, that fall into a file are there. -/
def Stored (pos : ℕ) (data : List UInt8) (f : FileInfo) (content : Option (List UInt8)) : Prop :=
  ∀ k < data.length, f.offset ≤ pos + k → pos + k < f.offset + f.length →
    byteAt content (pos + k - f.offset) = data[k]?

/-- A part that lies within its file is read in either way. -/
theorem readPart_of_le {path : Str} {content : List UInt8} {o n : ℕ}
    (hcontent : disk path = some content) (h : n = 0 ∨ o + n ≤ content.length) :
    readPart disk path o n = .ok ((content.drop o).take n) := by
  have hmap : File.mapAt pageSize content o n = some ((content.drop o).take n) :=
    File.mapAt_of_le (by decide) h
  have hread := File.readExact_eq_some.mpr ⟨h, rfl⟩
  rw [readPart, mmapRead, seekRead, hcontent]
  simp only [hmap, hread, ite_self]

/-- A part that is on disk is read. -/
theorem readPart_of_stored {f : FileInfo} {o n : ℕ} (h : Stored pos data f (disk f.path))
    (hn : 0 < n) (hlo : f.offset ≤ pos + o) (hdata : o + n ≤ data.length)
    (hfile : pos + o + n ≤ f.offset + f.length) :
    readPart disk f.path (pos + o - f.offset) n = .ok ((data.drop o).take n) := by
  have hbyte : ∀ i < n, byteAt (disk f.path) (pos + o - f.offset + i) = data[o + i]? := by
    intro i hi
    have := h (o + i) (by omega) (by omega) (by omega)
    rwa [show pos + (o + i) - f.offset = pos + o - f.offset + i by omega] at this
  obtain ⟨content, hcontent⟩ : ∃ content, disk f.path = some content := by
    have hfirst := hbyte 0 hn
    rw [List.getElem?_eq_getElem (by omega)] at hfirst
    obtain ⟨content, hcontent, _⟩ := Option.bind_eq_some_iff.mp hfirst
    exact ⟨content, hcontent⟩
  have hget : ∀ i < n, content[pos + o - f.offset + i]? = data[o + i]? := by
    intro i hi
    rw [← hbyte i hi, hcontent, byteAt, Option.bind_some]
  have hlen : pos + o - f.offset + n ≤ content.length := by
    have hlast := hget (n - 1) (by omega)
    rw [List.getElem?_eq_getElem (l := data) (by omega)] at hlast
    have := (List.getElem?_eq_some_iff.mp hlast).1
    omega
  rw [readPart_of_le hcontent (.inr hlen)]
  congr 1
  apply List.ext_getElem?
  intro i
  by_cases hi : i < n
  · rw [List.getElem?_take_of_lt hi, List.getElem?_take_of_lt hi, List.getElem?_drop,
      List.getElem?_drop, hget i hi]
  · rw [List.getElem?_eq_none (by rw [List.length_take]; omega),
      List.getElem?_eq_none (by rw [List.length_take]; omega)]

/-- The buffer after one more part. -/
theorem writeAt_take {o n : ℕ} (hn : o + n ≤ data.length) :
    File.writeAt (data.take o ++ List.replicate (data.length - o) 0) o ((data.drop o).take n) =
      data.take (o + n) ++ List.replicate (data.length - (o + n)) 0 := by
  have hlen : (data.take o).length = o := by rw [List.length_take]; omega
  have hpart : ((data.drop o).take n).length = n := by
    rw [List.length_take, List.length_drop]
    omega
  rw [File.writeAt, hpart, List.take_append_of_le_length, List.take_append_of_le_length,
    List.take_take, Nat.min_self, List.drop_append, hlen,
    List.drop_of_length_le (l := data.take o), List.nil_append, List.drop_replicate,
    ← List.append_assoc, ← List.take_add]
  · congr 2
    omega
  · omega
  · exact hlen.ge
  · rw [List.length_append, hlen]
    omega

/-- What is read: the data as far as the files reach, then zeros. -/
def padded (data : List UInt8) (n : ℕ) : List UInt8 :=
  data.take n ++ List.replicate (data.length - n) 0

theorem padded_of_le {n : ℕ} (h : data.length ≤ n) : padded data n = data := by
  rw [padded, List.take_of_length_le h, Nat.sub_eq_zero_of_le h, List.replicate_zero,
    List.append_nil]

/-- The loop reads from every file the part that falls into it. -/
theorem readLoop_spec (b : Build) {dataOffset remaining : ℕ} (hcont : Contiguous start files)
    (htotal : start + totalLength files < 2 ^ 64) (hpos : pos + data.length < 2 ^ 64)
    (hstored : ∀ f ∈ files, Stored pos data f (disk f.path))
    (hoff : dataOffset = min data.length (start - pos))
    (hrem : remaining = data.length - dataOffset) :
    readLoop b disk pos dataOffset remaining (padded data dataOffset) files =
      .ok (padded data (min data.length (start + totalLength files - pos))) := by
  induction files generalizing start dataOffset remaining with
  | nil =>
    rw [readLoop, totalLength, List.map_nil, List.sum_nil, Nat.add_zero, ← hoff]
  | cons f files ih =>
    obtain ⟨hstart, hrest⟩ := hcont
    simp only [totalLength, List.map_cons, List.sum_cons] at htotal
    have htail : start + f.length + totalLength files = start + totalLength (f :: files) := by
      simp only [totalLength, List.map_cons, List.sum_cons]
      omega
    -- carrying on with the other files, once this one has been dealt with
    have hcarry : ∀ next left, next = min data.length (start + f.length - pos) →
        left = data.length - next →
        readLoop b disk pos next left (padded data next) files =
          .ok (padded data (min data.length (start + totalLength (f :: files) - pos))) := by
      intro next left hnext hleft
      rw [← htail]
      exact ih hrest (by rw [totalLength]; omega)
        (fun g hg => hstored g (List.mem_cons_of_mem _ hg)) hnext hleft
    have hdoff : dataOffset ≤ data.length := by omega
    rw [readLoop, Build.add_of_lt b (by omega), Outcome.ok_bind,
      Build.add_of_lt b (by omega), Outcome.ok_bind]
    by_cases hbefore : f.offset + f.length ≤ pos + dataOffset
    · -- the file ends before the rest of the piece
      rw [if_pos hbefore]
      exact hcarry _ _ (by omega) hrem
    rw [if_neg hbefore, Build.add_of_lt b (by omega), Outcome.ok_bind]
    by_cases hafter : pos + dataOffset + remaining ≤ f.offset
    · -- the file starts behind the piece
      rw [if_pos hafter]
      exact hcarry _ _ (by omega) hrem
    rw [if_neg hafter]
    simp only
    rw [Build.sub_of_le b (by omega), Outcome.ok_bind]
    obtain ⟨n, hn⟩ : ∃ n, n = min remaining (f.length - (pos + dataOffset - f.offset)) := ⟨_, rfl⟩
    rw [← hn]
    by_cases hzero : n = 0
    · -- nothing of the piece is left
      rw [if_pos hzero]
      exact hcarry _ _ (by omega) hrem
    rw [if_neg hzero, Build.addUsize_of_lt b (by omega), Outcome.ok_bind,
      readPart_of_stored (hstored f List.mem_cons_self) (by omega) (by omega) (by omega)
        (by omega),
      Outcome.ok_bind, Build.sub_of_le b (by omega), Outcome.ok_bind, padded,
      writeAt_take (by omega)]
    by_cases hleft : remaining - n = 0
    · -- the piece ends in this file
      rw [if_pos hleft]
      congr 1
      show padded data (dataOffset + n) = _
      rw [show dataOffset + n = min data.length (start + totalLength (f :: files) - pos) by omega]
    · rw [if_neg hleft]
      exact hcarry _ _ (by omega) (by omega)

theorem length_of_readPart {path : Str} {o n : ℕ} {bytes : List UInt8}
    (h : readPart disk path o n = .ok bytes) : bytes.length = n := by
  rw [readPart, mmapRead, seekRead] at h
  cases hcontent : disk path with
  | none => simp [hcontent] at h
  | some content =>
    simp only [hcontent] at h
    split at h
    · split at h
      · next hmap =>
        obtain rfl := Outcome.ok.inj h
        exact File.length_of_mapAt hmap
      · cases h
    · split at h
      · next hread =>
        obtain rfl := Outcome.ok.inj h
        obtain ⟨hle, rfl⟩ := File.readExact_eq_some.mp hread
        rw [List.length_take, List.length_drop]
        omega
      · cases h

/-- Whatever the build does with an overflow, the loop fills the buffer with no byte that
lies behind the files. -/
theorem readLoop_zero {b : Build} {dataOffset remaining : ℕ} {buffer result : List UInt8}
    (hcont : Contiguous start files) (htotal : start + totalLength files < 2 ^ 64)
    (hpos : pos < 2 ^ 64) (hoff : dataOffset ≤ start - pos)
    (hbuffer : dataOffset + remaining = buffer.length)
    (hzero : ∀ k, dataOffset ≤ k → k < buffer.length → buffer[k]? = some 0)
    (h : readLoop b disk pos dataOffset remaining buffer files = .ok result) {k : ℕ}
    (hlo : start + totalLength files - pos ≤ k) (hhi : k < buffer.length) :
    result[k]? = some 0 := by
  induction files generalizing start dataOffset remaining buffer with
  | nil =>
    obtain rfl := Outcome.ok.inj h
    rw [totalLength, List.map_nil, List.sum_nil] at hlo
    exact hzero k (by omega) hhi
  | cons f files ih =>
    obtain ⟨hstart, hrest⟩ := hcont
    simp only [totalLength, List.map_cons, List.sum_cons] at htotal hlo
    have hskip (h : readLoop b disk pos dataOffset remaining buffer files = .ok result) :
        result[k]? = some 0 :=
      ih hrest (by rw [totalLength]; omega) (by omega) hbuffer hzero h
        (by rw [totalLength]; omega) hhi
    rw [readLoop, Build.add_of_lt b (by omega), Outcome.ok_bind,
      Build.add_of_lt b (by omega), Outcome.ok_bind] at h
    by_cases hbefore : f.offset + f.length ≤ pos + dataOffset
    · rw [if_pos hbefore] at h
      exact hskip h
    rw [if_neg hbefore, Outcome.bind_eq_ok] at h
    obtain ⟨absEnd, _, h⟩ := h
    by_cases hafter : absEnd ≤ f.offset
    · rw [if_pos hafter] at h
      exact hskip h
    rw [if_neg hafter] at h
    simp only at h
    rw [Build.sub_of_le b (by omega), Outcome.ok_bind] at h
    obtain ⟨n, hn⟩ : ∃ n, n = min remaining (f.length - (pos + dataOffset - f.offset)) := ⟨_, rfl⟩
    rw [← hn] at h
    by_cases hnone : n = 0
    · rw [if_pos hnone] at h
      exact hskip h
    rw [if_neg hnone, Build.addUsize_of_lt b (by omega), Outcome.ok_bind, Outcome.bind_eq_ok] at h
    obtain ⟨bytes, hbytes, h⟩ := h
    rw [Build.sub_of_le b (by omega), Outcome.ok_bind] at h
    have hlen : bytes.length = n := length_of_readPart hbytes
    -- the part lies before the end of this file, and behind it the buffer is as before
    have hkeep : ∀ j, dataOffset + n ≤ j → j < buffer.length →
        (File.writeAt buffer dataOffset bytes)[j]? = some 0 := by
      intro j hj hjlen
      exact File.getElem?_writeAt_of_notMem (hzero j (by omega) hjlen) (.inr (by omega))
    by_cases hleft : remaining - n = 0
    · rw [if_pos hleft] at h
      obtain rfl := Outcome.ok.inj h
      exact hkeep k (by omega) hhi
    · rw [if_neg hleft] at h
      have hsame : (File.writeAt buffer dataOffset bytes).length = buffer.length := by
        rw [File.length_writeAt]
        omega
      refine ih hrest (by rw [totalLength]; omega) (by omega) (by omega) ?_ h
        (by rw [totalLength]; omega) (by omega)
      intro j hj hjlen
      exact hkeep j hj (by omega)

end Read

end Retorrent

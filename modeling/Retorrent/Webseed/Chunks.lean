import Retorrent.Storage.RoundTrip
import Mathlib.GroupTheory.GroupAction.Ring

/-!
# Pieces in files

`split_piece_into_file_chunks`, `write_piece` and `read_piece_uncached` each walk over the files
to find where the bytes of a piece lie. What the three loops find is compared with the parts of
the files that the range of the piece meets.
-/

namespace Retorrent

open Rust

structure FileChunk where
  filePath : Str
  fileOffset : ℕ
  len : ℕ
  deriving DecidableEq

/-- The loop of `split_piece_into_file_chunks`. -/
def splitLoop (b : Build) (abs remaining : ℕ) : List FileInfo → Outcome Str (List FileChunk)
  | [] => .ok []
  | fileInfo :: files =>
    if remaining = 0 then .ok []
    else do
      let fileEnd ← b.add 64 fileInfo.offset fileInfo.length
      if fileEnd ≤ abs then splitLoop b abs remaining files
      else do
        let absEnd ← b.add 64 abs remaining
        if absEnd ≤ fileInfo.offset then .ok []
        else do
          let skip := abs - fileInfo.offset
          let space ← b.sub 64 fileInfo.length skip
          let take := min remaining space
          let next ← b.add 64 abs take
          let left ← b.sub 64 remaining take
          let chunks ← splitLoop b next left files
          return ⟨fileInfo.path, skip, take⟩ :: chunks

/-- `WebseedSource::split_piece_into_file_chunks`. -/
def splitPieceIntoFileChunks (b : Build) (m : MetaInfo) (pieceOffset pieceSize : ℕ) :
    Outcome Str (List FileChunk) := do
  let out ← splitLoop b pieceOffset pieceSize m.files
  if out.isEmpty then .err (.ascii "piece did not map to any file") else .ok out

section Parts

/-- A part of a file that holds consecutive bytes of a piece. -/
structure FilePart where
  fileIdx : ℕ
  path : Str
  offset : ℕ
  len : ℕ

def FilePart.chunk (p : FilePart) : FileChunk := ⟨p.path, p.offset, p.len⟩

/-- Write consecutive slices of the data to the parts, unless their file is skipped. -/
def writeParts (priorities : List FilePriority) : List FilePart → List UInt8 → Disk → Disk
  | [], _, disk => disk
  | p :: parts, data, disk =>
    writeParts priorities parts (data.drop p.len)
      (if isSkipped priorities p.fileIdx then disk
        else disk.write p.path p.offset (data.take p.len))

/-- Read the parts one after the other. -/
def readParts (disk : Disk) : List FilePart → Res (List UInt8)
  | [] => .ok []
  | p :: parts => do
    let bytes ← readPart disk p.path p.offset p.len
    let rest ← readParts disk parts
    return bytes ++ rest

/-- The part of a file that a range of the torrent meets. -/
def FileInfo.part (pos size fileIdx : ℕ) (f : FileInfo) : List FilePart :=
  if max pos f.offset < min (pos + size) (f.offset + f.length) then
    [⟨fileIdx, f.path, max pos f.offset - f.offset,
      min (pos + size) (f.offset + f.length) - max pos f.offset⟩]
  else []

/-- The parts of the files, from the file `fileIdx` on. -/
def partsFrom (pos size fileIdx : ℕ) : List FileInfo → List FilePart
  | [] => []
  | f :: files => f.part pos size fileIdx ++ partsFrom pos size (fileIdx + 1) files

variable {pos size fileIdx start dataOffset remaining : ℕ} {f : FileInfo} {files : List FileInfo}

/-- A loop that has come to `dataOffset` passes over a file that the rest does not meet. -/
theorem part_passed (fileIdx : ℕ) (hstart : f.offset = start)
    (hoff : dataOffset = min size (start - pos)) (hrem : remaining = size - dataOffset)
    (h : f.offset + f.length ≤ pos + dataOffset ∨ pos + dataOffset + remaining ≤ f.offset ∨
      min remaining (f.length - (pos + dataOffset - f.offset)) = 0) :
    f.part pos size fileIdx = [] ∧ dataOffset = min size (start + f.length - pos) :=
  ⟨if_neg (by omega), by omega⟩

/-- The additions of a loop that has come to `dataOffset` do not overflow. -/
theorem loop_bounds {rest : ℕ} (hstart : f.offset = start)
    (htotal : start + (f.length + rest) < 2 ^ 64) (hpos : pos + size < 2 ^ 64)
    (hoff : dataOffset = min size (start - pos)) (hrem : remaining = size - dataOffset) :
    f.offset + f.length < 2 ^ 64 ∧ pos + dataOffset < 2 ^ 64 ∧
      pos + dataOffset + remaining < 2 ^ 64 := by
  have hle : dataOffset ≤ size := hoff ▸ min_le_left _ _
  clear hoff
  omega

/-- It takes a part of another file, and comes to the end of it. -/
theorem part_taken (fileIdx : ℕ) {n : ℕ} (hstart : f.offset = start)
    (hoff : dataOffset = min size (start - pos)) (hrem : remaining = size - dataOffset)
    (hbefore : ¬ f.offset + f.length ≤ pos + dataOffset)
    (hafter : ¬ pos + dataOffset + remaining ≤ f.offset)
    (hn : n = min remaining (f.length - (pos + dataOffset - f.offset))) (hpos : n ≠ 0) :
    f.part pos size fileIdx = [⟨fileIdx, f.path, pos + dataOffset - f.offset, n⟩] ∧
      dataOffset + n = min size (start + f.length - pos) ∧
      remaining - n = size - (dataOffset + n) := by
  refine ⟨?_, by omega, by omega⟩
  rw [FileInfo.part, if_pos (by omega)]
  congr 2 <;> omega

/-- Behind the end of the range there are no parts. -/
theorem partsFrom_eq_nil (hcont : Contiguous start files) (h : size ≤ start - pos) :
    partsFrom pos size fileIdx files = [] := by
  induction files generalizing start fileIdx with
  | nil => rfl
  | cons f files ih =>
    obtain ⟨hstart, hrest⟩ := hcont
    rw [partsFrom, ih hrest (by omega), List.append_nil]
    exact if_neg (by omega)

/-- The parts cover the range as far as the files do. -/
theorem sum_partsFrom (hcont : Contiguous start files) :
    ((partsFrom pos size fileIdx files).map FilePart.len).sum =
      min (pos + size) (start + totalLength files) - max pos start := by
  induction files generalizing start fileIdx with
  | nil =>
    simp only [partsFrom, totalLength, List.map_nil, List.sum_nil]
    omega
  | cons f files ih =>
    obtain ⟨hstart, hrest⟩ := hcont
    have hpart : ((f.part pos size fileIdx).map FilePart.len).sum =
        min (pos + size) (start + f.length) - max pos start := by
      rw [FileInfo.part, hstart]
      split
      · rfl
      · simp only [List.map_nil, List.sum_nil]
        omega
    rw [partsFrom, List.map_append, List.sum_append, hpart, ih hrest]
    simp only [totalLength, List.map_cons, List.sum_cons]
    omega

/-- A part is not empty and lies in its file. -/
theorem mem_partsFrom {p : FilePart} (h : p ∈ partsFrom pos size fileIdx files) :
    0 < p.len ∧ fileIdx ≤ p.fileIdx ∧ ∃ f, files[p.fileIdx - fileIdx]? = some f ∧
      p.path = f.path ∧ p.offset + p.len ≤ f.length := by
  induction files generalizing fileIdx with
  | nil => simp [partsFrom] at h
  | cons f files ih =>
    rcases List.mem_append.mp h with hp | hp
    · rw [FileInfo.part] at hp
      split at hp
      · next hlt =>
        obtain rfl := List.mem_singleton.mp hp
        refine ⟨by dsimp only; omega, le_rfl, f, ?_, rfl, by dsimp only; omega⟩
        rw [Nat.sub_self]
        rfl
      · simp at hp
    · obtain ⟨hpos, hle, g, hg, hpath⟩ := ih hp
      refine ⟨hpos, by omega, g, ?_, hpath⟩
      rw [show p.fileIdx - fileIdx = p.fileIdx - (fileIdx + 1) + 1 by omega]
      exact hg

/-- The chunks are the parts. -/
theorem splitLoop_eq (b : Build) (fileIdx : ℕ) (hcont : Contiguous start files)
    (htotal : start + totalLength files < 2 ^ 64) (hpos : pos + size < 2 ^ 64)
    (hoff : dataOffset = min size (start - pos)) (hrem : remaining = size - dataOffset) :
    splitLoop b (pos + dataOffset) remaining files =
      .ok ((partsFrom pos size fileIdx files).map FilePart.chunk) := by
  induction files generalizing start fileIdx dataOffset remaining with
  | nil => rfl
  | cons f files ih =>
    have hrest := hcont.2
    have hstart := hcont.1
    simp only [totalLength, List.map_cons, List.sum_cons] at htotal
    have hnext {next left : ℕ} (hnext : next = min size (start + f.length - pos))
        (hleft : left = size - next) : splitLoop b (pos + next) left files =
        .ok ((partsFrom pos size (fileIdx + 1) files).map FilePart.chunk) :=
      ih (fileIdx + 1) hrest (by rw [totalLength]; omega) hnext hleft
    rw [splitLoop]
    by_cases hdone : remaining = 0
    · rw [if_pos hdone, partsFrom_eq_nil hcont (by omega)]
      rfl
    obtain ⟨hfile, _, hrange⟩ := loop_bounds hstart htotal hpos hoff hrem
    rw [if_neg hdone, Build.add_of_lt b hfile, Outcome.ok_bind, partsFrom]
    by_cases hbefore : f.offset + f.length ≤ pos + dataOffset
    · obtain ⟨hnone, hend⟩ := part_passed fileIdx hstart hoff hrem (.inl hbefore)
      rw [if_pos hbefore, hnone]
      exact hnext hend hrem
    rw [if_neg hbefore, Build.add_of_lt b hrange, Outcome.ok_bind]
    by_cases hafter : pos + dataOffset + remaining ≤ f.offset
    · rw [if_pos hafter, ← partsFrom, partsFrom_eq_nil hcont (by omega)]
      rfl
    obtain ⟨n, hn⟩ : ∃ n, n = min remaining (f.length - (pos + dataOffset - f.offset)) := ⟨_, rfl⟩
    obtain ⟨hpart, hend, hleft⟩ := part_taken fileIdx hstart hoff hrem hbefore hafter
      hn (by omega)
    rw [if_neg hafter]
    dsimp only
    rw [Build.sub_of_le b (by omega), Outcome.ok_bind, ← hn, Build.add_of_lt b (by omega),
      Outcome.ok_bind, Build.sub_of_le b (by omega), Outcome.ok_bind, Nat.add_assoc,
      hnext hend hleft, Outcome.ok_bind, hpart]
    rfl

/-- `write_piece` writes to the parts. -/
theorem writeLoop_eq (b : Build) (priorities : List FilePriority) (fileIdx : ℕ)
    {data : List UInt8} (disk : Disk) (hcont : Contiguous start files)
    (htotal : start + totalLength files < 2 ^ 64) (hpos : pos + data.length < 2 ^ 64)
    (hoff : dataOffset = min data.length (start - pos))
    (hrem : remaining = data.length - dataOffset) :
    writeLoop b data pos priorities fileIdx dataOffset remaining disk files =
      .ok (writeParts priorities (partsFrom pos data.length fileIdx files)
        (data.drop dataOffset) disk) := by
  induction files generalizing start fileIdx dataOffset remaining disk with
  | nil => rfl
  | cons f files ih =>
    have hrest := hcont.2
    have hstart := hcont.1
    simp only [totalLength, List.map_cons, List.sum_cons] at htotal
    have hnext {next left : ℕ} (disk : Disk)
        (hnext : next = min data.length (start + f.length - pos))
        (hleft : left = data.length - next) :
        writeLoop b data pos priorities (fileIdx + 1) next left disk files =
          .ok (writeParts priorities (partsFrom pos data.length (fileIdx + 1) files)
            (data.drop next) disk) :=
      ih (fileIdx + 1) disk hrest (by rw [totalLength]; omega) hnext hleft
    have hpass (h : f.part pos data.length fileIdx = [] ∧
        dataOffset = min data.length (start + f.length - pos)) :
        writeLoop b data pos priorities (fileIdx + 1) dataOffset remaining disk files =
          .ok (writeParts priorities (partsFrom pos data.length fileIdx (f :: files))
            (data.drop dataOffset) disk) := by
      rw [partsFrom, h.1]
      exact hnext disk h.2 hrem
    obtain ⟨hfile, habs, hrange⟩ := loop_bounds hstart htotal hpos hoff hrem
    rw [writeLoop, Build.add_of_lt b hfile, Outcome.ok_bind, Build.add_of_lt b habs,
      Outcome.ok_bind]
    by_cases hbefore : f.offset + f.length ≤ pos + dataOffset
    · rw [if_pos hbefore]
      exact hpass (part_passed _ hstart hoff hrem (.inl hbefore))
    rw [if_neg hbefore, Build.add_of_lt b hrange, Outcome.ok_bind]
    by_cases hafter : pos + dataOffset + remaining ≤ f.offset
    · rw [if_pos hafter]
      exact hpass (part_passed _ hstart hoff hrem (.inr (.inl hafter)))
    obtain ⟨n, hn⟩ : ∃ n, n = min remaining (f.length - (pos + dataOffset - f.offset)) := ⟨_, rfl⟩
    rw [if_neg hafter]
    dsimp only
    rw [Build.sub_of_le b (by omega), Outcome.ok_bind, ← hn]
    by_cases hzero : n = 0
    · rw [if_pos hzero]
      exact hpass (part_passed _ hstart hoff hrem (.inr (.inr (hn.symm.trans hzero))))
    have hwrite : writePart disk (isSkipped priorities fileIdx) f.path
        (pos + dataOffset - f.offset) data dataOffset (dataOffset + n) =
        .ok (if isSkipped priorities fileIdx then disk
          else disk.write f.path (pos + dataOffset - f.offset)
            ((data.drop dataOffset).take n)) := by
      rw [writePart]
      split
      · rfl
      · rw [slice_of_le (by omega) (by omega), Nat.add_sub_cancel_left]
        rfl
    obtain ⟨hpart, hend, hrest'⟩ := part_taken fileIdx hstart hoff hrem hbefore hafter
      hn hzero
    rw [if_neg hzero, Build.addUsize_of_lt b (by omega), Outcome.ok_bind, hwrite, Outcome.ok_bind,
      Build.sub_of_le b (by omega), Outcome.ok_bind, partsFrom, hpart, List.singleton_append,
      writeParts, List.drop_drop]
    by_cases hleft : remaining - n = 0
    · rw [if_pos hleft, partsFrom_eq_nil hrest (by omega)]
      rfl
    · rw [if_neg hleft]
      exact hnext _ hend hrest'

/-- A buffer that is filled from the front. -/
theorem writeAt_filled (acc bytes : List UInt8) (room : ℕ) :
    File.writeAt (acc ++ List.replicate room 0) acc.length bytes =
      acc ++ bytes ++ List.replicate (room - bytes.length) 0 := by
  have hfit : acc.length - (acc ++ List.replicate room (0 : UInt8)).length = 0 := by
    rw [List.length_append]
    omega
  rw [File.writeAt, hfit, List.replicate_zero, List.append_nil, List.take_left,
    List.drop_append, List.drop_eq_nil_of_le (Nat.le_add_right _ _), List.nil_append,
    Nat.add_sub_cancel_left, List.drop_replicate, List.append_assoc]

/-- `read_piece_uncached` reads the parts, where they cover the piece. -/
theorem readLoop_eq (b : Build) (fileIdx : ℕ) (disk : Disk) {acc : List UInt8}
    (hcont : Contiguous start files) (htotal : start + totalLength files < 2 ^ 64)
    (hpos : pos + size < 2 ^ 64) (hfit : size ≤ start + totalLength files - pos)
    (hoff : acc.length = min size (start - pos)) (hrem : remaining = size - acc.length) :
    readLoop b disk pos acc.length remaining (acc ++ List.replicate remaining 0) files =
      readParts disk (partsFrom pos size fileIdx files) >>= fun bytes => .ok (acc ++ bytes) := by
  induction files generalizing start fileIdx remaining acc with
  | nil =>
    rw [totalLength, List.map_nil, List.sum_nil, Nat.add_zero] at hfit
    have hnone : remaining = 0 := by omega
    rw [readLoop, hnone]
    rfl
  | cons f files ih =>
    have hrest := hcont.2
    have hstart := hcont.1
    simp only [totalLength, List.map_cons, List.sum_cons] at htotal hfit
    have hnext {acc : List UInt8} {left : ℕ}
        (hnext : acc.length = min size (start + f.length - pos))
        (hleft : left = size - acc.length) :
        readLoop b disk pos acc.length left (acc ++ List.replicate left 0) files =
          readParts disk (partsFrom pos size (fileIdx + 1) files) >>=
            fun bytes => .ok (acc ++ bytes) :=
      ih (fileIdx + 1) hrest (by rw [totalLength]; omega) (by rw [totalLength]; omega) hnext hleft
    have hpass (h : f.part pos size fileIdx = [] ∧
        acc.length = min size (start + f.length - pos)) :
        readLoop b disk pos acc.length remaining (acc ++ List.replicate remaining 0) files =
          readParts disk (partsFrom pos size fileIdx (f :: files)) >>=
            fun bytes => .ok (acc ++ bytes) := by
      rw [partsFrom, h.1]
      exact hnext h.2 hrem
    obtain ⟨hfile, habs, hrange⟩ := loop_bounds hstart htotal hpos hoff hrem
    rw [readLoop, Build.add_of_lt b hfile, Outcome.ok_bind, Build.add_of_lt b habs,
      Outcome.ok_bind]
    by_cases hbefore : f.offset + f.length ≤ pos + acc.length
    · rw [if_pos hbefore]
      exact hpass (part_passed _ hstart hoff hrem (.inl hbefore))
    rw [if_neg hbefore, Build.add_of_lt b hrange, Outcome.ok_bind]
    by_cases hafter : pos + acc.length + remaining ≤ f.offset
    · rw [if_pos hafter]
      exact hpass (part_passed _ hstart hoff hrem (.inr (.inl hafter)))
    obtain ⟨n, hn⟩ : ∃ n, n = min remaining (f.length - (pos + acc.length - f.offset)) := ⟨_, rfl⟩
    rw [if_neg hafter]
    dsimp only
    rw [Build.sub_of_le b (by omega), Outcome.ok_bind, ← hn]
    by_cases hzero : n = 0
    · rw [if_pos hzero]
      exact hpass (part_passed _ hstart hoff hrem (.inr (.inr (hn.symm.trans hzero))))
    obtain ⟨hpart, hend, hrest'⟩ := part_taken fileIdx hstart hoff hrem hbefore hafter
      hn hzero
    rw [if_neg hzero, Build.addUsize_of_lt b (by omega), Outcome.ok_bind, partsFrom, hpart,
      List.singleton_append, readParts]
    cases hread : readPart disk f.path (pos + acc.length - f.offset) n with
    | ok bytes =>
      have hlen := length_of_readPart hread
      have hmore : (acc ++ bytes).length = acc.length + n := by rw [List.length_append, hlen]
      rw [Outcome.ok_bind, Build.sub_of_le b (by omega), Outcome.ok_bind, Outcome.ok_bind,
        writeAt_filled, hlen]
      by_cases hleft : remaining - n = 0
      · rw [if_pos hleft, partsFrom_eq_nil hrest (by omega), hleft, List.replicate_zero,
          List.append_nil]
        simp [readParts]
      · rw [if_neg hleft, ← hmore, hnext (hmore.trans hend) (by rw [hmore]; exact hrest')]
        cases readParts disk (partsFrom pos size (fileIdx + 1) files) <;> simp
    | err e => rfl
    | panic c => rfl
    | hang => rfl

/-- Whatever the build does with an overflow, the chunks end where the files end. -/
theorem sum_splitLoop_le {b : Build} {abs : ℕ} {chunks : List FileChunk}
    (hcont : Contiguous start files) (htotal : start + totalLength files < 2 ^ 64)
    (h : splitLoop b abs remaining files = .ok chunks) :
    (chunks.map FileChunk.len).sum ≤ start + totalLength files - abs := by
  induction files generalizing start abs remaining chunks with
  | nil =>
    obtain rfl := Outcome.ok.inj h
    exact Nat.zero_le _
  | cons f files ih =>
    obtain ⟨hstart, hrest⟩ := hcont
    have htail : start + f.length + totalLength files = start + totalLength (f :: files) := by
      simp only [totalLength, List.map_cons, List.sum_cons]
      omega
    have hnext {abs left : ℕ} {chunks : List FileChunk}
        (h : splitLoop b abs left files = .ok chunks) :
        (chunks.map FileChunk.len).sum ≤ start + totalLength (f :: files) - abs := by
      rw [← htail] at htotal ⊢
      exact ih hrest htotal h
    rw [splitLoop] at h
    split at h
    · obtain rfl := Outcome.ok.inj h
      exact Nat.zero_le _
    rw [Build.add_of_lt b (by omega), Outcome.ok_bind] at h
    split at h
    · exact hnext h
    next hbefore =>
    obtain ⟨absEnd, _, h⟩ := Outcome.bind_eq_ok.mp h
    split at h
    · obtain rfl := Outcome.ok.inj h
      exact Nat.zero_le _
    obtain ⟨space, hspace, h⟩ := Outcome.bind_eq_ok.mp h
    rw [Build.sub_of_le b (by omega), Outcome.ok.injEq] at hspace
    obtain ⟨next, hnext', h⟩ := Outcome.bind_eq_ok.mp h
    rw [Build.add_of_lt b (by omega), Outcome.ok.injEq] at hnext'
    obtain ⟨left, _, h⟩ := Outcome.bind_eq_ok.mp h
    obtain ⟨rest, hrest', h⟩ := Outcome.bind_eq_ok.mp h
    obtain rfl := Outcome.ok.inj h
    have hsum := hnext hrest'
    rw [List.map_cons, List.sum_cons]
    dsimp only
    omega

end Parts

/-- Files without gaps in pieces of positive length. -/
structure Gapless (m : MetaInfo) : Prop where
  pieceLength_pos : 0 < m.pieceLength
  contiguous : Contiguous 0 m.files
  total_lt : totalLength m.files < 2 ^ 64
  total : m.totalSize = totalLength m.files

/-- The chunks of a piece, `write_piece` and `read_piece_uncached` map its bytes to the same parts
of the files: the chunks are those parts, consecutive slices of the data are written to them, and
what is read comes from them in the same order. -/
structure MapsTo (b : Build) (m : MetaInfo) (index size : ℕ) (parts : List FilePart) : Prop where
  chunks : splitPieceIntoFileChunks b m (index * m.pieceLength) size =
    .ok (parts.map FilePart.chunk)
  placed : ∀ p ∈ parts, ∃ f, m.files[p.fileIdx]? = some f ∧ p.path = f.path ∧
    p.offset + p.len ≤ f.length
  write : ∀ basePath priorities data disk, data.length = size →
    DiskStorage.writePiece b ⟨basePath, m⟩ priorities index data disk =
      .ok (writeParts priorities parts data disk)
  read : ∀ basePath disk,
    DiskStorage.readPieceUncached b ⟨basePath, m⟩ index size disk = readParts disk parts

/-- The bytes of a piece are mapped in one way, by chunks that are not empty and make up the
piece. -/
def MapsPiece (b : Build) (m : MetaInfo) (index : ℕ) : Prop :=
  ∃ size parts, m.pieceManager.pieceSize b index = .ok size ∧ MapsTo b m index size parts ∧
    (∀ p ∈ parts, 0 < p.len) ∧ (parts.map FilePart.len).sum = size

variable {b : Build} {m : MetaInfo} {index size : ℕ}

/-- The parts of a piece within the torrent make up the piece. -/
theorem sum_parts (hm : Gapless m) (hfit : index * m.pieceLength + size ≤ m.totalSize) :
    ((partsFrom (index * m.pieceLength) size 0 m.files).map FilePart.len).sum = size := by
  rw [sum_partsFrom hm.contiguous, Nat.zero_add, ← hm.total]
  omega

/-- A piece within the torrent is mapped to the parts that its range meets. -/
theorem mapsTo_of_le (hm : Gapless m) (hpos : 0 < size)
    (hfit : index * m.pieceLength + size ≤ m.totalSize) (hbound : size ≤ isizeMax) :
    MapsTo b m index size (partsFrom (index * m.pieceLength) size 0 m.files) := by
  have htotal : 0 + totalLength m.files < 2 ^ 64 := by
    rw [Nat.zero_add]
    exact hm.total_lt
  have hend : index * m.pieceLength + size < 2 ^ 64 := by
    rw [hm.total] at hfit
    omega
  have hstart : index * m.pieceLength < 2 ^ 64 := by omega
  have hfront : 0 = min size (0 - index * m.pieceLength) := by omega
  constructor
  case chunks =>
    have hsplit := splitLoop_eq b 0 hm.contiguous htotal hend hfront (Nat.sub_zero size).symm
    rw [Nat.add_zero] at hsplit
    have hsome : ¬ ((partsFrom (index * m.pieceLength) size 0 m.files).map
        FilePart.chunk).isEmpty = true := by
      rw [List.isEmpty_iff, List.map_eq_nil_iff]
      intro hnil
      have hsum := sum_parts hm hfit
      rw [hnil] at hsum
      exact hpos.ne hsum
    rw [splitPieceIntoFileChunks, hsplit, Outcome.ok_bind, if_neg hsome]
  case placed => exact fun p hp => (mem_partsFrom hp).2.2
  case write =>
    rintro basePath priorities data disk rfl
    rw [DiskStorage.writePiece, Build.mul_of_lt b hstart, Outcome.ok_bind]
    exact writeLoop_eq b priorities 0 disk hm.contiguous htotal hend hfront (Nat.sub_zero _).symm
  case read =>
    intro basePath disk
    have hbuffer : (Bytes.ofList (List.replicate size 0) : Res Bytes) =
        .ok ⟨List.replicate size 0, by rw [List.length_replicate]; exact hbound⟩ :=
      Bytes.ofList_eq_ok.mpr rfl
    have hcover : size ≤ 0 + totalLength m.files - index * m.pieceLength := by
      rw [hm.total] at hfit
      omega
    have hread := @readLoop_eq (index * m.pieceLength) size 0 size m.files b 0 disk []
      hm.contiguous htotal hend hcover hfront (Nat.sub_zero size).symm
    rw [DiskStorage.readPieceUncached, Build.mul_of_lt b hstart, Outcome.ok_bind, hbuffer,
      Outcome.ok_bind]
    refine hread.trans ?_
    cases readParts disk (partsFrom (index * m.pieceLength) size 0 m.files) <;> rfl

/-- Without files, reading the parts ends with an error. -/
theorem readParts_returns (parts : List FilePart) : (readParts (fun _ => none) parts).Returns := by
  cases parts with
  | nil => trivial
  | cons p parts =>
    have hpart : readPart (fun _ => none) p.path p.offset p.len = .err notFound := by
      simp only [readPart, mmapRead, seekRead, ite_self]
    rw [readParts, hpart]
    trivial

/-- No piece is empty. -/
theorem PieceManager.pieceSize_pos {pm : PieceManager} (hlen : 0 < pm.pieceLength)
    (h : pm.pieceSize b index = .ok size) : 0 < size := by
  obtain ⟨last, _, h⟩ := Outcome.bind_eq_ok.mp h
  split at h
  · rw [rem_of_pos hlen, Outcome.ok_bind] at h
    obtain rfl := Outcome.ok.inj h
    split
    · exact hlen
    · next hrem => exact Nat.pos_of_ne_zero hrem
  · exact Outcome.ok.inj h ▸ hlen

/-- The bytes of a piece are mapped in one way exactly when the piece ends within the torrent and
fits a vector. -/
theorem mapsPiece_iff (hm : Gapless m) (hindex : index < m.totalSize ⌈/⌉ m.pieceLength) :
    MapsPiece b m index ↔ ∃ size, m.pieceManager.pieceSize b index = .ok size ∧
      index * m.pieceLength + size ≤ m.totalSize ∧ size ≤ isizeMax := by
  have hstart := mul_lt_of_lt_ceilDiv hm.pieceLength_pos hindex
  constructor
  · rintro ⟨size, parts, hsize, hmaps, hpos, hsum⟩
    refine ⟨size, hsize, ?_, ?_⟩
    · obtain ⟨chunks, hsplit, hchunks⟩ := Outcome.bind_eq_ok.mp hmaps.chunks
      have hlen : (chunks.map FileChunk.len).sum = size := by
        split at hchunks
        · cases hchunks
        · obtain rfl := Outcome.ok.inj hchunks
          rw [List.map_map]
          exact hsum
      have hle := sum_splitLoop_le hm.contiguous (by rw [Nat.zero_add]; exact hm.total_lt) hsplit
      rw [hlen, Nat.zero_add, ← hm.total] at hle
      omega
    · by_contra hlarge
      have hread := hmaps.read [] fun _ => none
      have hmul : index * m.pieceLength < 2 ^ 64 := hstart.trans (hm.total ▸ hm.total_lt)
      have hreturns := readParts_returns parts
      rw [← hread, DiskStorage.readPieceUncached, Build.mul_of_lt b hmul, Outcome.ok_bind,
        Bytes.ofList, dif_neg (by rw [List.length_replicate]; exact hlarge)] at hreturns
      exact hreturns
  · rintro ⟨size, hsize, hfit, hbound⟩
    have hpos : 0 < size := PieceManager.pieceSize_pos hm.pieceLength_pos hsize
    exact ⟨size, _, hsize, mapsTo_of_le hm hpos hfit hbound,
      fun p hp => (mem_partsFrom hp).1, sum_parts hm hfit⟩

theorem gapless_of_file {path : Str} {n : ℕ} (hlen : 0 < m.pieceLength)
    (hfiles : m.files = [⟨path, n, 0⟩]) (htotal : m.totalSize = n) (hn : n < 2 ^ 64) :
    Gapless m :=
  have hlayout := layout_of_file hlen hfiles htotal hn
  ⟨hlayout.pieceLength_pos, hlayout.contiguous, hlayout.total_lt, hlayout.total⟩

/-- The second piece of three bytes in pieces of two. -/
theorem mapsPiece_sampleTorrent :
    ∃ m, MetaInfo.fromBytes (fun _ => sampleHash) .debug sampleTorrent = .ok m ∧
      MapsPiece .debug m 1 := by
  obtain ⟨m, hm, hlen, hfiles, htotal, hpieces⟩ := sampleTorrent_fields
  have hgapless : Gapless m := gapless_of_file (by omega) hfiles htotal (by norm_num)
  have hcount : m.totalSize ⌈/⌉ m.pieceLength = 2 :=
    (ceilDiv_eq_succ hgapless.pieceLength_pos).mpr (by omega)
  have hsize : m.pieceManager.pieceSize .debug 1 = .ok 1 := by
    rw [pieceSize_eq hgapless.pieceLength_pos (by omega), hlen, htotal, hpieces]
    rfl
  exact ⟨m, hm, (mapsPiece_iff hgapless (by omega)).mpr
    ⟨1, hsize, by omega, by rw [isizeMax]; norm_num⟩⟩

/-- With a hash too many, its size goes beyond the end of the torrent. -/
theorem overhashedTorrent_not_mapsPiece :
    ∃ m, MetaInfo.fromBytes (fun _ => overhashedHash) .debug overhashedTorrent = .ok m ∧
      Gapless m ∧ 1 < m.totalSize ⌈/⌉ m.pieceLength ∧ ¬ MapsPiece .debug m 1 := by
  obtain ⟨m, hm, hlen, hfiles, htotal, hpieces⟩ := overhashedTorrent_accepted
  have hgapless : Gapless m := gapless_of_file (by omega) hfiles htotal (by norm_num)
  have hcount : m.totalSize ⌈/⌉ m.pieceLength = 2 :=
    (ceilDiv_eq_succ hgapless.pieceLength_pos).mpr (by omega)
  refine ⟨m, hm, hgapless, by omega, ?_⟩
  rintro ⟨size, parts, hsize, hmaps, _, hsum⟩
  -- a whole piece, of which one byte is left
  rw [pieceSize_eq hgapless.pieceLength_pos (by omega), hlen, htotal, hpieces] at hsize
  obtain rfl : 2 = size := Outcome.ok.inj hsize
  have hsplit : splitPieceIntoFileChunks .debug m (1 * 2) 2 = .ok [⟨.ascii "x", 2, 1⟩] := by
    rw [splitPieceIntoFileChunks, hfiles]
    rfl
  have hchunks := hmaps.chunks
  rw [hlen, hsplit, Outcome.ok.injEq] at hchunks
  have hlens : ((parts.map FilePart.chunk).map FileChunk.len).sum = 1 := by
    rw [← hchunks]
    rfl
  rw [List.map_map] at hlens
  exact absurd (hsum.symm.trans hlens) (by decide)

end Retorrent

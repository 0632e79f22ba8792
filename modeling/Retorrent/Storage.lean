import Retorrent.Piece
import Retorrent.Rustlib.File

/-!
# Disk storage

`DiskStorage`, its constructor and `write_piece`. The file system is a map from
torrent-relative paths to contents; how creating and opening files ends is
outside the model.
-/

namespace Retorrent

open Rust

/-- The fields that locate files. The file priorities are shared with the session. -/
structure DiskStorage where
  basePath : List UInt8
  metaInfo : MetaInfo

/-- `DiskStorage::new`, where `io` is how the creation of the files ended. -/
def DiskStorage.new (io : Res Unit) (basePath : List UInt8) (metaInfo : MetaInfo) :
    Res DiskStorage := do
  io
  return { basePath := basePath, metaInfo := metaInfo }

/-- The files below the download directory. -/
abbrev Disk := Str → Option (List UInt8)

/-- Open or create a file and write to it. -/
def Disk.write (disk : Disk) (path : Str) (offset : ℕ) (bytes : List UInt8) : Disk :=
  Function.update disk path (some (File.writeAt ((disk path).getD []) offset bytes))

def isSkipped (priorities : List FilePriority) (fileIdx : ℕ) : Bool :=
  priorities[fileIdx]? == some .skip

/-- Write `data[start..stop]` to a file, unless the file is skipped. -/
def writePart (disk : Disk) (skipped : Bool) (path : Str) (offset : ℕ) (data : List UInt8)
    (start stop : ℕ) : Res Disk :=
  if skipped then .ok disk
  else do
    let bytes ← slice data start stop
    return disk.write path offset bytes

/-- The loop of `write_piece`, from the file `fileIdx` on. -/
def writeLoop (b : Build) (data : List UInt8) (pieceOffset : ℕ)
    (priorities : List FilePriority) (fileIdx dataOffset remaining : ℕ) (disk : Disk) :
    List FileInfo → Res Disk
  | [] => .ok disk
  | fileInfo :: files => do
    let fileEnd ← b.add 64 fileInfo.offset fileInfo.length
    let absStart ← b.add 64 pieceOffset dataOffset
    if fileEnd ≤ absStart then
      writeLoop b data pieceOffset priorities (fileIdx + 1) dataOffset remaining disk files
    else do
      let absEnd ← b.add 64 absStart remaining
      if absEnd ≤ fileInfo.offset then
        writeLoop b data pieceOffset priorities (fileIdx + 1) dataOffset remaining disk files
      else do
        let offsetInFile := absStart - fileInfo.offset
        let space ← b.sub 64 fileInfo.length offsetInFile
        let writable := min remaining space
        if writable = 0 then
          writeLoop b data pieceOffset priorities (fileIdx + 1) dataOffset remaining disk files
        else do
          let next ← b.addUsize dataOffset writable
          let disk ← writePart disk (isSkipped priorities fileIdx) fileInfo.path offsetInFile data
            dataOffset next
          let left ← b.sub 64 remaining writable
          if left = 0 then .ok disk
          else writeLoop b data pieceOffset priorities (fileIdx + 1) next left disk files

/-- `DiskStorage::write_piece`, when the files can be opened and written. -/
def DiskStorage.writePiece (b : Build) (storage : DiskStorage) (priorities : List FilePriority)
    (index : ℕ) (data : List UInt8) (disk : Disk) : Res Disk := do
  let pieceOffset ← b.mul 64 index storage.metaInfo.pieceLength
  writeLoop b data pieceOffset priorities 0 0 data.length disk storage.metaInfo.files

section Layout

/-- The files follow each other without gaps from `start` on. -/
def Contiguous (start : ℕ) : List FileInfo → Prop
  | [] => True
  | f :: files => f.offset = start ∧ Contiguous (start + f.length) files

variable {files : List FileInfo} {start : ℕ}

/-- The size of all files together. -/
def totalLength (files : List FileInfo) : ℕ := (files.map FileInfo.length).sum

theorem Contiguous.le_offset (h : Contiguous start files) {f : FileInfo} (hf : f ∈ files) :
    start ≤ f.offset := by
  induction files generalizing start with
  | nil => simp at hf
  | cons g files ih =>
    obtain ⟨hg, hrest⟩ := h
    rcases List.mem_cons.mp hf with rfl | hf
    · exact hg.ge
    · have := ih hrest hf
      omega

theorem Contiguous.end_le (h : Contiguous start files) {f : FileInfo} (hf : f ∈ files) :
    f.offset + f.length ≤ start + totalLength files := by
  induction files generalizing start with
  | nil => simp at hf
  | cons g files ih =>
    obtain ⟨hg, hrest⟩ := h
    rw [totalLength, List.map_cons, List.sum_cons]
    rcases List.mem_cons.mp hf with rfl | hf
    · omega
    · have := ih hrest hf
      rw [totalLength] at this
      omega

/-- The byte of a file at position `k`, if it is on disk. -/
def byteAt (content : Option (List UInt8)) (k : ℕ) : Option UInt8 := content.bind (·[k]?)

/-- What a write of `data` at the torrent offset `pos` does to one file. -/
structure Wrote (pos : ℕ) (data : List UInt8) (f : FileInfo) (skipped : Bool)
    (old new : Option (List UInt8)) : Prop where
  kept : skipped = true → new = old
  stored : skipped = false → ∀ k < data.length, f.offset ≤ pos + k →
    pos + k < f.offset + f.length → byteAt new (pos + k - f.offset) = data[k]?
  frame : ∀ k x, byteAt old k = some x →
    ¬ (pos ≤ f.offset + k ∧ f.offset + k < pos + data.length ∧ k < f.length) →
    byteAt new k = some x

/-- A file that the range misses is left alone. -/
theorem wrote_of_disjoint {pos : ℕ} {data : List UInt8} {f : FileInfo} {skipped : Bool}
    {content : Option (List UInt8)}
    (h : ∀ k < data.length, f.offset ≤ pos + k → f.offset + f.length ≤ pos + k) :
    Wrote pos data f skipped content content where
  kept _ := rfl
  stored _ k hk hlo hhi := absurd (h k hk hlo) (by omega)
  frame _ _ hx _ := hx

/-- The part of the data that falls into the file is written there. -/
theorem wrote_writeAt {pos n : ℕ} {data : List UInt8} {f : FileInfo} {disk : Disk}
    {dataOffset : ℕ} (hoff : dataOffset = min data.length (f.offset - pos))
    (hin : f.offset ≤ pos + dataOffset)
    (hn : n = min (data.length - dataOffset) (f.length - (pos + dataOffset - f.offset)))
    (hfit : pos + dataOffset < f.offset + f.length) :
    Wrote pos data f false (disk f.path)
      ((disk.write f.path (pos + dataOffset - f.offset)
        ((data.drop dataOffset).take n)) f.path) := by
  have hlen : ((data.drop dataOffset).take n).length = n := by
    rw [List.length_take, List.length_drop]
    omega
  constructor
  · intro h
    simp at h
  · intro _ k hk hlo hhi
    rw [Disk.write, Function.update_self, byteAt, Option.bind_some,
      File.getElem?_writeAt_of_mem (by omega) (by rw [hlen]; omega),
      List.getElem?_take_of_lt (by omega), List.getElem?_drop]
    congr 1
    omega
  · intro k x hx hout
    obtain ⟨content, hcontent, hget⟩ := Option.bind_eq_some_iff.mp hx
    rw [Disk.write, Function.update_self, byteAt, Option.bind_some, hcontent, Option.getD_some]
    exact File.getElem?_writeAt_of_notMem hget (by rw [hlen]; omega)

/-- The body of the loop for a file that the data reaches. -/
theorem writePart_spec {pos n : ℕ} {data : List UInt8} {f : FileInfo} (disk : Disk)
    (skipped : Bool) {dataOffset : ℕ} (hoff : dataOffset = min data.length (f.offset - pos))
    (hin : f.offset ≤ pos + dataOffset)
    (hn : n = min (data.length - dataOffset) (f.length - (pos + dataOffset - f.offset)))
    (hfit : pos + dataOffset < f.offset + f.length) :
    ∃ disk', writePart disk skipped f.path (pos + dataOffset - f.offset) data dataOffset
        (dataOffset + n) = .ok disk' ∧
      Wrote pos data f skipped (disk f.path) (disk' f.path) ∧
      ∀ path, path ≠ f.path → disk' path = disk path := by
  unfold writePart
  cases skipped with
  | true =>
    exact ⟨disk, rfl, ⟨fun _ => rfl, fun h => by simp at h, fun _ _ hx _ => hx⟩, fun _ _ => rfl⟩
  | false =>
    rw [if_neg (by simp), slice_of_le (by omega) (by omega), Nat.add_sub_cancel_left]
    refine ⟨_, rfl, wrote_writeAt hoff hin hn hfit, ?_⟩
    intro path hpath
    exact Function.update_of_ne hpath _ _

/-- Every file has got the part of the data that falls into it, and no other file has changed. -/
structure WroteAll (pos : ℕ) (data : List UInt8) (priorities : List FilePriority) (fileIdx : ℕ)
    (files : List FileInfo) (disk disk' : Disk) : Prop where
  other : ∀ path, path ∉ files.map FileInfo.path → disk' path = disk path
  files : ∀ i f, files[i]? = some f →
    Wrote pos data f (isSkipped priorities (fileIdx + i)) (disk f.path) (disk' f.path)

section WroteAll

variable {pos : ℕ} {data : List UInt8} {priorities : List FilePriority} {fileIdx : ℕ} {f : FileInfo}
  {disk disk₁ disk' : Disk}

/-- Files that the data misses are left alone. -/
theorem wroteAll_of_disjoint (disk : Disk)
    (h : ∀ f ∈ files, ∀ k < data.length, f.offset ≤ pos + k → f.offset + f.length ≤ pos + k) :
    WroteAll pos data priorities fileIdx files disk disk where
  other _ _ := rfl
  files _ f hf := wrote_of_disjoint (h f (List.mem_of_getElem? hf))

/-- One file gets its part, and then the files behind it. -/
theorem WroteAll.cons (hfresh : f.path ∉ files.map FileInfo.path)
    (hwrote : Wrote pos data f (isSkipped priorities fileIdx) (disk f.path) (disk₁ f.path))
    (hsame : ∀ path, path ≠ f.path → disk₁ path = disk path)
    (h : WroteAll pos data priorities (fileIdx + 1) files disk₁ disk') :
    WroteAll pos data priorities fileIdx (f :: files) disk disk' where
  other path hpath := by
    rw [List.map_cons, List.mem_cons, not_or] at hpath
    rw [h.other path hpath.2, hsame path hpath.1]
  files i g hg := by
    cases i with
    | zero =>
      obtain rfl : f = g := Option.some.inj hg
      rw [h.other _ hfresh]
      exact hwrote
    | succ i =>
      have hne : g.path ≠ f.path := by
        intro heq
        exact hfresh (heq ▸ List.mem_map_of_mem (List.mem_of_getElem? hg))
      rw [← hsame _ hne, show fileIdx + (i + 1) = fileIdx + 1 + i by omega]
      exact h.files i g hg

end WroteAll

/-- The loop writes to every file the part of the data that falls into it, and
to no other file. -/
theorem writeLoop_spec (b : Build) {data : List UInt8} {pos : ℕ}
    (priorities : List FilePriority) (fileIdx : ℕ) {dataOffset remaining : ℕ} (disk : Disk)
    (hcont : Contiguous start files) (hnodup : (files.map FileInfo.path).Nodup)
    (htotal : start + totalLength files < 2 ^ 64) (hpos : pos + data.length < 2 ^ 64)
    (hoff : dataOffset = min data.length (start - pos))
    (hrem : remaining = data.length - dataOffset) :
    ∃ disk', writeLoop b data pos priorities fileIdx dataOffset remaining disk files = .ok disk' ∧
      WroteAll pos data priorities fileIdx files disk disk' := by
  induction files generalizing start fileIdx dataOffset remaining disk with
  | nil => exact ⟨disk, rfl, fun _ _ => rfl, by simp⟩
  | cons f files ih =>
    obtain ⟨hstart, hrest⟩ := hcont
    rw [List.map_cons, List.nodup_cons] at hnodup
    obtain ⟨hfresh, hnodup⟩ := hnodup
    simp only [totalLength, List.map_cons, List.sum_cons] at htotal
    -- carrying on with the other files, once this one has been dealt with
    have hcarry : ∀ next left (disk₁ : Disk),
        Wrote pos data f (isSkipped priorities fileIdx) (disk f.path) (disk₁ f.path) →
        (∀ path, path ≠ f.path → disk₁ path = disk path) →
        next = min data.length (start + f.length - pos) → left = data.length - next →
        ∃ disk', writeLoop b data pos priorities (fileIdx + 1) next left disk₁ files = .ok disk' ∧
          WroteAll pos data priorities fileIdx (f :: files) disk disk' := by
      intro next left disk₁ hwrote hsame hnext hleft
      obtain ⟨disk', hrun, hall⟩ := ih (fileIdx + 1) disk₁ hrest hnodup
        (by rw [totalLength]; omega) hnext hleft
      exact ⟨disk', hrun, hall.cons hfresh hwrote hsame⟩
    have hdoff : dataOffset ≤ data.length := by omega
    rw [writeLoop, Build.add_of_lt b (by omega), Outcome.ok_bind,
      Build.add_of_lt b (by omega), Outcome.ok_bind]
    by_cases hbefore : f.offset + f.length ≤ pos + dataOffset
    · -- the file ends before the rest of the data
      rw [if_pos hbefore]
      exact hcarry _ _ disk (wrote_of_disjoint fun k hk hlo => by omega) (fun _ _ => rfl)
        (by omega) hrem
    rw [if_neg hbefore, Build.add_of_lt b (by omega), Outcome.ok_bind]
    by_cases hafter : pos + dataOffset + remaining ≤ f.offset
    · -- the file starts behind the data
      rw [if_pos hafter]
      exact hcarry _ _ disk (wrote_of_disjoint fun k hk hlo => by omega) (fun _ _ => rfl)
        (by omega) hrem
    rw [if_neg hafter]
    simp only
    rw [Build.sub_of_le b (by omega), Outcome.ok_bind]
    by_cases hzero : min remaining (f.length - (pos + dataOffset - f.offset)) = 0
    · -- nothing of the data is left
      rw [if_pos hzero]
      exact hcarry _ _ disk (wrote_of_disjoint fun k hk hlo => by omega) (fun _ _ => rfl)
        (by omega) hrem
    rw [if_neg hzero, Build.addUsize_of_lt b (by omega), Outcome.ok_bind]
    obtain ⟨n, hn⟩ : ∃ n, n = min remaining (f.length - (pos + dataOffset - f.offset)) := ⟨_, rfl⟩
    rw [← hn]
    obtain ⟨disk₁, hbody, hwrote, hsame⟩ := writePart_spec disk
      (isSkipped priorities fileIdx) (hstart ▸ hoff) (by omega) (hrem ▸ hn) (by omega)
    rw [hbody, Outcome.ok_bind, Build.sub_of_le b (by omega), Outcome.ok_bind]
    by_cases hleft : remaining - n = 0
    · -- the data ends in this file, and the files behind it are left alone
      rw [if_pos hleft]
      refine ⟨disk₁, rfl, (wroteAll_of_disjoint disk₁ ?_).cons hfresh hwrote hsame⟩
      intro g hg k hk hlo
      have hge := hrest.le_offset hg
      omega
    · rw [if_neg hleft]
      exact hcarry _ _ disk₁ hwrote hsame (by omega) (by omega)

/-- A layout that the writer can rely on: no gaps, one place for each path, and
sizes that fit 64 bits. -/
structure WellFormed (m : MetaInfo) : Prop where
  pieceLength_pos : 0 < m.pieceLength
  contiguous : Contiguous 0 m.files
  distinct : (m.files.map FileInfo.path).Nodup
  total_lt : totalLength m.files < 2 ^ 64

/-- `write_piece` stores the data of a piece in every file that is not skipped. -/
theorem DiskStorage.writePiece_spec (b : Build) (storage : DiskStorage)
    (priorities : List FilePriority) (index : ℕ) (data : List UInt8) (disk : Disk)
    (hm : WellFormed storage.metaInfo)
    (hend : index * storage.metaInfo.pieceLength + data.length < 2 ^ 64) :
    ∃ disk', storage.writePiece b priorities index data disk = .ok disk' ∧
      ∀ i f, storage.metaInfo.files[i]? = some f →
        Wrote (index * storage.metaInfo.pieceLength) data f (isSkipped priorities i)
          (disk f.path) (disk' f.path) := by
  have hoffset : 0 = min data.length (0 - index * storage.metaInfo.pieceLength) := by omega
  obtain ⟨disk', hrun, hall⟩ := writeLoop_spec b priorities 0 disk hm.contiguous
    hm.distinct (by rw [Nat.zero_add]; exact hm.total_lt) hend hoffset rfl
  refine ⟨disk', ?_, fun i f hf => Nat.zero_add i ▸ hall.files i f hf⟩
  rw [writePiece, Build.mul_of_lt b (by omega), Outcome.ok_bind]
  exact hrun

end Layout

end Retorrent

import Retorrent.Metainfo.Geometry
import Retorrent.Storage.Read
import Mathlib.GroupTheory.GroupAction.Ring

/-!
# What is written is read back

Runs of writes and reads on one storage. The sizes of the pieces come from the piece
manager, which takes the number of pieces from the hashes.
-/

namespace Retorrent

open Rust Systems

/-- The piece manager that a session makes for its metainfo. -/
def MetaInfo.pieceManager (m : MetaInfo) : PieceManager :=
  .new m.numPieces m.pieceLength m.totalSize m.pieces

/-- A layout whose total size is that of its files. -/
structure Layout (m : MetaInfo) : Prop extends WellFormed m where
  total : m.totalSize = totalLength m.files

/-- A storage in use. `last` is what was last written to each piece. -/
structure StorageState where
  disk : Disk
  cache : ReadCache
  last : ℕ → Option (List UInt8)

inductive StorageEvent where
  | write (index : UInt32) (data : Bytes)
  | read (index : UInt32)
  | readUncached (index : UInt32)

variable {b : Build} {storage : DiskStorage} {s s' : StorageState}

/-- One call, when the files can be opened, read and written. -/
inductive StorageStep (b : Build) (storage : DiskStorage) :
    StorageState → StorageEvent → StorageState → Prop where
  | write {s : StorageState} {index : UInt32} {data : Bytes} {priorities : List FilePriority}
      {disk : Disk} : .skip ∉ priorities →
      index.toNat < storage.metaInfo.totalSize ⌈/⌉ storage.metaInfo.pieceLength →
      storage.metaInfo.pieceManager.pieceSize b index.toNat = .ok data.bytes.length →
      storage.writePiece b priorities index.toNat data.bytes s.disk = .ok disk →
      StorageStep b storage s (.write index data)
        ⟨disk, s.cache.pop index.toNat, Function.update s.last index.toNat (some data.bytes)⟩
  | read {s : StorageState} {index : UInt32} {size : ℕ} :
      storage.metaInfo.pieceManager.pieceSize b index.toNat = .ok size →
      StorageStep b storage s (.read index)
        { s with cache := (storage.readPiece b index.toNat size s.disk s.cache).2 }
  | readUncached {s : StorageState} {index : UInt32} :
    StorageStep b storage s (.readUncached index) s

/-- The runs on a storage with a new cache, over any files. -/
def storageRuns (b : Build) (storage : DiskStorage) (cap : ℕ) :
    System StorageState StorageEvent where
  init s := s.cache = .new cap ∧ ∀ i, s.last i = none
  step := StorageStep b storage

/-- A write of a whole piece returns `Ok`. -/
def WritesReturn (b : Build) (storage : DiskStorage) (s : StorageState) : Prop :=
  ∀ (index : UInt32) (data : Bytes) (priorities : List FilePriority), .skip ∉ priorities →
    index.toNat < storage.metaInfo.totalSize ⌈/⌉ storage.metaInfo.pieceLength →
    storage.metaInfo.pieceManager.pieceSize b index.toNat = .ok data.bytes.length →
    ∃ disk, storage.writePiece b priorities index.toNat data.bytes s.disk = .ok disk

/-- Both reads return what was last written. -/
def ReadsBack (b : Build) (storage : DiskStorage) (s : StorageState) : Prop :=
  ∀ (index : UInt32) (data : List UInt8) (size : ℕ), s.last index.toNat = some data →
    storage.metaInfo.pieceManager.pieceSize b index.toNat = .ok size →
    (storage.readPiece b index.toNat size s.disk s.cache).1 = .ok data ∧
      storage.readPieceUncached b index.toNat size s.disk = .ok data

/-- The bytes outside a piece stay. -/
def KeepsOthers (storage : DiskStorage) (index : ℕ) (s s' : StorageState) : Prop :=
  ∀ f ∈ storage.metaInfo.files, ∀ k < f.length, ∀ x, byteAt (s.disk f.path) k = some x →
    ¬ (index * storage.metaInfo.pieceLength ≤ f.offset + k ∧
      f.offset + k < (index + 1) * storage.metaInfo.pieceLength) →
    byteAt (s'.disk f.path) k = some x

/-- In every run, pieces can be written and are read back, and a write concerns one piece. -/
def RoundTrips (b : Build) (storage : DiskStorage) (cap : ℕ) : Prop :=
  ∀ s, (storageRuns b storage cap).Reachable System.unguarded s →
    WritesReturn b storage s ∧ ReadsBack b storage s ∧
      ∀ index data s', StorageStep b storage s (.write index data) s' →
        KeepsOthers storage index.toNat s s'

/-- No piece that a vector can hold goes beyond the end of the torrent. -/
def PiecesFit (b : Build) (m : MetaInfo) : Prop :=
  ∀ (index : UInt32) (size : ℕ), index.toNat < m.totalSize ⌈/⌉ m.pieceLength →
    size ≤ isizeMax → m.pieceManager.pieceSize b index.toNat = .ok size →
    index.toNat * m.pieceLength + size ≤ m.totalSize

theorem not_isSkipped {priorities : List FilePriority} (h : .skip ∉ priorities) (i : ℕ) :
    isSkipped priorities i = false := by
  rw [isSkipped, beq_eq_false_iff_ne]
  intro hskip
  exact h (List.mem_of_getElem? hskip)

/-- What is known about the pieces that were written. -/
structure StorageInv (b : Build) (storage : DiskStorage) (s : StorageState) : Prop where
  size : ∀ i data, s.last i = some data →
    storage.metaInfo.pieceManager.pieceSize b i = .ok data.length ∧ data.length ≤ isizeMax
  fits : ∀ i data, s.last i = some data →
    i * storage.metaInfo.pieceLength + data.length ≤ storage.metaInfo.totalSize
  stored : ∀ i data, s.last i = some data → ∀ f ∈ storage.metaInfo.files,
    Stored (i * storage.metaInfo.pieceLength) data f (s.disk f.path)
  cached : s.cache.All fun i data => ∀ data', s.last i = some data' → data = data'

/-- A write that fits returns, stores the piece and keeps the others. -/
theorem writePiece_fits (hm : Layout storage.metaInfo) (hfit : PiecesFit b storage.metaInfo)
    {index : UInt32} {data : Bytes} {priorities : List FilePriority} (hskip : .skip ∉ priorities)
    (hlt : index.toNat < storage.metaInfo.totalSize ⌈/⌉ storage.metaInfo.pieceLength)
    (hsize : storage.metaInfo.pieceManager.pieceSize b index.toNat = .ok data.bytes.length)
    (disk : Disk) :
    index.toNat * storage.metaInfo.pieceLength + data.bytes.length ≤
        storage.metaInfo.totalSize ∧
      ∃ disk', storage.writePiece b priorities index.toNat data.bytes disk = .ok disk' ∧
        ∀ f ∈ storage.metaInfo.files,
          Wrote (index.toNat * storage.metaInfo.pieceLength) data.bytes f false
            (disk f.path) (disk' f.path) := by
  have hend := hfit index _ hlt data.bound hsize
  have htotal := hm.total_lt
  rw [← hm.total] at htotal
  refine ⟨hend, ?_⟩
  obtain ⟨disk', hrun, hfiles⟩ := storage.writePiece_spec b priorities index.toNat data.bytes disk
    hm.toWellFormed (by omega)
  refine ⟨disk', hrun, ?_⟩
  intro f hf
  obtain ⟨i, hi⟩ := List.mem_iff_getElem?.mp hf
  have hwrote := hfiles i f hi
  rwa [not_isSkipped hskip] at hwrote

/-- A written piece is read from disk. -/
theorem readPieceUncached_of_stored (hm : Layout storage.metaInfo) {disk : Disk} {i : ℕ}
    {data : List UInt8} (hlen : data.length ≤ isizeMax)
    (hfit : i * storage.metaInfo.pieceLength + data.length ≤ storage.metaInfo.totalSize)
    (hstored : ∀ f ∈ storage.metaInfo.files,
      Stored (i * storage.metaInfo.pieceLength) data f (disk f.path)) :
    storage.readPieceUncached b i data.length disk = .ok data := by
  have htotal := hm.total_lt
  rw [hm.total] at hfit
  have hbuffer : (Bytes.ofList (List.replicate data.length 0) : Res Bytes) =
      .ok ⟨List.replicate data.length 0, by rw [List.length_replicate]; exact hlen⟩ :=
    Bytes.ofList_eq_ok.mpr rfl
  have hoffset : 0 = min data.length (0 - i * storage.metaInfo.pieceLength) := by omega
  have hread := readLoop_spec b hm.contiguous (by rw [Nat.zero_add]; exact hm.total_lt)
    (by omega) hstored hoffset rfl
  rw [DiskStorage.readPieceUncached, Build.mul_of_lt b (by omega), Outcome.ok_bind, hbuffer,
    Outcome.ok_bind]
  simp only [padded, List.take_zero, List.nil_append, Nat.sub_zero] at hread
  rw [hread, ← padded, padded_of_le (by omega)]

theorem Stored.of_wrote {pos pos' : ℕ} {data data' : List UInt8} {f : FileInfo} {skipped : Bool}
    {old new : Option (List UInt8)} (h : Stored pos data f old)
    (hwrote : Wrote pos' data' f skipped old new)
    (hapart : pos' + data'.length ≤ pos ∨ pos + data.length ≤ pos') : Stored pos data f new := by
  intro k hk hlo hhi
  have hold := h k hk hlo hhi
  rw [List.getElem?_eq_getElem hk] at hold ⊢
  exact hwrote.frame _ _ hold (by omega)

/-- Two pieces do not overlap. -/
theorem pieces_apart {i j n n' len : ℕ} (hne : i ≠ j) (hi : n ≤ len) (hj : n' ≤ len) :
    j * len + n' ≤ i * len ∨ i * len + n ≤ j * len := by
  rcases Nat.lt_or_gt_of_ne hne with hlt | hgt
  · right
    have := Nat.mul_le_mul_right len (show i + 1 ≤ j from hlt)
    rw [Nat.add_mul, Nat.one_mul] at this
    omega
  · left
    have := Nat.mul_le_mul_right len (show j + 1 ≤ i from hgt)
    rw [Nat.add_mul, Nat.one_mul] at this
    omega

namespace StorageInv

theorem size_le (h : StorageInv b storage s) (hm : Layout storage.metaInfo) {i : ℕ}
    {data : List UInt8} (hlast : s.last i = some data) :
    data.length ≤ storage.metaInfo.pieceLength :=
  PieceManager.pieceSize_le hm.pieceLength_pos (h.size i data hlast).1

theorem write (h : StorageInv b storage s) (hm : Layout storage.metaInfo) {index : ℕ}
    {data : List UInt8} {disk : Disk}
    (hsize : storage.metaInfo.pieceManager.pieceSize b index = .ok data.length)
    (hbound : data.length ≤ isizeMax)
    (hend : index * storage.metaInfo.pieceLength + data.length ≤ storage.metaInfo.totalSize)
    (hwrote : ∀ f ∈ storage.metaInfo.files,
      Wrote (index * storage.metaInfo.pieceLength) data f false (s.disk f.path) (disk f.path)) :
    StorageInv b storage
      ⟨disk, s.cache.pop index, Function.update s.last index (some data)⟩ := by
  have hcases : ∀ i d, Function.update s.last index (some data) i = some d →
      (i = index ∧ d = data) ∨ (i ≠ index ∧ s.last i = some d) := by
    intro i d hd
    by_cases heq : i = index
    · subst heq
      rw [Function.update_self] at hd
      exact .inl ⟨rfl, (Option.some.inj hd).symm⟩
    · rw [Function.update_of_ne heq] at hd
      exact .inr ⟨heq, hd⟩
  constructor
  · intro i d hd
    rcases hcases i d hd with ⟨rfl, rfl⟩ | ⟨_, hd⟩
    · exact ⟨hsize, hbound⟩
    · exact h.size i d hd
  · intro i d hd
    rcases hcases i d hd with ⟨rfl, rfl⟩ | ⟨_, hd⟩
    · exact hend
    · exact h.fits i d hd
  · intro i d hd f hf
    rcases hcases i d hd with ⟨rfl, rfl⟩ | ⟨hne, hd⟩
    · exact (hwrote f hf).stored rfl
    · have hle := PieceManager.pieceSize_le hm.pieceLength_pos hsize
      exact (h.stored i d hd f hf).of_wrote (hwrote f hf) (pieces_apart hne (h.size_le hm hd) hle)
  · show (s.cache.pop index).All _
    refine h.cached.pop ?_
    intro j d hne hd d' hd'
    change Function.update s.last index (some data) j = some d' at hd'
    rw [Function.update_of_ne hne] at hd'
    exact hd d' hd'

theorem readUncached (h : StorageInv b storage s) (hm : Layout storage.metaInfo) {i size : ℕ}
    {data : List UInt8} (hlast : s.last i = some data)
    (hsize : storage.metaInfo.pieceManager.pieceSize b i = .ok size) :
    storage.readPieceUncached b i size s.disk = .ok data := by
  obtain ⟨hlen, hbound⟩ := h.size i data hlast
  obtain rfl := Outcome.ok.inj (hsize.symm.trans hlen)
  exact readPieceUncached_of_stored hm hbound (h.fits i data hlast) (h.stored i data hlast)

/-- What a read leaves in the cache is what is on disk. -/
theorem readPiece (h : StorageInv b storage s) (hm : Layout storage.metaInfo) {i size : ℕ}
    (hsize : storage.metaInfo.pieceManager.pieceSize b i = .ok size) :
    (∀ data, s.last i = some data →
      (storage.readPiece b i size s.disk s.cache).1 = .ok data) ∧
    StorageInv b storage
      { s with cache := (storage.readPiece b i size s.disk s.cache).2 } := by
  have hget := h.cached.get i
  unfold DiskStorage.readPiece
  cases hfound : s.cache.get i with
  | mk found cache =>
    rw [hfound] at hget
    cases found with
    | some cached =>
      refine ⟨?_, h.size, h.fits, h.stored, hget⟩
      intro data hlast
      have hsame := h.cached.of_get (show (s.cache.get i).1 = some cached by rw [hfound])
      rw [hsame data hlast]
    | none =>
      cases hread : storage.readPieceUncached b i size s.disk with
      | ok data =>
        have hsame : ∀ data', s.last i = some data' → data = data' := by
          intro data' hlast
          rw [h.readUncached hm hlast hsize] at hread
          exact (Outcome.ok.inj hread).symm
        refine ⟨?_, h.size, h.fits, h.stored, hget.put hsame⟩
        intro data' hlast
        rw [hsame data' hlast]
      | err | panic | hang =>
        refine ⟨?_, h.size, h.fits, h.stored, hget⟩
        intro data hlast
        rw [h.readUncached hm hlast hsize] at hread
        simp at hread

end StorageInv

theorem storageInv_runs {cap : ℕ} (hm : Layout storage.metaInfo)
    (hfit : PiecesFit b storage.metaInfo) :
    (storageRuns b storage cap).Invariant System.unguarded (StorageInv b storage) where
  init s hs := by
    obtain ⟨hcache, hlast⟩ := hs
    refine ⟨?_, ?_, ?_, ?_⟩
    · intro i data h
      simp [hlast] at h
    · intro i data h
      simp [hlast] at h
    · intro i data h
      simp [hlast] at h
    · rw [hcache]
      exact LruCache.all_new cap
  step s e s' hs _ hstep := by
    cases hstep with
    | @write index data priorities disk hskip hlt hsize hrun =>
      obtain ⟨hend, disk', hrun', hwrote⟩ := writePiece_fits hm hfit hskip hlt hsize s.disk
      obtain rfl := Outcome.ok.inj (hrun.symm.trans hrun')
      exact hs.write hm hsize data.bound hend hwrote
    | read hsize => exact (hs.readPiece hm hsize).2
    | readUncached => exact hs

/-- The pieces fit, so every run reads back what it wrote. -/
theorem roundTrips_of_fit {cap : ℕ} (hm : Layout storage.metaInfo)
    (hfit : PiecesFit b storage.metaInfo) : RoundTrips b storage cap := by
  intro s hs
  have hinv := (storageInv_runs hm hfit).reachable hs
  refine ⟨?_, ?_, ?_⟩
  · intro index data priorities hskip hlt hsize
    obtain ⟨_, disk, hrun, _⟩ := writePiece_fits hm hfit hskip hlt hsize s.disk
    exact ⟨disk, hrun⟩
  · intro index data size hlast hsize
    exact ⟨(hinv.readPiece hm hsize).1 data hlast, hinv.readUncached hm hlast hsize⟩
  · intro index data s' hstep f hf k hk x hx hout
    cases hstep with
    | write hskip hlt hsize hrun =>
      obtain ⟨_, disk', hrun', hwrote⟩ := writePiece_fits hm hfit hskip hlt hsize s.disk
      obtain rfl := Outcome.ok.inj (hrun.symm.trans hrun')
      have hle := PieceManager.pieceSize_le hm.pieceLength_pos hsize
      apply (hwrote f hf).frame k x hx
      rw [Nat.add_mul, Nat.one_mul] at hout
      simp only [MetaInfo.pieceManager, PieceManager.new] at hle
      omega

theorem mul_lt_of_lt_ceilDiv {index total len : ℕ} (hlen : 0 < len)
    (h : index < total ⌈/⌉ len) : index * len < total := by
  by_contra hge
  rw [Nat.mul_comm] at hge
  exact absurd ((ceilDiv_le_iff_le_mul hlen).mpr (Nat.le_of_not_lt hge)) (Nat.not_le.mpr h)

/-- Behind the end of the torrent only zeros are read. -/
theorem not_read_beyond (hm : Layout storage.metaInfo) {disk : Disk} {index size : ℕ}
    (hlt : index < storage.metaInfo.totalSize ⌈/⌉ storage.metaInfo.pieceLength)
    (hover : storage.metaInfo.totalSize < index * storage.metaInfo.pieceLength + size) :
    storage.readPieceUncached b index size disk ≠ .ok (List.replicate size 1) := by
  intro hread
  have hstart := mul_lt_of_lt_ceilDiv hm.pieceLength_pos hlt
  have htotal := hm.total_lt
  rw [hm.total] at hstart hover
  rw [DiskStorage.readPieceUncached, Build.mul_of_lt b (by omega), Outcome.ok_bind,
    Outcome.bind_eq_ok] at hread
  obtain ⟨buffer, hbuffer, hread⟩ := hread
  have hbytes : buffer.bytes = List.replicate size 0 := Bytes.ofList_eq_ok.mp hbuffer
  rw [hbytes] at hread
  have hzeros : ∀ k, 0 ≤ k → k < (List.replicate size (0 : UInt8)).length →
      (List.replicate size (0 : UInt8))[k]? = some 0 := by
    intro k _ hk
    rw [List.length_replicate] at hk
    rw [List.getElem?_replicate, if_pos hk]
  have hlast := readLoop_zero hm.contiguous (by rw [Nat.zero_add]; exact htotal) (by omega)
    (Nat.zero_le _) (by rw [List.length_replicate]; omega) hzeros hread
    (k := size - 1) (by omega) (by rw [List.length_replicate]; omega)
  rw [List.getElem?_replicate, if_pos (by omega)] at hlast
  simp at hlast

/-- A piece that goes beyond the end of the torrent is not read back. -/
theorem not_roundTrips {cap : ℕ} (hm : Layout storage.metaInfo)
    (hfit : ¬ PiecesFit b storage.metaInfo) : ¬ RoundTrips b storage cap := by
  intro h
  apply hfit
  intro index size hlt hbound hsize
  by_contra hover
  let data : Bytes := ⟨List.replicate size 1, by rw [List.length_replicate]; exact hbound⟩
  have hlen : data.bytes.length = size := List.length_replicate
  have hinit : (storageRuns b storage cap).Reachable System.unguarded
      ⟨fun _ => none, .new cap, fun _ => none⟩ := .init ⟨rfl, fun _ => rfl⟩
  obtain ⟨disk, hrun⟩ :=
    (h _ hinit).1 index data [] List.not_mem_nil hlt (by rw [hlen]; exact hsize)
  have hwritten := System.Reachable.step hinit trivial
    (StorageStep.write List.not_mem_nil hlt (by rw [hlen]; exact hsize) hrun)
  have hread := ((h _ hwritten).2.1 index data.bytes size (Function.update_self ..) hsize).2
  exact not_read_beyond hm hlt (by omega) hread

section Count

variable {m : MetaInfo}

/-- The sizes that the piece manager computes. -/
theorem pieceSize_eq (hlen : 0 < m.pieceLength) (hpieces : 0 < m.numPieces) (index : ℕ) :
    m.pieceManager.pieceSize b index =
      .ok (pieceLen m.totalSize m.pieceLength m.numPieces index) := by
  rw [PieceManager.pieceSize, MetaInfo.pieceManager, PieceManager.new,
    Build.sub_of_le b (by exact hpieces), Outcome.ok_bind, rem_of_pos hlen, pieceLen]
  by_cases hlast : index + 1 = m.numPieces
  · rw [if_pos hlast, if_pos (by simp only; omega), Outcome.ok_bind, Outcome.pure_eq]
  · rw [if_neg hlast, if_neg (by simp only; omega), Outcome.pure_eq]

/-- The pieces fit when the torrent has as many hashes as pieces, or only whole pieces. -/
theorem piecesFit_iff_count (hlen : 0 < m.pieceLength) (hbound : m.pieceLength ≤ isizeMax)
    (hpieces : 0 < m.numPieces) (hcount : m.totalSize ⌈/⌉ m.pieceLength ≤ 2 ^ 32) :
    PiecesFit b m ↔
      m.totalSize % m.pieceLength = 0 ∨ m.numPieces = m.totalSize ⌈/⌉ m.pieceLength := by
  constructor
  · intro h
    obtain ⟨k, hk⟩ | hnone : (∃ k, m.totalSize ⌈/⌉ m.pieceLength = k + 1) ∨
        m.totalSize ⌈/⌉ m.pieceLength = 0 := by
      cases m.totalSize ⌈/⌉ m.pieceLength with
      | zero => exact .inr rfl
      | succ k => exact .inl ⟨k, rfl⟩
    · by_contra hneither
      rw [not_or] at hneither
      obtain ⟨hlo, hhi⟩ := (ceilDiv_eq_succ hlen).mp hk
      have hindex : (UInt32.ofNat k).toNat = k := UInt32.toNat_ofNat_of_lt' (by
        rw [UInt32.size]
        omega)
      have hsize : pieceLen m.totalSize m.pieceLength m.numPieces k = m.pieceLength :=
        if_neg (by omega)
      have hover := h (UInt32.ofNat k) m.pieceLength (by omega) hbound
        (by rw [hindex, pieceSize_eq hlen hpieces, hsize])
      rw [hindex] at hover
      rw [Nat.add_mul, Nat.one_mul] at hhi
      apply hneither.1
      rw [show m.totalSize = (k + 1) * m.pieceLength by rw [Nat.add_mul, Nat.one_mul]; omega]
      exact Nat.mul_mod_left _ _
    · left
      rw [(ceilDiv_eq_zero hlen).mp hnone, Nat.zero_mod]
  · intro h index size hindex _ hsize
    rw [pieceSize_eq hlen hpieces, Outcome.ok.injEq] at hsize
    subst hsize
    obtain ⟨k, hk⟩ := Nat.exists_eq_add_of_lt (Nat.zero_lt_of_lt hindex)
    rw [Nat.zero_add] at hk
    obtain ⟨hlo, hhi⟩ := (ceilDiv_eq_succ hlen).mp hk
    by_cases hlast : index.toNat = k
    · rcases h with hwhole | hcount
      · -- all pieces are whole, the last one too
        have hsize : pieceLen m.totalSize m.pieceLength m.numPieces index.toNat =
            m.pieceLength := by
          rw [pieceLen, if_pos hwhole]
          split <;> rfl
        obtain ⟨q, hq⟩ := Nat.dvd_of_mod_eq_zero hwhole
        rw [hsize, hlast, hq, Nat.mul_comm m.pieceLength q, ← Nat.succ_mul]
        rw [hq, Nat.mul_comm m.pieceLength q] at hlo
        exact Nat.mul_le_mul_right _ (Nat.lt_of_mul_lt_mul_right hlo)
      · rw [hlast, hcount, hk, pieceLen_last hlen hk]
        omega
    · have hle : (index.toNat + 1) * m.pieceLength ≤ k * m.pieceLength :=
        Nat.mul_le_mul_right _ (by omega)
      have hsize : pieceLen m.totalSize m.pieceLength m.numPieces index.toNat ≤
          m.pieceLength := by
        have hmod := Nat.mod_lt m.totalSize hlen
        rw [pieceLen]
        split
        · split <;> omega
        · exact le_rfl
      rw [Nat.add_mul, Nat.one_mul] at hle
      omega

end Count

/-- What is written is read back exactly when no piece goes beyond the end of the torrent. -/
theorem roundTrips_iff (cap : ℕ) (hm : Layout storage.metaInfo) :
    RoundTrips b storage cap ↔ PiecesFit b storage.metaInfo :=
  ⟨fun h => by_contra fun hfit => not_roundTrips hm hfit h, roundTrips_of_fit hm⟩

/-- A torrent of one file without gaps. -/
theorem layout_of_file {m : MetaInfo} {path : Str} {n : ℕ} (hlen : 0 < m.pieceLength)
    (hfiles : m.files = [⟨path, n, 0⟩]) (htotal : m.totalSize = n) (hn : n < 2 ^ 64) :
    Layout m where
  pieceLength_pos := hlen
  contiguous := by
    rw [hfiles]
    exact ⟨rfl, trivial⟩
  distinct := by
    rw [hfiles]
    exact List.nodup_singleton _
  total_lt := by
    rw [hfiles, totalLength]
    simpa using hn
  total := by
    rw [hfiles, htotal, totalLength]
    simp

/-- What the sample torrent says. -/
theorem sampleTorrent_fields :
    ∃ m, MetaInfo.fromBytes (fun _ => sampleHash) .debug sampleTorrent = .ok m ∧
      m.pieceLength = 2 ∧ m.files = [⟨.ascii "x", 3, 0⟩] ∧ m.totalSize = 3 ∧
      m.numPieces = 2 := by
  have hok : (MetaInfo.fromBytes (fun _ => sampleHash) .debug sampleTorrent).isOkAnd
      (fun m => m.pieceLength = 2 ∧ m.files = [⟨.ascii "x", 3, 0⟩] ∧ m.totalSize = 3 ∧
        m.numPieces = 2) = true := by
    decide +kernel
  obtain ⟨m, hm, hfields⟩ := Outcome.isOkAnd_iff.mp hok
  exact ⟨m, hm, of_decide_eq_true hfields⟩

theorem roundTrips_sampleTorrent :
    ∃ m, MetaInfo.fromBytes (fun _ => sampleHash) .debug sampleTorrent = .ok m ∧
      (RoundTrips .debug ⟨[], m⟩ 64 ↔ PiecesFit .debug m) := by
  obtain ⟨m, hm, hlen, hfiles, htotal, _⟩ := sampleTorrent_fields
  have hlayout : Layout m := layout_of_file (by omega) hfiles htotal (by norm_num)
  exact ⟨m, hm, roundTrips_iff 64 hlayout⟩

/-- Three bytes in pieces of two, with a hash too many. -/
def overhashedTorrent : Bytes :=
  ⟨Str.asciiBytes ("d4:infod6:lengthi3e4:name1:x12:piece lengthi2e6:pieces60:" ++
    "aaaaaaaaaaaaaaaaaaaabbbbbbbbbbbbbbbbbbbbccccccccccccccccccccee"), by decide +kernel⟩

/-- The SHA-1 of its info dictionary. -/
def overhashedHash : Hash :=
  ⟨[223, 46, 76, 245, 25, 173, 3, 107, 135, 96, 243, 137, 82, 85, 206, 60, 83, 184, 57, 195],
    by decide⟩

theorem overhashedTorrent_accepted :
    ∃ m, MetaInfo.fromBytes (fun _ => overhashedHash) .debug overhashedTorrent = .ok m ∧
      m.pieceLength = 2 ∧ m.files = [⟨.ascii "x", 3, 0⟩] ∧ m.totalSize = 3 ∧
      m.numPieces = 3 := by
  have hok : (MetaInfo.fromBytes (fun _ => overhashedHash) .debug overhashedTorrent).isOkAnd
      (fun m => m.pieceLength = 2 ∧ m.files = [⟨.ascii "x", 3, 0⟩] ∧ m.totalSize = 3 ∧
        m.numPieces = 3) = true := by
    decide +kernel
  obtain ⟨m, hm, hfields⟩ := Outcome.isOkAnd_iff.mp hok
  exact ⟨m, hm, of_decide_eq_true hfields⟩

/-- Its second piece is taken to be a whole one, and the byte that no file holds is lost. -/
theorem overhashedTorrent_not_roundTrips :
    ∃ m, MetaInfo.fromBytes (fun _ => overhashedHash) .debug overhashedTorrent = .ok m ∧
      Layout m ∧ ¬ RoundTrips .debug ⟨[], m⟩ 64 := by
  obtain ⟨m, hm, hlen, hfiles, htotal, hpieces⟩ := overhashedTorrent_accepted
  have hlayout : Layout m := layout_of_file (by omega) hfiles htotal (by norm_num)
  have hcount : m.totalSize ⌈/⌉ m.pieceLength = 2 :=
    (ceilDiv_eq_succ hlayout.pieceLength_pos).mpr (by omega)
  have hfit : ¬ PiecesFit .debug m := by
    rw [piecesFit_iff_count hlayout.pieceLength_pos (by rw [hlen, isizeMax]; norm_num) (by omega)
      (by omega)]
    rw [htotal, hlen] at hcount ⊢
    omega
  exact ⟨m, hm, hlayout, not_roundTrips hlayout hfit⟩

end Retorrent

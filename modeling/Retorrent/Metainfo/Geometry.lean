import Mathlib.Algebra.BigOperators.Intervals
import Mathlib.Algebra.Order.BigOperators.Group.List
import Mathlib.Algebra.Order.Floor.Div
import Retorrent.Metainfo.Paths

/-!
# The geometry of a torrent

Offsets, sizes and the number of pieces. `MetaInfo::from_bytes` casts the
lengths to `u64` and adds them up, but checks neither the sum nor the piece
length nor the number of pieces against each other.
-/

namespace Retorrent

open Rust

section Pieces

/-- The length of piece `i` when `total` bytes are cut into pieces of `len`. -/
def pieceLen (total len count i : ℕ) : ℕ :=
  if i + 1 = count then if total % len = 0 then len else total % len else len

theorem ceilDiv_eq_succ {total len k : ℕ} (hlen : 0 < len) :
    total ⌈/⌉ len = k + 1 ↔ k * len < total ∧ total ≤ (k + 1) * len := by
  rw [Nat.ceilDiv_eq_add_pred_div, Nat.div_eq_iff hlen, Nat.succ_mul]
  omega

theorem ceilDiv_eq_zero {total len : ℕ} (hlen : 0 < len) : total ⌈/⌉ len = 0 ↔ total = 0 := by
  rw [Nat.ceilDiv_eq_add_pred_div, Nat.div_eq_zero_iff_lt hlen]
  omega

/-- The last piece holds what is left over. -/
theorem pieceLen_last {total len k : ℕ} (hlen : 0 < len) (h : total ⌈/⌉ len = k + 1) :
    pieceLen total len (k + 1) k = total - k * len := by
  obtain ⟨hlo, hhi⟩ := (ceilDiv_eq_succ hlen).mp h
  rw [Nat.succ_mul] at hhi
  have hsplit : total % len = (total - k * len) % len := by
    conv_lhs => rw [← Nat.sub_add_cancel hlo.le, Nat.add_mul_mod_self_right]
  rw [pieceLen, if_pos rfl, hsplit]
  by_cases hfull : total - k * len = len
  · rw [hfull, Nat.mod_self, if_pos rfl]
  · rw [Nat.mod_eq_of_lt (by omega), if_neg (by omega)]

/-- The pieces add up to the total. -/
theorem sum_pieceLen {total len count : ℕ} (hlen : 0 < len) (h : count = total ⌈/⌉ len) :
    ∑ i ∈ Finset.range count, pieceLen total len count i = total := by
  cases count with
  | zero => exact ((ceilDiv_eq_zero hlen).mp h.symm).symm
  | succ k =>
    have hfull : ∀ i ∈ Finset.range k, pieceLen total len (k + 1) i = len := by
      intro i hi
      exact if_neg (by have := Finset.mem_range.mp hi; omega)
    have hlo := ((ceilDiv_eq_succ hlen).mp h.symm).1
    rw [Finset.sum_range_succ, Finset.sum_congr rfl hfull, pieceLen_last hlen h.symm,
      Finset.sum_const, Finset.card_range, nsmul_eq_mul]
    simp only [Nat.cast_id]
    omega

/-- All pieces but the last do not reach the total. -/
theorem sum_pieceLen_lt {total len count n : ℕ} (hlen : 0 < len)
    (h : count = total ⌈/⌉ len) (hn : n < count) :
    ∑ i ∈ Finset.range n, pieceLen total len count i < total := by
  obtain ⟨k, rfl⟩ := Nat.exists_eq_add_of_lt (Nat.zero_lt_of_lt hn)
  rw [Nat.zero_add] at *
  have hfull : ∀ i ∈ Finset.range n, pieceLen total len (k + 1) i = len := by
    intro i hi
    exact if_neg (by have := Finset.mem_range.mp hi; omega)
  have hlo := ((ceilDiv_eq_succ hlen).mp h.symm).1
  have hle : n * len ≤ k * len := Nat.mul_le_mul_right len (by omega)
  rw [Finset.sum_congr rfl hfull, Finset.sum_const, Finset.card_range, nsmul_eq_mul]
  simp only [Nat.cast_id]
  omega

end Pieces

/-- The lengths that an info dictionary gives, as unsigned numbers. -/
def fileLengths (info : Dict) : List ℕ :=
  match info.get (.ascii "files") with
  | none => [asU64 ((integerAt info "length").getD 0)]
  | some filesVal => (filesVal.asList.getD []).map fun v =>
      asU64 ((v.asDict.bind (integerAt · "length")).getD 0)

/-- The fields of the info dictionary fit together. -/
structure Consistent (info : Dict) : Prop where
  pieceLength_ne : asU64 ((integerAt info "piece length").getD 0) ≠ 0
  total_lt : (fileLengths info).sum < 2 ^ 64
  pieces_length : ((bytesAt info "pieces").getD []).length / 20 =
    (fileLengths info).sum ⌈/⌉ asU64 ((integerAt info "piece length").getD 0)
  pieces_lt : ((bytesAt info "pieces").getD []).length / 20 < 2 ^ 32

/-- The geometry that the rest of the program relies on. -/
structure Geometry (b : Build) (m : MetaInfo) : Prop where
  pieceLength_pos : 0 < m.pieceLength
  offset_eq : ∀ i f, m.files[i]? = some f →
    f.offset = ((m.files.take i).map FileInfo.length).sum
  totalSize_eq : m.totalSize = (m.files.map FileInfo.length).sum
  pieces_length : m.pieces.length = m.totalSize ⌈/⌉ m.pieceLength
  sizes : ∃ size : ℕ → ℕ, (∀ i < m.numPieces, m.pieceSize b i = .ok (size i)) ∧
    ∑ i ∈ Finset.range m.numPieces, size i = m.totalSize

/-- Adding up `u64` values, the result is right modulo `2 ^ 64`. -/
theorem add_mod {b : Build} {x y z : ℕ} (h : (b.add 64 x y : Res ℕ) = .ok z) :
    z = (x + y) % 2 ^ 64 := by
  unfold Build.add at h
  split at h
  · next hlt => rw [Nat.mod_eq_of_lt hlt, Outcome.ok.inj h]
  · split at h
    · simp at h
    · exact (Outcome.ok.inj h).symm

/-- What the loop of `parse_multi_file` accumulates: the lengths are those of
the entries and every offset is the sum of the earlier ones, modulo `2 ^ 64`. -/
theorem parseFilesLoop_eq_ok {b : Build} {base : Str} {vals : List BencodeValue}
    {files files' : List FileInfo} {offset total : ℕ} (hoff : offset < 2 ^ 64)
    (h : parseFilesLoop b base files offset vals = .ok (files', total)) :
    ∃ new, files' = files ++ new ∧
      new.map FileInfo.length =
        vals.map (fun v => asU64 ((v.asDict.bind (integerAt · "length")).getD 0)) ∧
      total = (offset + (new.map FileInfo.length).sum) % 2 ^ 64 ∧
      ∀ i f, new[i]? = some f →
        f.offset = (offset + ((new.take i).map FileInfo.length).sum) % 2 ^ 64 := by
  induction vals generalizing files offset with
  | nil =>
    obtain ⟨rfl, rfl⟩ : files = files' ∧ offset = total := by simpa [parseFilesLoop] using h
    exact ⟨[], by simp, rfl, (Nat.mod_eq_of_lt hoff).symm, by simp⟩
  | cons v vals ih =>
    rw [parseFilesLoop] at h
    simp only [Outcome.bind_eq_ok, Prod.exists] at h
    obtain ⟨length, path, hfile, next, hnext, h⟩ := h
    obtain ⟨_, n, hn, rfl⟩ := parseFile_eq_ok hfile
    have hmod := add_mod hnext
    obtain ⟨new, rfl, hlens, htotal, hoffs⟩ := ih (hmod ▸ Nat.mod_lt _ (by decide)) h
    refine ⟨⟨path, asU64 n, offset⟩ :: new, by simp, ?_, ?_, ?_⟩
    · simp only [List.map_cons, hlens, hn, Option.getD_some]
    · rw [htotal, hmod, List.map_cons, List.sum_cons, Nat.mod_add_mod, Nat.add_assoc]
    · intro i f hf
      cases i with
      | zero =>
        obtain rfl : _ = f := Option.some.inj hf
        exact (Nat.mod_eq_of_lt hoff).symm
      | succ i =>
        rw [hoffs i f (by simpa using hf), hmod, List.take_succ_cons, List.map_cons,
          List.sum_cons, Nat.mod_add_mod, Nat.add_assoc]

/-- Both forms of a torrent accumulate the same way. -/
theorem parseFiles_eq_ok {b : Build} {info : Dict} {name : Str} {files : List FileInfo}
    {total : ℕ} (h : parseFiles b info name = .ok (files, total)) :
    files.map FileInfo.length = fileLengths info ∧
      total = (fileLengths info).sum % 2 ^ 64 ∧
      ∀ i f, files[i]? = some f →
        f.offset = ((files.take i).map FileInfo.length).sum % 2 ^ 64 := by
  unfold parseFiles at h
  rw [fileLengths]
  split at h
  · next filesVal hval =>
    unfold parseMultiFile at h
    simp only [Outcome.bind_eq_ok, Outcome.ofOption_eq_ok] at h
    obtain ⟨l, hl, hloop⟩ := h
    obtain ⟨new, rfl, hlens, htotal, hoffs⟩ := parseFilesLoop_eq_ok (by decide) hloop
    simp only [Nat.zero_add] at htotal hoffs
    rw [hval]
    simp only [hl, Option.getD_some, ← hlens]
    exact ⟨trivial, htotal, hoffs⟩
  · next hval =>
    simp only [Outcome.bind_eq_ok, Outcome.ofOption_eq_ok, Outcome.pure_eq, Outcome.ok.injEq,
      Prod.mk.injEq] at h
    obtain ⟨n, hn, rfl, rfl⟩ := h
    rw [hval]
    simp only [hn, Option.getD_some, List.map_singleton, List.sum_singleton]
    refine ⟨trivial, (Nat.mod_eq_of_lt (asU64_lt n)).symm, ?_⟩
    intro i f hf
    cases i with
    | zero =>
      obtain rfl : _ = f := Option.some.inj hf
      simp
    | succ i => simp at hf

/-- `piece_size` of an index in range. -/
theorem pieceSize_eq_ok {b : Build} {m : MetaInfo} {i : ℕ} (hlen : 0 < m.pieceLength)
    (hi : i < m.pieces.length) :
    m.pieceSize b i = .ok (pieceLen m.totalSize m.pieceLength m.pieces.length i) := by
  rw [MetaInfo.pieceSize, Build.sub_of_le b (by omega), Outcome.ok_bind, pieceLen]
  by_cases hlast : i = m.pieces.length - 1
  · have hi' : i + 1 = m.pieces.length := by omega
    rw [if_pos hlast, rem_of_pos hlen, Outcome.ok_bind, if_pos hi']
    rfl
  · have hi' : i + 1 ≠ m.pieces.length := by omega
    rw [if_neg hlast, if_neg hi']
    rfl

theorem numPieces_le (m : MetaInfo) : m.numPieces ≤ m.pieces.length := Nat.mod_le _ _

/-- Sizes of pieces are determined, so any list of them adds up the same. -/
theorem sum_pieceSize {b : Build} {m : MetaInfo} (hlen : 0 < m.pieceLength) {size : ℕ → ℕ}
    (h : ∀ i < m.numPieces, m.pieceSize b i = .ok (size i)) :
    ∑ i ∈ Finset.range m.numPieces, size i =
      ∑ i ∈ Finset.range m.numPieces, pieceLen m.totalSize m.pieceLength m.pieces.length i := by
  apply Finset.sum_congr rfl
  intro i hi
  have hi := Finset.mem_range.mp hi
  have hle := numPieces_le m
  have hsize := h i hi
  rw [pieceSize_eq_ok hlen (by omega), Outcome.ok.injEq] at hsize
  exact hsize.symm

/-- The pieces are all counted exactly when their number fits an `u32`. -/
theorem sizes_iff {b : Build} {m : MetaInfo} (hlen : 0 < m.pieceLength)
    (hcount : m.pieces.length = m.totalSize ⌈/⌉ m.pieceLength) :
    (∃ size : ℕ → ℕ, (∀ i < m.numPieces, m.pieceSize b i = .ok (size i)) ∧
      ∑ i ∈ Finset.range m.numPieces, size i = m.totalSize) ↔ m.pieces.length < 2 ^ 32 := by
  constructor
  · intro h
    obtain ⟨size, hsize, hsum⟩ := h
    by_contra hge
    have hlt : m.numPieces < m.pieces.length := by
      have := Nat.mod_lt m.pieces.length (show 2 ^ 32 > 0 by decide)
      rw [MetaInfo.numPieces]
      omega
    have hless := sum_pieceLen_lt hlen hcount hlt
    rw [sum_pieceSize hlen hsize] at hsum
    omega
  · intro hlt
    have hnum : m.numPieces = m.pieces.length := Nat.mod_eq_of_lt hlt
    refine ⟨_, fun i hi => pieceSize_eq_ok hlen (by omega), ?_⟩
    rw [hnum]
    exact sum_pieceLen hlen hcount

/-- On accepted torrents, the geometry is right exactly when the info dictionary
is consistent. -/
theorem geometry_iff {sha1 : List UInt8 → Hash} {b : Build} {d : Bytes} {m : MetaInfo}
    (h : MetaInfo.fromBytes sha1 b d = .ok m) :
    Geometry b m ↔ ∀ info, InfoDict d.bytes info → Consistent info := by
  obtain ⟨info, hacc⟩ := MetaInfo.fromBytes_accepted h
  obtain ⟨hlens, htotal, hoffs⟩ := parseFiles_eq_ok hacc.files
  obtain ⟨pl, hpl, hpl'⟩ := hacc.pieceLength
  obtain ⟨raw, hraw, _, hpieces⟩ := hacc.pieces
  have hcount : m.pieces.length = raw.length / 20 := by rw [hpieces, chunksExact20_length]
  -- a file has one info dictionary, so that it is enough to look at this one
  have hone : Geometry b m ↔ Consistent info := by
    constructor
    · intro hg
      have hsum : m.totalSize = (fileLengths info).sum := by rw [hg.totalSize_eq, hlens]
      have hlt : (fileLengths info).sum < 2 ^ 64 := by
        rw [← hsum, htotal]
        exact Nat.mod_lt _ (by decide)
      have hsizes := (sizes_iff hg.pieceLength_pos hg.pieces_length).mp hg.sizes
      have hpieces := hg.pieces_length
      have hpos := hg.pieceLength_pos
      rw [hcount, hsum, hpl'] at hpieces
      rw [hcount] at hsizes
      rw [hpl'] at hpos
      refine ⟨?_, hlt, ?_, ?_⟩
      · rw [hpl, Option.getD_some]
        omega
      · rw [hraw, hpl, Option.getD_some, Option.getD_some]
        exact hpieces
      · rw [hraw, Option.getD_some]
        exact hsizes
    · intro hc
      obtain ⟨hne, hlt, hlength, hfew⟩ := hc
      rw [hpl, Option.getD_some] at hne hlength
      rw [hraw, Option.getD_some] at hlength hfew
      have hpos : 0 < m.pieceLength := by omega
      have hsum : m.totalSize = (fileLengths info).sum := by rw [htotal, Nat.mod_eq_of_lt hlt]
      have hceil : m.pieces.length = m.totalSize ⌈/⌉ m.pieceLength := by
        rw [hcount, hsum, hpl', hlength]
      refine ⟨hpos, ?_, by rw [hsum, hlens], hceil, ?_⟩
      · intro i f hf
        -- no offset wraps where the total does not
        have hle : ((m.files.take i).map FileInfo.length).sum ≤ (fileLengths info).sum := by
          rw [← hlens, List.map_take]
          exact List.Sublist.sum_le_sum (List.take_sublist _ _) fun _ _ => Nat.zero_le _
        rw [hoffs i f hf, Nat.mod_eq_of_lt (by omega)]
      · exact (sizes_iff hpos hceil).mpr (by rw [hcount]; exact hfew)
  rw [hone]
  constructor
  · intro hc info' hinfo'
    exact hacc.infoDict.unique hinfo' ▸ hc
  · intro hall
    exact hall info hacc.infoDict

theorem geometry_sampleTorrent :
    ∃ m, MetaInfo.fromBytes (fun _ => sampleHash) .release sampleTorrent = .ok m ∧
      (Geometry .release m ↔ ∀ info, InfoDict sampleTorrent.bytes info → Consistent info) := by
  obtain ⟨m, hm⟩ := sampleTorrent_accepted
  exact ⟨m, hm, geometry_iff hm⟩

/-- Three bytes of content, but no piece and a piece length of zero. -/
def piecelessTorrent : Bytes :=
  ⟨Str.asciiBytes ("d4:infod6:lengthi3e4:name1:x12:piece lengthi0e" ++ "6:pieces0:ee"),
    by decide +kernel⟩

/-- The SHA-1 of its info dictionary. -/
def piecelessHash : Hash :=
  ⟨[91, 160, 6, 200, 128, 165, 48, 174, 243, 204, 153, 248, 125, 135, 96, 106, 77, 125, 35, 40],
    by decide⟩

/-- The torrent without pieces is accepted. -/
theorem geometry_fails_piecelessTorrent :
    ∃ m, MetaInfo.fromBytes (fun _ => piecelessHash) .release piecelessTorrent = .ok m ∧
      m.pieceLength = 0 ∧ m.totalSize = 3 ∧ m.pieces = [] ∧ ¬ Geometry .release m := by
  have hok : (MetaInfo.fromBytes (fun _ => piecelessHash) .release piecelessTorrent).isOkAnd
      (fun m => m.pieceLength = 0 ∧ m.totalSize = 3 ∧ m.pieces = []) = true := by
    decide +kernel
  obtain ⟨m, hm, hfields⟩ := Outcome.isOkAnd_iff.mp hok
  obtain ⟨hlen, hsize, hpieces⟩ : m.pieceLength = 0 ∧ m.totalSize = 3 ∧ m.pieces = [] := by
    simpa using hfields
  refine ⟨m, hm, hlen, hsize, hpieces, ?_⟩
  intro hg
  exact absurd hg.pieceLength_pos (by omega)

end Retorrent

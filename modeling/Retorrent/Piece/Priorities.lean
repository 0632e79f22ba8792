import Retorrent.Piece.Selected
import Retorrent.Storage
import Mathlib.GroupTheory.GroupAction.Ring

/-!
# From the priorities of files to those of pieces

`apply_file_priorities` raises the pieces from the first to the last one that a file touches. Both
come from divisions of byte positions, which an empty file has none of.
-/

namespace Retorrent

open Rust

/-- Some byte of the file lies in the range of the piece. -/
def FileInfo.HasByteIn (pieceLength i : ℕ) (f : FileInfo) : Prop :=
  ∃ k < f.length, i * pieceLength ≤ f.offset + k ∧ f.offset + k < (i + 1) * pieceLength

/-- The priority of a piece that the files with these priorities share. -/
structure Highest (prios : Set FilePriority) (prio : FilePriority) : Prop where
  eq_skip_iff : prio = .skip ↔ prios = ∅
  greatest : prios.Nonempty → prio ∈ prios ∧ ∀ q ∈ prios, prioRank prio ≤ prioRank q

/-- The priorities, other than `Skip`, of the files that have a byte in a piece. -/
def sharing (pieceLength i : ℕ) (files : List (FileInfo × FilePriority)) : Set FilePriority :=
  {q | q ≠ .skip ∧ ∃ f, (f, q) ∈ files ∧ f.HasByteIn pieceLength i}

namespace PieceManager

/-- A manager for files that follow each other without gaps, given in any order. -/
structure LaidOut (pm : PieceManager) (files : List FileInfo) : Prop extends pm.Indexed where
  pieceLength_pos : 0 < pm.pieceLength
  contiguous : ∃ layout, layout.Perm files ∧ Contiguous 0 layout
  total_lt : totalLength files < 2 ^ 64
  numPieces_eq : pm.numPieces = totalLength files ⌈/⌉ pm.pieceLength
  numPieces_lt : pm.numPieces < 2 ^ 32

/-- `apply_file_priorities` returns, and every piece has the highest priority of the files that
have a byte in it. -/
def FollowsFiles (b : Build) (pm : PieceManager) (files : List FileInfo)
    (prios : List FilePriority) : Prop :=
  ∃ pm', pm.applyFilePriorities b files prios = .ok pm' ∧
    ∀ i < pm.numPieces, ∃ prio, pm'.piecePriorities[i]? = some prio ∧
      Highest (sharing pm.pieceLength i (files.zip prios)) prio

/-- The pieces that a round of the loop raises. -/
def Raises (pieceLength i : ℕ) (file : FileInfo × FilePriority) : Prop :=
  file.2 ≠ .skip ∧ file.1.offset / pieceLength ≤ i ∧
    i ≤ (file.1.offset + file.1.length - 1) / pieceLength

instance (pieceLength i : ℕ) : DecidablePred (Raises pieceLength i) :=
  fun _ => inferInstanceAs (Decidable (_ ∧ _))

/-- What a round of the loop does to the priority of a piece. -/
def raiseBy (pieceLength i : ℕ) (cur : FilePriority) (file : FileInfo × FilePriority) :
    FilePriority :=
  if Raises pieceLength i file then raisePriority cur file.2 else cur

variable {b : Build} {pm pm' : PieceManager} {pp pp' : List FilePriority} {files : List FileInfo}
  {prios : List FilePriority}

theorem length_raiseRange {prio : FilePriority} {first count : ℕ}
    (h : raiseRange pp prio first count = .ok pp') : pp'.length = pp.length := by
  induction count generalizing pp first with
  | zero =>
    obtain rfl := Outcome.ok.inj h
    rfl
  | succ count ih =>
    rw [raiseRange] at h
    split at h
    · cases h
    · exact (ih h).trans List.length_set

theorem length_applyFile {fi : FileInfo} {prio : FilePriority}
    (h : applyFile b pm pp fi prio = .ok pp') : pp'.length = pp.length := by
  rw [applyFile] at h
  split at h
  · obtain rfl := Outcome.ok.inj h
    rfl
  · obtain ⟨_, _, h⟩ := Outcome.bind_eq_ok.mp h
    obtain ⟨_, _, h⟩ := Outcome.bind_eq_ok.mp h
    dsimp only at h
    split at h
    all_goals
      obtain ⟨_, _, h⟩ := Outcome.bind_eq_ok.mp h
      obtain ⟨_, _, h⟩ := Outcome.bind_eq_ok.mp h
      exact length_raiseRange h

theorem length_applyFiles {files : List (FileInfo × FilePriority)}
    (h : applyFiles b pm pp files = .ok pp') : pp'.length = pp.length := by
  induction files generalizing pp with
  | nil =>
    obtain rfl := Outcome.ok.inj h
    rfl
  | cons file rest ih =>
    obtain ⟨mid, hmid, hrest⟩ := Outcome.bind_eq_ok.mp h
    exact (ih hrest).trans (length_applyFile hmid)

theorem Indexed.applyFilePriorities (h : pm.Indexed)
    (happly : pm.applyFilePriorities b files prios = .ok pm') : pm'.Indexed := by
  obtain ⟨pp, hpp, happly⟩ := Outcome.bind_eq_ok.mp happly
  obtain rfl := Outcome.ok.inj happly
  refine ⟨h.have_, h.availability, ?_⟩
  rw [length_applyFiles hpp, List.length_replicate]
  exact h.priorities

theorem prioRank_raisePriority (cur prio : FilePriority) :
    prioRank (raisePriority cur prio) = min (prioRank cur) (prioRank prio) := by
  cases cur <;> cases prio <;> rfl

theorem raisePriority_eq_or (cur prio : FilePriority) :
    raisePriority cur prio = cur ∨ raisePriority cur prio = prio := by
  cases cur <;> cases prio <;> simp [raisePriority]

theorem raiseRange_eq (prio : FilePriority) {first count : ℕ} (h : first + count ≤ pp.length) :
    raiseRange pp prio first count = .ok (pp.mapIdx fun i cur =>
      if first ≤ i ∧ i < first + count then raisePriority cur prio else cur) := by
  induction count generalizing pp first with
  | zero =>
    have hnone (i : ℕ) : ¬ (first ≤ i ∧ i < first) := by omega
    refine congrArg Outcome.ok (List.ext_getElem? fun i => ?_)
    simp [hnone]
  | succ count ih =>
    have hlt : first < pp.length := by omega
    rw [raiseRange, List.getElem?_eq_getElem hlt]
    dsimp only
    rw [ih (by rw [List.length_set]; omega)]
    refine congrArg Outcome.ok (List.ext_getElem? fun i => ?_)
    rw [List.getElem?_mapIdx, List.getElem?_mapIdx, List.getElem?_set]
    by_cases hi : first = i
    · subst hi
      simp [hlt]
    · have hiff : (first + 1 ≤ i ∧ i < first + 1 + count) ↔
          (first ≤ i ∧ i < first + (count + 1)) := by omega
      simp only [hi, if_false, hiff]

/-- One round of the loop, where the file ends within the pieces. -/
theorem applyFile_eq {f : FileInfo} {prio : FilePriority} (hlen : 0 < pm.pieceLength)
    (hpp : pp.length = pm.numPieces) (hlt : pm.numPieces < 2 ^ 32)
    (h : prio ≠ .skip → f.offset + f.length < 2 ^ 64 ∧
      f.offset / pm.pieceLength ≤ pm.numPieces ∧
      (f.offset + f.length - 1) / pm.pieceLength < pm.numPieces) :
    applyFile b pm pp f prio =
      .ok (pp.mapIdx fun i cur => raiseBy pm.pieceLength i cur (f, prio)) := by
  by_cases hskip : prio = .skip
  · have hnone (i : ℕ) : ¬ Raises pm.pieceLength i (f, prio) := fun hi => hi.1 hskip
    rw [applyFile, if_pos hskip]
    refine congrArg Outcome.ok (List.ext_getElem? fun i => ?_)
    simp [raiseBy, hnone]
  obtain ⟨hend, hfirst, hlast⟩ := h hskip
  have hdiv (x : ℕ) : (div x pm.pieceLength : Res ℕ) = .ok (x / pm.pieceLength) :=
    if_neg hlen.ne'
  have hrange : raiseRange pp prio (f.offset / pm.pieceLength % 2 ^ 32)
      (min ((f.offset + f.length - 1) / pm.pieceLength % 2 ^ 32) (pm.numPieces - 1) + 1 -
        f.offset / pm.pieceLength % 2 ^ 32) =
      .ok (pp.mapIdx fun i cur => raiseBy pm.pieceLength i cur (f, prio)) := by
    rw [Nat.mod_eq_of_lt (hfirst.trans_lt hlt), Nat.mod_eq_of_lt (hlast.trans hlt),
      min_eq_left (Nat.le_sub_one_of_lt hlast), raiseRange_eq prio (by omega)]
    refine congrArg Outcome.ok (List.ext_getElem? fun i => ?_)
    rw [List.getElem?_mapIdx, List.getElem?_mapIdx]
    have hiff : (f.offset / pm.pieceLength ≤ i ∧ i < f.offset / pm.pieceLength +
        ((f.offset + f.length - 1) / pm.pieceLength + 1 - f.offset / pm.pieceLength)) ↔
        f.offset / pm.pieceLength ≤ i ∧ i ≤ (f.offset + f.length - 1) / pm.pieceLength := by
      omega
    simp only [hiff, raiseBy, Raises, ne_eq, hskip, not_false_eq_true, true_and]
  have hlimit : (b.sub 32 pm.numPieces 1 : Res ℕ) = .ok (pm.numPieces - 1) :=
    Build.sub_of_le b (Nat.one_le_of_lt hlast)
  rw [applyFile, if_neg hskip, hdiv, Outcome.ok_bind, Build.add_of_lt b hend, Outcome.ok_bind]
  dsimp only
  -- an empty file at the front ends in the first piece
  split
  · next hzero =>
    rw [hzero, Nat.zero_sub, Nat.zero_div] at hrange
    rw [Outcome.ok_bind, hlimit, Outcome.ok_bind]
    exact hrange
  · rw [hdiv, Outcome.ok_bind, hlimit, Outcome.ok_bind]
    exact hrange

theorem applyFiles_eq {files : List (FileInfo × FilePriority)} (hlen : 0 < pm.pieceLength)
    (hpp : pp.length = pm.numPieces) (hlt : pm.numPieces < 2 ^ 32)
    (h : ∀ file ∈ files, file.2 ≠ .skip → file.1.offset + file.1.length < 2 ^ 64 ∧
      file.1.offset / pm.pieceLength ≤ pm.numPieces ∧
      (file.1.offset + file.1.length - 1) / pm.pieceLength < pm.numPieces) :
    applyFiles b pm pp files =
      .ok (pp.mapIdx fun i cur => files.foldl (raiseBy pm.pieceLength i) cur) := by
  induction files generalizing pp with
  | nil =>
    refine congrArg Outcome.ok (List.ext_getElem? fun i => ?_)
    simp
  | cons file files ih =>
    rw [List.forall_mem_cons] at h
    rw [applyFiles, applyFile_eq hlen hpp hlt h.1, Outcome.ok_bind,
      ih (List.length_mapIdx.trans hpp) h.2, List.mapIdx_mapIdx]
    rfl

/-- The rounds together raise a piece to the highest of their priorities. -/
theorem foldl_raiseBy (pieceLength i : ℕ) (cur : FilePriority)
    (files : List (FileInfo × FilePriority)) :
    prioRank (files.foldl (raiseBy pieceLength i) cur) ≤ prioRank cur ∧
      (∀ file ∈ files, Raises pieceLength i file →
        prioRank (files.foldl (raiseBy pieceLength i) cur) ≤ prioRank file.2) ∧
      (files.foldl (raiseBy pieceLength i) cur = cur ∨ ∃ file ∈ files,
        Raises pieceLength i file ∧ files.foldl (raiseBy pieceLength i) cur = file.2) := by
  induction files generalizing cur with
  | nil => exact ⟨le_rfl, by simp, .inl rfl⟩
  | cons file files ih =>
    obtain ⟨hle, hall, hor⟩ := ih (raiseBy pieceLength i cur file)
    rw [List.foldl_cons]
    have hround : prioRank (raiseBy pieceLength i cur file) ≤ prioRank cur ∧
        (Raises pieceLength i file →
          prioRank (raiseBy pieceLength i cur file) ≤ prioRank file.2) ∧
        (raiseBy pieceLength i cur file = cur ∨
          Raises pieceLength i file ∧ raiseBy pieceLength i cur file = file.2) := by
      unfold raiseBy
      split
      · next hraises =>
        rw [prioRank_raisePriority]
        exact ⟨min_le_left _ _, fun _ => min_le_right _ _,
          (raisePriority_eq_or cur file.2).imp_right fun h => ⟨hraises, h⟩⟩
      · next hraises => exact ⟨le_rfl, fun h => absurd h hraises, .inl rfl⟩
    refine ⟨hle.trans hround.1, ?_, ?_⟩
    · rw [List.forall_mem_cons]
      exact ⟨fun hraises => hle.trans (hround.2.1 hraises), hall⟩
    · rcases hor with heq | ⟨g, hg, hraises, heq⟩
      · rw [heq]
        rcases hround.2.2 with hcur | ⟨hraises, hfile⟩
        · exact .inl hcur
        · exact .inr ⟨file, List.mem_cons_self, hraises, hfile⟩
      · exact .inr ⟨g, List.mem_cons_of_mem _ hg, hraises, heq⟩

end PieceManager

namespace Highest

variable {S T : Set FilePriority} {p q : FilePriority}

theorem unique (hp : Highest S p) (hq : Highest S q) : p = q := by
  rcases S.eq_empty_or_nonempty with hempty | hne
  · rw [hp.eq_skip_iff.mpr hempty, hq.eq_skip_iff.mpr hempty]
  · have hle := (hp.greatest hne).2 q (hq.greatest hne).1
    have hge := (hq.greatest hne).2 p (hp.greatest hne).1
    exact PieceManager.prioRank_injective (Nat.le_antisymm hle hge)

/-- Priorities that are outranked do not count. -/
theorem subset_iff (hp : Highest S p) (hsub : T ⊆ S) :
    Highest T p ↔ ∀ q ∈ S, ∃ r ∈ T, prioRank r ≤ prioRank q := by
  constructor
  · intro hT q hq
    have hne : T.Nonempty := by
      by_contra hempty
      have hskip := hT.eq_skip_iff.mpr (Set.not_nonempty_iff_eq_empty.mp hempty)
      exact absurd (hp.eq_skip_iff.mp hskip) (Set.nonempty_iff_ne_empty.mp ⟨q, hq⟩)
    exact ⟨p, (hT.greatest hne).1, (hp.greatest ⟨q, hq⟩).2 q hq⟩
  · intro hall
    have hgreatest (hne : T.Nonempty) : p ∈ T ∧ ∀ q ∈ T, prioRank p ≤ prioRank q := by
      have hS := hp.greatest (hne.mono hsub)
      obtain ⟨r, hr, hle⟩ := hall p hS.1
      have heq : p = r := PieceManager.prioRank_injective
        (Nat.le_antisymm (hS.2 r (hsub hr)) hle)
      exact ⟨heq ▸ hr, fun q hq => hS.2 q (hsub hq)⟩
    refine ⟨?_, hgreatest⟩
    rw [hp.eq_skip_iff]
    constructor
    · exact fun hempty => Set.subset_eq_empty hsub hempty
    · rintro rfl
      refine Set.eq_empty_iff_forall_notMem.mpr fun q hq => ?_
      obtain ⟨r, hr, _⟩ := hall q hq
      exact hr

end Highest

/-- The priorities of the files that raise a piece. -/
def raising (pieceLength i : ℕ) (files : List (FileInfo × FilePriority)) : Set FilePriority :=
  {q | ∃ f, (f, q) ∈ files ∧ PieceManager.Raises pieceLength i (f, q)}

/-- An empty file stands in a piece, at its front only if it is at the front of the torrent, and
what it asks for there is outranked by a file with a byte in the piece. -/
def EmptyOutranked (pieceLength : ℕ) (files : List (FileInfo × FilePriority)) : Prop :=
  ∀ f prio, (f, prio) ∈ files → prio ≠ .skip → f.length = 0 →
    f.offset = 0 ∨ f.offset % pieceLength ≠ 0 →
    ∃ r ∈ sharing pieceLength (f.offset / pieceLength) files, prioRank r ≤ prioRank prio

namespace PieceManager

variable {b : Build} {pm : PieceManager} {pieceLength i : ℕ} {files : List FileInfo}
  {prios : List FilePriority}

theorem highest_foldl (pieceLength i : ℕ) (files : List (FileInfo × FilePriority)) :
    Highest (raising pieceLength i files) (files.foldl (raiseBy pieceLength i) .skip) := by
  obtain ⟨_, hall, hor⟩ := foldl_raiseBy pieceLength i .skip files
  have hle (q : FilePriority) (hq : q ∈ raising pieceLength i files) :
      prioRank (files.foldl (raiseBy pieceLength i) .skip) ≤ prioRank q := by
    obtain ⟨f, hf, hraises⟩ := hq
    exact hall _ hf hraises
  have hmem : files.foldl (raiseBy pieceLength i) .skip = .skip ∨
      files.foldl (raiseBy pieceLength i) .skip ∈ raising pieceLength i files := by
    refine hor.imp_right ?_
    rintro ⟨⟨f, q⟩, hf, hraises, heq⟩
    rw [heq]
    exact ⟨f, hf, hraises⟩
  have hnone (hskip : files.foldl (raiseBy pieceLength i) .skip = .skip) :
      raising pieceLength i files = ∅ := by
    refine Set.eq_empty_iff_forall_notMem.mpr fun q hq => ?_
    have hrank := hle q hq
    obtain ⟨_, _, hraises⟩ := hq
    rw [hskip] at hrank
    exact hraises.1 (by cases q <;> first | rfl | simp [prioRank] at hrank)
  refine ⟨⟨hnone, fun hempty => ?_⟩, fun hne => ⟨?_, hle⟩⟩
  · rw [hempty] at hmem
    exact hmem.resolve_right (Set.notMem_empty _)
  · refine hmem.resolve_left fun hskip => ?_
    rw [hnone hskip] at hne
    exact Set.not_nonempty_empty hne

/-- A file raises the pieces that it has bytes in. -/
theorem raises_iff_hasByteIn {f : FileInfo} {prio : FilePriority} (hpos : 0 < pieceLength)
    (hlen : 0 < f.length) :
    Raises pieceLength i (f, prio) ↔ prio ≠ .skip ∧ f.HasByteIn pieceLength i := by
  refine and_congr_right fun _ => ?_
  dsimp only
  rw [Nat.div_le_iff_le_mul_add_pred hpos, Nat.le_div_iff_mul_le hpos]
  unfold FileInfo.HasByteIn
  rw [Nat.add_mul, Nat.mul_comm pieceLength i]
  constructor
  · rintro ⟨hfirst, hlast⟩
    exact ⟨i * pieceLength - f.offset, by omega, by omega, by omega⟩
  · rintro ⟨k, hk, hlo, hhi⟩
    omega

/-- An empty file raises the piece that it stands in. -/
theorem raises_iff_of_empty {f : FileInfo} {prio : FilePriority} (hpos : 0 < pieceLength)
    (hlen : f.length = 0) :
    Raises pieceLength i (f, prio) ↔
      prio ≠ .skip ∧ i = f.offset / pieceLength ∧ (f.offset = 0 ∨ f.offset % pieceLength ≠ 0) := by
  refine and_congr_right fun _ => ?_
  dsimp only
  rw [hlen, Nat.add_zero]
  rcases Nat.eq_zero_or_pos f.offset with hzero | hfront
  · rw [hzero, Nat.zero_sub, Nat.zero_div]
    omega
  have hdivmod := Nat.div_add_mod f.offset pieceLength
  have hmod := Nat.mod_lt f.offset hpos
  by_cases hrem : f.offset % pieceLength = 0
  · have hlast : (f.offset - 1) / pieceLength < f.offset / pieceLength := by
      rw [Nat.div_lt_iff_lt_mul hpos, Nat.mul_comm]
      omega
    omega
  · have hlast : (f.offset - 1) / pieceLength = f.offset / pieceLength := by
      rw [Nat.div_eq_iff hpos, Nat.mul_comm]
      omega
    omega

theorem sharing_subset_raising (hpos : 0 < pieceLength)
    (files : List (FileInfo × FilePriority)) :
    sharing pieceLength i files ⊆ raising pieceLength i files := by
  rintro q ⟨hq, f, hf, hbyte⟩
  obtain ⟨k, hk, _⟩ := id hbyte
  exact ⟨f, hf, (raises_iff_hasByteIn hpos (by omega)).mpr ⟨hq, hbyte⟩⟩

/-- What raises a piece is outranked by what shares it when the empty files are. -/
theorem raising_outranked_iff {n : ℕ} {files : List (FileInfo × FilePriority)}
    (hpos : 0 < pieceLength)
    (hend : ∀ file ∈ files, file.1.offset + file.1.length ≤ n * pieceLength)
    (hn : 0 < n) :
    (∀ i < n, ∀ q ∈ raising pieceLength i files,
        ∃ r ∈ sharing pieceLength i files, prioRank r ≤ prioRank q) ↔
      EmptyOutranked pieceLength files := by
  constructor
  · intro hall f prio hf hskip hlen hfront
    have hraises := (raises_iff_of_empty hpos hlen).mpr ⟨hskip, rfl, hfront⟩
    have hoffset := hend _ hf
    have hlast : (f.offset + f.length - 1) / pieceLength < n := by
      rw [Nat.div_lt_iff_lt_mul hpos]
      have := Nat.mul_pos hn hpos
      dsimp only at hoffset
      omega
    exact hall _ (hraises.2.2.trans_lt hlast) prio ⟨f, hf, hraises⟩
  · rintro hempty i _ q ⟨f, hf, hraises⟩
    rcases Nat.eq_zero_or_pos f.length with hlen | hlen
    · obtain ⟨hskip, rfl, hfront⟩ := (raises_iff_of_empty hpos hlen).mp hraises
      exact hempty f q hf hskip hlen hfront
    · obtain ⟨hskip, hbyte⟩ := (raises_iff_hasByteIn hpos hlen).mp hraises
      exact ⟨q, ⟨hskip, f, hf, hbyte⟩, le_rfl⟩

/-- Without pieces, a file that is not skipped is too much. -/
theorem applyFile_nil {f : FileInfo} {prio : FilePriority} {pp : List FilePriority}
    (hoffset : f.offset = 0) (hlen : f.length = 0) (hskip : prio ≠ .skip) :
    applyFile b pm [] f prio ≠ .ok pp := by
  intro h
  rw [applyFile, if_neg hskip] at h
  obtain ⟨first, hfirst, h⟩ := Outcome.bind_eq_ok.mp h
  have hzero : first = 0 := by
    rw [hoffset, div] at hfirst
    split at hfirst
    · cases hfirst
    · exact (Outcome.ok.inj hfirst).symm.trans (Nat.zero_div _)
  rw [hoffset, hlen, hzero, Build.add_of_lt b (by decide), Outcome.ok_bind] at h
  obtain ⟨last, hlast, h⟩ := Outcome.bind_eq_ok.mp h
  obtain rfl := Outcome.ok.inj hlast
  obtain ⟨limit, _, h⟩ := Outcome.bind_eq_ok.mp h
  simp [raiseRange] at h

theorem skip_of_applyFiles_nil {files : List (FileInfo × FilePriority)} {pp : List FilePriority}
    (hfiles : ∀ file ∈ files, file.1.offset = 0 ∧ file.1.length = 0)
    (h : applyFiles b pm [] files = .ok pp) : ∀ file ∈ files, file.2 = .skip := by
  induction files with
  | nil => simp
  | cons file files ih =>
    rw [List.forall_mem_cons] at hfiles ⊢
    obtain ⟨mid, hmid, h⟩ := Outcome.bind_eq_ok.mp h
    have hskip : file.2 = .skip := by
      by_contra hskip
      exact applyFile_nil hfiles.1.1 hfiles.1.2 hskip hmid
    rw [applyFile, if_pos hskip] at hmid
    obtain rfl := Outcome.ok.inj hmid
    exact ⟨hskip, ih hfiles.2 h⟩

/-- Files without gaps end where the torrent ends. -/
theorem LaidOut.end_le (h : pm.LaidOut files) {f : FileInfo} (hf : f ∈ files) :
    f.offset + f.length ≤ totalLength files ∧
      totalLength files ≤ pm.numPieces * pm.pieceLength := by
  obtain ⟨layout, hperm, hcont⟩ := h.contiguous
  have htotal : totalLength layout = totalLength files := (hperm.map FileInfo.length).sum_eq
  have hend := hcont.end_le (hperm.mem_iff.mpr hf)
  rw [htotal, Nat.zero_add] at hend
  refine ⟨hend, ?_⟩
  rw [h.numPieces_eq, Nat.mul_comm]
  exact le_smul_ceilDiv h.pieceLength_pos

/-- Where there are pieces, `apply_file_priorities` returns. -/
theorem applyFilePriorities_eq (h : pm.LaidOut files)
    (hpieces : 0 < pm.numPieces ∨ ∀ file ∈ files.zip prios, file.2 = .skip) :
    pm.applyFilePriorities b files prios = .ok { pm with
      piecePriorities := (List.replicate pm.numPieces .skip).mapIdx fun i cur =>
        (files.zip prios).foldl (raiseBy pm.pieceLength i) cur } := by
  rw [applyFilePriorities, h.priorities,
    applyFiles_eq h.pieceLength_pos List.length_replicate h.numPieces_lt, Outcome.ok_bind]
  · rfl
  intro file hfile hskip
  have hpos := hpieces.resolve_right fun hall => hskip (hall file hfile)
  have hmem : file.1 ∈ files := (List.of_mem_zip hfile).1
  obtain ⟨hend, htotal⟩ := h.end_le hmem
  have htotal_lt := h.total_lt
  have hmul := Nat.mul_pos hpos h.pieceLength_pos
  refine ⟨by omega, Nat.div_le_of_le_mul ?_, ?_⟩
  · rw [Nat.mul_comm]
    omega
  · rw [Nat.div_lt_iff_lt_mul h.pieceLength_pos]
    omega

/-- The priorities of the pieces follow those of the files as far as no empty file gets in the
way. -/
theorem followsFiles_iff (h : pm.LaidOut files) (prios : List FilePriority) :
    pm.FollowsFiles b files prios ↔ EmptyOutranked pm.pieceLength (files.zip prios) := by
  rcases Nat.eq_zero_or_pos pm.numPieces with hn | hn
  · have hempty (file : FileInfo × FilePriority) (hfile : file ∈ files.zip prios) :
        file.1.offset = 0 ∧ file.1.length = 0 := by
      obtain ⟨hend, htotal⟩ := h.end_le (List.of_mem_zip hfile).1
      rw [hn, Nat.zero_mul] at htotal
      omega
    constructor
    · rintro ⟨pm', hrun, _⟩ f prio hf hskip
      obtain ⟨pp, hpp, _⟩ := Outcome.bind_eq_ok.mp hrun
      rw [h.priorities, hn] at hpp
      exact absurd (skip_of_applyFiles_nil hempty hpp _ hf) hskip
    · intro houtranked
      refine ⟨_, applyFilePriorities_eq h (.inr fun file hfile => ?_), by simp [hn]⟩
      by_contra hskip
      obtain ⟨r, ⟨_, g, hg, k, hk, _⟩, _⟩ :=
        houtranked file.1 file.2 hfile hskip (hempty _ hfile).2 (.inl (hempty _ hfile).1)
      have := (hempty _ hg).2
      dsimp only at this
      omega
  · have hends (file : FileInfo × FilePriority) (hfile : file ∈ files.zip prios) :
        file.1.offset + file.1.length ≤ pm.numPieces * pm.pieceLength := by
      obtain ⟨hend, htotal⟩ := h.end_le (List.of_mem_zip hfile).1
      omega
    rw [← raising_outranked_iff h.pieceLength_pos hends hn, FollowsFiles,
      applyFilePriorities_eq h (.inl hn)]
    simp only [Outcome.ok.injEq, exists_eq_left']
    refine forall₂_congr fun i hi => ?_
    rw [List.getElem?_mapIdx, List.getElem?_replicate, if_pos hi, Option.map_some]
    simp only [Option.some.injEq, exists_eq_left']
    exact (highest_foldl _ _ _).subset_iff (sharing_subset_raising h.pieceLength_pos _)

/-- Three files of 50 bytes, the last one first. The second is empty. -/
def threeFiles : List FileInfo :=
  [⟨.ascii "c", 30, 20⟩, ⟨.ascii "b", 0, 20⟩, ⟨.ascii "a", 20, 0⟩]

theorem laidOut_threeFiles : (new 4 16 50 []).LaidOut threeFiles :=
  { indexed_new 4 16 50 [] with
    pieceLength_pos := by decide
    contiguous := ⟨threeFiles.reverse, List.reverse_perm _, rfl, rfl, rfl, trivial⟩
    total_lt := by decide
    numPieces_eq := by decide
    numPieces_lt := by decide }

/-- The second piece, in which the empty file stands, has the priority of the file before it. -/
theorem followsFiles_threeFiles :
    (new 4 16 50 []).FollowsFiles .release threeFiles [.low, .normal, .high] ∧
      ((new 4 16 50 []).applyFilePriorities .release threeFiles [.low, .normal, .high]).isOkAnd
        (fun pm => pm.piecePriorities = [.high, .high, .low, .low]) = true := by
  refine ⟨(followsFiles_iff laidOut_threeFiles _).mpr fun f prio hf _ hlen _ => ?_, by decide⟩
  have hhigh : FilePriority.high ∈ sharing 16 1 (threeFiles.zip [.low, .normal, .high]) :=
    ⟨by decide, ⟨.ascii "a", 20, 0⟩, by decide, 16, by decide, by decide, by decide⟩
  simp only [threeFiles, List.zip_cons_cons, List.zip_nil_left, List.mem_cons, Prod.mk.injEq,
    List.not_mem_nil, or_false] at hf
  obtain ⟨rfl, rfl⟩ | ⟨rfl, rfl⟩ | ⟨rfl, rfl⟩ := hf
  · cases hlen
  · exact ⟨.high, hhigh, by decide⟩
  · cases hlen

/-- A file of ten bytes. -/
def tenBytes : List FileInfo := [⟨.ascii "a", 10, 0⟩]

/-- An empty file behind it. -/
def emptyBehind : List FileInfo := tenBytes ++ [⟨.ascii "b", 0, 10⟩]

/-- The empty file raises the piece that it has no byte in. -/
theorem emptyBehind_not_followsFiles :
    (new 1 16 10 []).LaidOut emptyBehind ∧
      ¬ (new 1 16 10 []).FollowsFiles .release emptyBehind [.low, .high] := by
  refine ⟨{ indexed_new 1 16 10 [] with
    pieceLength_pos := by decide
    contiguous := ⟨emptyBehind, .refl _, rfl, rfl, trivial⟩
    total_lt := by decide
    numPieces_eq := by decide
    numPieces_lt := by decide }, ?_⟩
  rintro ⟨pm', hrun, hall⟩
  have hraised : ((new 1 16 10 []).applyFilePriorities .release emptyBehind [.low, .high]).isOkAnd
      (fun pm => pm.piecePriorities == [.high]) = true := by decide
  rw [hrun, Outcome.isOkAnd, beq_iff_eq] at hraised
  obtain ⟨prio, hprio, hhighest⟩ := hall 0 (by decide)
  rw [hraised] at hprio
  obtain rfl := Option.some.inj hprio
  have hlow : FilePriority.low ∈ sharing 16 0 (emptyBehind.zip [.low, .high]) :=
    ⟨by decide, _, List.mem_cons_self, 0, by decide, by decide, by decide⟩
  obtain ⟨_, f, hf, k, hk, _⟩ := (hhighest.greatest ⟨_, hlow⟩).1
  simp only [emptyBehind, tenBytes, List.cons_append, List.nil_append, List.zip_cons_cons,
    List.zip_nil_left, List.mem_cons, Prod.mk.injEq, reduceCtorEq, and_false, List.not_mem_nil,
    or_false, false_or, and_true] at hf
  rw [hf] at hk
  exact absurd hk (Nat.not_lt_zero k)

end PieceManager

end Retorrent

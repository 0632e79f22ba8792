import Retorrent.Piece.Select

/-!
# The pieces that are selected

`select_piece` decodes the bitfield of a peer, sorts the pieces it could ask for and cuts the
sorted list down. Here is what the list contains, in both modes, with the pieces that are left out.
-/

namespace List

variable {α : Type} {R : α → α → Prop} {l : List α} {x y : α}

/-- What is cut off from a sorted list comes after what is kept. -/
theorem Pairwise.rel_of_not_mem_take (h : l.Pairwise R) {n : ℕ} (hx : x ∈ l.take n) (hy : y ∈ l)
    (hcut : y ∉ l.take n) : R x y := by
  rw [← List.take_append_drop n l, List.pairwise_append] at h
  rw [← List.take_append_drop n l, List.mem_append] at hy
  exact h.2.2 x hx y (hy.resolve_left hcut)

/-- A list that something is cut off from is cut to the full length. -/
theorem length_take_of_not_mem {n : ℕ} (hy : y ∈ l) (hcut : y ∉ l.take n) :
    (l.take n).length = n := by
  rw [List.length_take, min_eq_left]
  by_contra hshort
  rw [List.take_of_length_le (Nat.le_of_not_le hshort)] at hcut
  exact hcut hy

end List

namespace Retorrent

open Rust

namespace PieceManager

/-- The vectors have one entry for each piece. -/
structure Indexed (pm : PieceManager) : Prop where
  have_ : pm.have_.length = pm.numPieces
  availability : pm.pieceAvailability.length = pm.numPieces
  priorities : pm.piecePriorities.length = pm.numPieces

def priorityOf (pm : PieceManager) (i : ℕ) : FilePriority := pm.piecePriorities.getD i .skip

def availabilityOf (pm : PieceManager) (i : ℕ) : ℕ := pm.pieceAvailability.getD i 0

/-- A piece that the peer has and that we want and do not work on. -/
def Eligible (pm : PieceManager) (peerBitfield : List UInt8) (i : ℕ) : Prop :=
  i < pm.numPieces ∧ pm.havePiece i = false ∧ pm.inProgress.containsKey i = false ∧
    pm.priorityOf i ≠ .skip ∧ bitAt peerBitfield i = true

instance (pm : PieceManager) (peerBitfield : List UInt8) :
    DecidablePred (pm.Eligible peerBitfield) :=
  fun _ => inferInstanceAs (Decidable (_ ∧ _))

/-- An eligible piece that no eligible piece is preferred to. -/
def BestEligible (pm : PieceManager) (peerBitfield : List UInt8) (i : ℕ) : Prop :=
  pm.Eligible peerBitfield i ∧ ∀ j, pm.Eligible peerBitfield j →
    prioRank (pm.priorityOf i) ≤ prioRank (pm.priorityOf j)

/-- The best pieces with the lowest indices, in increasing order. -/
def LowestFirst (pm : PieceManager) (peerBitfield : List UInt8) (pieces : List ℕ) : Prop :=
  pieces.Pairwise (· < ·) ∧
    ∀ j, pm.BestEligible peerBitfield j → j ∉ pieces → pieces.length = 10 ∧ ∀ i ∈ pieces, i < j

/-- Best pieces sorted by availability: they start from the minimum and stay close to it, and what
is left out is not rarer. -/
def RarestFirst (pm : PieceManager) (peerBitfield : List UInt8) (pieces : List ℕ) : Prop :=
  pieces.Pairwise (fun i j => pm.availabilityOf i ≤ pm.availabilityOf j) ∧
    (∀ first ∈ pieces.head?,
      (∀ j, pm.BestEligible peerBitfield j → pm.availabilityOf first ≤ pm.availabilityOf j) ∧
      ∀ i ∈ pieces, pm.availabilityOf i ≤ pm.availabilityOf first + 2) ∧
    ∀ j, pm.BestEligible peerBitfield j → j ∉ pieces →
      ∀ i ∈ pieces, pm.availabilityOf i ≤ pm.availabilityOf j

/-- What the list that `select_piece` returns promises. -/
structure Selects (pm : PieceManager) (peerBitfield : List UInt8) (sequential : Bool)
    (pieces : List ℕ) : Prop where
  eq_nil_iff : pieces = [] ↔ ∀ i, ¬ pm.Eligible peerBitfield i
  length_le : pieces.length ≤ 10
  nodup : pieces.Nodup
  best : ∀ i ∈ pieces, pm.BestEligible peerBitfield i
  ordered : if sequential then pm.LowestFirst peerBitfield pieces
    else pm.RarestFirst peerBitfield pieces

variable {b : Build} {pm : PieceManager} {peerBitfield : List UInt8}

theorem indexed_new (numPieces pieceLength totalSize : ℕ) (hashes : List Hash) :
    (new numPieces pieceLength totalSize hashes).Indexed :=
  ⟨List.length_replicate, List.length_replicate, List.length_replicate⟩

theorem Indexed.loadHave (h : pm.Indexed) (bits : List Bool) : (pm.loadHave bits).Indexed :=
  ⟨List.length_mapIdx.trans h.have_, h.availability, h.priorities⟩

theorem Indexed.abortPiece (h : pm.Indexed) (index : ℕ) : (pm.abortPiece index).Indexed :=
  ⟨h.have_, h.availability, h.priorities⟩

theorem Indexed.startPiece (h : pm.Indexed) {pm' : PieceManager} {heap heap' : Heap} {index a : ℕ}
    (hstart : PieceManager.startPiece b index pm heap = .ok (a, pm', heap')) : pm'.Indexed := by
  obtain ⟨_, _, _, rfl, _⟩ := startPiece_eq_ok hstart
  exact ⟨h.have_, h.availability, h.priorities⟩

theorem Indexed.markPieceComplete (h : pm.Indexed) {pm' : PieceManager} {index : ℕ}
    (hmark : pm.markPieceComplete b index = .ok pm') : pm'.Indexed := by
  unfold PieceManager.markPieceComplete at hmark
  split at hmark
  · simp at hmark
  obtain ⟨avail, havail, hmark⟩ := Outcome.bind_eq_ok.mp hmark
  obtain rfl := Outcome.ok.inj hmark
  refine ⟨List.length_set.trans h.have_, ?_, h.priorities⟩
  unfold bumpAvailability at havail
  split at havail
  · exact Outcome.ok.inj havail ▸ h.availability
  · obtain ⟨n, _, havail⟩ := Outcome.bind_eq_ok.mp havail
    rw [← Outcome.ok.inj havail, List.length_set]
    exact h.availability

theorem prioRank_injective : Function.Injective prioRank := by
  intro p q h
  cases p <;> cases q <;> first | rfl | cases h

instance (sequential : Bool) : Std.Total (Before sequential) where
  total x y := by
    unfold Before
    split <;> omega

instance (sequential : Bool) : IsTrans Candidate (Before sequential) where
  trans x y z := by
    unfold Before
    split <;> omega

/-- The candidate that an eligible piece makes. -/
def candidate (pm : PieceManager) (i : ℕ) : Candidate := ⟨i, pm.availabilityOf i, pm.priorityOf i⟩

theorem candidateAt_eq (h : pm.Indexed) {i : ℕ} (hi : i < pm.numPieces) :
    pm.candidateAt peerBitfield i =
      .ok (if pm.Eligible peerBitfield i then some (pm.candidate i) else none) := by
  have hhave : pm.have_[i]? = some (pm.havePiece i) := by
    obtain ⟨had, hhad⟩ : ∃ had, pm.have_[i]? = some had :=
      ⟨_, List.getElem?_eq_getElem (h.have_ ▸ hi)⟩
    rw [havePiece, hhad]
    cases had <;> rfl
  have hprio : pm.piecePriorities[i]? = some (pm.priorityOf i) := by
    simp [priorityOf, h.priorities, hi]
  have havail : pm.pieceAvailability[i]? = some (pm.availabilityOf i) := by
    simp [availabilityOf, h.availability, hi]
  simp only [candidateAt, indexAt, hhave, hprio, havail, Outcome.ok_bind, Outcome.pure_eq,
    Eligible, hi, true_and]
  by_cases hskip : pm.priorityOf i = .skip <;> cases pm.havePiece i <;>
    cases pm.inProgress.containsKey i <;> cases bitAt peerBitfield i <;> simp [hskip, candidate]

/-- The loop finds the eligible pieces. -/
theorem candidatesOf_eq (h : pm.Indexed) {indices : List ℕ}
    (hlt : ∀ i ∈ indices, i < pm.numPieces) :
    pm.candidatesOf peerBitfield indices =
      .ok ((indices.filter (pm.Eligible peerBitfield ·)).map pm.candidate) := by
  induction indices with
  | nil => rfl
  | cons i indices ih =>
    rw [List.forall_mem_cons] at hlt
    rw [candidatesOf, candidateAt_eq h hlt.1, ih hlt.2, List.filter_cons]
    by_cases hi : pm.Eligible peerBitfield i <;> simp [hi]

/-- The candidates as `select_piece` sorts them. -/
def sortedCandidates (pm : PieceManager) (peerBitfield : List UInt8) (sequential : Bool) :
    List Candidate :=
  (((List.range pm.numPieces).filter (pm.Eligible peerBitfield ·)).map
    pm.candidate).insertionSort (Before sequential)

theorem mem_sortedCandidates {sequential : Bool} {c : Candidate} :
    c ∈ pm.sortedCandidates peerBitfield sequential ↔
      pm.Eligible peerBitfield c.index ∧ c = pm.candidate c.index := by
  rw [sortedCandidates, List.mem_insertionSort, List.mem_map]
  constructor
  · rintro ⟨i, hi, rfl⟩
    exact ⟨of_decide_eq_true (List.mem_filter.mp hi).2, rfl⟩
  · rintro ⟨hi, hc⟩
    exact ⟨c.index, List.mem_filter.mpr ⟨List.mem_range.mpr hi.1, decide_eq_true hi⟩, hc.symm⟩

theorem nodup_sortedCandidates (sequential : Bool) :
    ((pm.sortedCandidates peerBitfield sequential).map Candidate.index).Nodup := by
  have hperm := (List.perm_insertionSort (Before sequential)
    (((List.range pm.numPieces).filter (pm.Eligible peerBitfield ·)).map pm.candidate)).map
    Candidate.index
  refine hperm.nodup_iff.mpr ?_
  rw [List.map_map]
  exact (List.nodup_range.filter _).map fun _ _ h => h

theorem pairwise_sortedCandidates (sequential : Bool) :
    (pm.sortedCandidates peerBitfield sequential).Pairwise (Before sequential) :=
  List.pairwise_insertionSort _ _

/-- No candidate goes before the first one. -/
theorem before_of_sortedCandidates {sequential : Bool} {best c : Candidate} {rest : List Candidate}
    (h : pm.sortedCandidates peerBitfield sequential = best :: rest)
    (hc : c ∈ pm.sortedCandidates peerBitfield sequential) : Before sequential best c := by
  have hsorted : (pm.sortedCandidates peerBitfield sequential).Pairwise (Before sequential) :=
    pairwise_sortedCandidates sequential
  rw [h] at hsorted hc
  rcases List.mem_cons.mp hc with rfl | hc
  · exact refl_of (Before sequential) c
  · exact List.rel_of_pairwise_cons hsorted hc

/-- The candidates with the priority of the first one are the best. -/
theorem prio_eq_iff_bestEligible {sequential : Bool} {best c : Candidate} {rest : List Candidate}
    (h : pm.sortedCandidates peerBitfield sequential = best :: rest)
    (hc : c ∈ pm.sortedCandidates peerBitfield sequential) :
    c.prio = best.prio ↔ pm.BestEligible peerBitfield c.index := by
  have hprio {c : Candidate} (hc : c ∈ pm.sortedCandidates peerBitfield sequential) :
      c.prio = pm.priorityOf c.index := congrArg Candidate.prio (mem_sortedCandidates.mp hc).2
  have hbest : best ∈ pm.sortedCandidates peerBitfield sequential := h ▸ List.mem_cons_self
  have hfirst {c : Candidate} (hc : c ∈ pm.sortedCandidates peerBitfield sequential) :
      prioRank best.prio ≤ prioRank c.prio := by
    have hbefore := before_of_sortedCandidates h hc
    unfold Before at hbefore
    omega
  constructor
  · intro heq
    refine ⟨(mem_sortedCandidates.mp hc).1, fun j hj => ?_⟩
    rw [← hprio hc, heq]
    exact hfirst (mem_sortedCandidates.mpr ⟨hj, rfl⟩ : pm.candidate j ∈ _)
  · intro hmost
    have hle := hmost.2 best.index (mem_sortedCandidates.mp hbest).1
    rw [← hprio hc, ← hprio hbest] at hle
    exact prioRank_injective (Nat.le_antisymm hle (hfirst hc))

/-- The first ten of the sorted candidates that satisfy `p`. -/
def firstTen (pm : PieceManager) (peerBitfield : List UInt8) (sequential : Bool)
    (p : Candidate → Bool) : List Candidate :=
  ((pm.sortedCandidates peerBitfield sequential).filter p).take 10

section

variable {sequential : Bool} {p : Candidate → Bool} {best : Candidate} {rest : List Candidate}

theorem sublist_firstTen :
    (pm.firstTen peerBitfield sequential p).Sublist (pm.sortedCandidates peerBitfield sequential) :=
  (List.take_sublist _ _).trans List.filter_sublist

theorem firstTen_eq_cons (h : pm.sortedCandidates peerBitfield sequential = best :: rest)
    (hp : p best = true) :
    pm.firstTen peerBitfield sequential p = best :: (rest.filter p).take 9 := by
  rw [firstTen, h, List.filter_cons_of_pos hp, List.take_succ_cons]

theorem mem_index_firstTen {i : ℕ} :
    i ∈ (pm.firstTen peerBitfield sequential p).map Candidate.index ↔
      pm.candidate i ∈ pm.firstTen peerBitfield sequential p := by
  rw [List.mem_map]
  constructor
  · rintro ⟨c, hc, rfl⟩
    rw [← (mem_sortedCandidates.mp (sublist_firstTen.subset hc)).2]
    exact hc
  · exact fun h => ⟨_, h, rfl⟩

/-- The order of the candidates that are returned. -/
theorem pairwise_firstTen :
    (pm.firstTen peerBitfield sequential p).Pairwise (Before sequential) :=
  (pairwise_sortedCandidates sequential).sublist sublist_firstTen

/-- A candidate that the cut leaves out comes after those that stay. -/
theorem before_of_cut {i j : ℕ} (hj : pm.Eligible peerBitfield j) (hp : p (pm.candidate j) = true)
    (hcut : j ∉ (pm.firstTen peerBitfield sequential p).map Candidate.index)
    (hi : i ∈ (pm.firstTen peerBitfield sequential p).map Candidate.index) :
    Before sequential (pm.candidate i) (pm.candidate j) := by
  rw [mem_index_firstTen] at hcut hi
  have hmem : pm.candidate j ∈ (pm.sortedCandidates peerBitfield sequential).filter p :=
    List.mem_filter.mpr ⟨mem_sortedCandidates.mpr ⟨hj, rfl⟩, hp⟩
  exact ((pairwise_sortedCandidates sequential).filter p).rel_of_not_mem_take hi hmem hcut

theorem nodup_firstTen : ((pm.firstTen peerBitfield sequential p).map Candidate.index).Nodup :=
  (nodup_sortedCandidates sequential).sublist (sublist_firstTen.map _)

/-- Where only candidates with the priority of the first one are kept, the best are kept. -/
theorem best_of_firstTen (h : pm.sortedCandidates peerBitfield sequential = best :: rest)
    (hprio : ∀ c, p c = true → c.prio = best.prio) {i : ℕ}
    (hi : i ∈ (pm.firstTen peerBitfield sequential p).map Candidate.index) :
    pm.BestEligible peerBitfield i := by
  have hmem := mem_index_firstTen.mp hi
  have hp : p (pm.candidate i) = true := (List.mem_filter.mp (List.mem_of_mem_take hmem)).2
  exact (prio_eq_iff_bestEligible h (sublist_firstTen.subset hmem)).mp (hprio _ hp)

/-- What both orders have in common. -/
theorem selects_firstTen (h : pm.sortedCandidates peerBitfield sequential = best :: rest)
    (hself : p best = true) (hprio : ∀ c, p c = true → c.prio = best.prio)
    (hordered : if sequential = true then
        pm.LowestFirst peerBitfield ((pm.firstTen peerBitfield sequential p).map Candidate.index)
      else
        pm.RarestFirst peerBitfield ((pm.firstTen peerBitfield sequential p).map Candidate.index)) :
    pm.Selects peerBitfield sequential
      ((pm.firstTen peerBitfield sequential p).map Candidate.index) where
  eq_nil_iff := by
    have hbest : best ∈ pm.sortedCandidates peerBitfield sequential := h ▸ List.mem_cons_self
    rw [firstTen_eq_cons h hself]
    refine iff_of_false (List.cons_ne_nil _ _) fun hnone => ?_
    exact hnone best.index (mem_sortedCandidates.mp hbest).1
  length_le := by
    rw [List.length_map]
    exact List.length_take_le _ _
  nodup := nodup_firstTen
  best := fun _ hi => best_of_firstTen h hprio hi
  ordered := hordered

/-- A best piece is a candidate with the priority of the first one. -/
theorem prio_candidate (h : pm.sortedCandidates peerBitfield sequential = best :: rest) {j : ℕ}
    (hj : pm.BestEligible peerBitfield j) :
    pm.candidate j ∈ pm.sortedCandidates peerBitfield sequential ∧
      (pm.candidate j).prio = best.prio := by
  have hmem : pm.candidate j ∈ pm.sortedCandidates peerBitfield sequential :=
    mem_sortedCandidates.mpr ⟨hj.1, rfl⟩
  exact ⟨hmem, (prio_eq_iff_bestEligible h hmem).mpr hj⟩

/-- Among the best pieces only the second key counts. -/
theorem pairwise_index_firstTen (hprio : ∀ c, p c = true → c.prio = best.prio) :
    ((pm.firstTen peerBitfield sequential p).map Candidate.index).Pairwise fun i j =>
      if sequential then i ≤ j else pm.availabilityOf i ≤ pm.availabilityOf j := by
  rw [List.pairwise_map]
  refine pairwise_firstTen.imp_of_mem fun {x y} hx hy hbefore => ?_
  have hcandidate {c : Candidate} (hc : c ∈ pm.firstTen peerBitfield sequential p) :
      c.prio = best.prio ∧ c.avail = pm.availabilityOf c.index :=
    ⟨hprio c (List.mem_filter.mp (List.mem_of_mem_take hc)).2,
      congrArg Candidate.avail (mem_sortedCandidates.mp (sublist_firstTen.subset hc)).2⟩
  unfold Before at hbefore
  rw [(hcandidate hx).1, (hcandidate hy).1, (hcandidate hx).2, (hcandidate hy).2] at hbefore
  exact (hbefore.resolve_left (Nat.lt_irrefl _)).2

end

theorem lowestFirst_firstTen {best : Candidate} {rest : List Candidate}
    (h : pm.sortedCandidates peerBitfield true = best :: rest) :
    pm.LowestFirst peerBitfield
      ((pm.firstTen peerBitfield true fun c => c.prio == best.prio).map Candidate.index) := by
  have hprio (c : Candidate) (hc : (c.prio == best.prio) = true) : c.prio = best.prio :=
    eq_of_beq hc
  refine ⟨?_, fun j hj hcut => ?_⟩
  · have hle := @pairwise_index_firstTen pm peerBitfield true _ best hprio
    exact (hle.and nodup_firstTen).imp fun h => lt_of_le_of_ne h.1 h.2
  obtain ⟨hmem, heq⟩ := prio_candidate h hj
  have hp : ((pm.candidate j).prio == best.prio) = true := beq_iff_eq.mpr heq
  refine ⟨?_, fun i hi => ?_⟩
  · rw [mem_index_firstTen] at hcut
    rw [List.length_map]
    exact List.length_take_of_not_mem (List.mem_filter.mpr ⟨hmem, hp⟩) hcut
  · have hbefore := before_of_cut hj.1 hp hcut hi
    have hrank := hj.2 i (best_of_firstTen h hprio hi).1
    have hle : i ≤ j := (hbefore.resolve_left (Nat.not_lt.mpr hrank)).2
    exact lt_of_le_of_ne hle fun heq => hcut (heq ▸ hi)

theorem rarestFirst_firstTen {best : Candidate} {rest : List Candidate}
    (h : pm.sortedCandidates peerBitfield false = best :: rest) :
    pm.RarestFirst peerBitfield ((pm.firstTen peerBitfield false fun c =>
      c.prio == best.prio && c.avail ≤ best.avail + 2).map Candidate.index) := by
  have hkept (c : Candidate)
      (hc : (c.prio == best.prio && decide (c.avail ≤ best.avail + 2)) = true) :
      c.prio = best.prio ∧ c.avail ≤ best.avail + 2 := by
    simpa using hc
  have hprio (c : Candidate)
      (hc : (c.prio == best.prio && decide (c.avail ≤ best.avail + 2)) = true) :
      c.prio = best.prio := (hkept c hc).1
  have hnear {i : ℕ} (hi : i ∈ (pm.firstTen peerBitfield false fun c =>
      c.prio == best.prio && c.avail ≤ best.avail + 2).map Candidate.index) :
      pm.availabilityOf i ≤ best.avail + 2 :=
    (hkept (pm.candidate i) (List.mem_filter.mp
      (List.mem_of_mem_take (mem_index_firstTen.mp hi))).2).2
  refine ⟨@pairwise_index_firstTen pm peerBitfield false _ best hprio, ?_, fun j hj hcut i hi => ?_⟩
  · intro first hfirst
    rw [firstTen_eq_cons h (by simp)] at hfirst
    have hbest : best = pm.candidate best.index :=
      (mem_sortedCandidates.mp (h ▸ List.mem_cons_self)).2
    obtain rfl : best.index = first := by simpa using hfirst
    have havail : pm.availabilityOf best.index = best.avail :=
      (congrArg Candidate.avail hbest).symm
    rw [havail]
    refine ⟨fun j hj => ?_, fun i hi => hnear hi⟩
    obtain ⟨hmem, heq⟩ := prio_candidate h hj
    have hbefore := before_of_sortedCandidates h hmem
    unfold Before at hbefore
    rw [heq] at hbefore
    exact (hbefore.resolve_left (Nat.lt_irrefl _)).2
  · obtain ⟨_, heq⟩ := prio_candidate h hj
    by_cases hclose : pm.availabilityOf j ≤ best.avail + 2
    · have hbefore := before_of_cut hj.1
        (Bool.and_eq_true_iff.mpr ⟨beq_iff_eq.mpr heq, decide_eq_true hclose⟩) hcut hi
      have hrank := hj.2 i (best_of_firstTen h hprio hi).1
      exact (hbefore.resolve_left (Nat.not_lt.mpr hrank)).2
    · exact (hnear hi).trans (Nat.le_of_not_le hclose)

/-- `select_piece` returns, for every manager and every bitfield. -/
theorem selectPiece_selects (hpm : pm.Indexed)
    (havail : ∀ n ∈ pm.pieceAvailability, n < 2 ^ 32 - 2) (peerBitfield : List UInt8)
    (sequential : Bool) :
    ∃ pieces, pm.selectPiece b peerBitfield sequential = .ok pieces ∧
      pm.Selects peerBitfield sequential pieces := by
  rw [selectPiece, candidatesOf_eq hpm fun i hi => List.mem_range.mp hi, Outcome.ok_bind]
  cases hsorted : pm.sortedCandidates peerBitfield sequential with
  | nil =>
    have hnone (i : ℕ) : ¬ pm.Eligible peerBitfield i := fun hi => by
      have hmem : pm.candidate i ∈ pm.sortedCandidates peerBitfield sequential :=
        mem_sortedCandidates.mpr ⟨hi, rfl⟩
      rw [hsorted] at hmem
      exact List.not_mem_nil hmem
    rw [sortedCandidates] at hsorted
    rw [hsorted]
    refine ⟨[], rfl, by simpa using hnone, Nat.zero_le _, List.nodup_nil, by simp, ?_⟩
    have hbest (j : ℕ) : ¬ pm.BestEligible peerBitfield j := fun hj => hnone j hj.1
    cases sequential <;> simp [LowestFirst, RarestFirst, hbest]
  | cons best rest =>
    have hlist := hsorted
    rw [sortedCandidates] at hlist
    rw [hlist]
    cases sequential with
    | true =>
      refine ⟨_, ?_, selects_firstTen hsorted (beq_self_eq_true best.prio)
        (fun c hc => eq_of_beq hc) (lowestFirst_firstTen hsorted)⟩
      rw [firstTen, hsorted]
      rfl
    | false =>
      have hbest := mem_sortedCandidates.mp
        (hsorted ▸ List.mem_cons_self : best ∈ pm.sortedCandidates peerBitfield false)
      have hroom : best.avail + 2 < 2 ^ 32 := by
        have hlt : best.index < pm.pieceAvailability.length := hpm.availability ▸ hbest.1.1
        have hmem : pm.availabilityOf best.index ∈ pm.pieceAvailability := by
          rw [availabilityOf, List.getD_eq_getElem?_getD, List.getElem?_eq_getElem hlt]
          exact List.getElem_mem hlt
        have heq : best.avail = pm.availabilityOf best.index :=
          congrArg Candidate.avail hbest.2
        rw [heq]
        exact Nat.add_lt_of_lt_sub (havail _ hmem)
      refine ⟨_, ?_, selects_firstTen hsorted (by simp) (fun c hc => ?_)
        (rarestFirst_firstTen hsorted)⟩
      · rw [firstTen, hsorted]
        show (b.add 32 best.avail 2 >>= _) = _
        rw [Build.add_of_lt b hroom]
        rfl
      · exact eq_of_beq (Bool.and_eq_true_iff.mp hc).1

/-- Four pieces, of which we have the first and want the others. -/
def fourPieces : PieceManager :=
  { new 4 16 64 [] with
    have_ := [true, false, false, false]
    pieceAvailability := [1, 3, 2, 1]
    piecePriorities := [.high, .high, .high, .normal] }

theorem selects_fourPieces :
    ∃ pieces, fourPieces.selectPiece .debug [0xF0] false = .ok pieces ∧
      fourPieces.Selects [0xF0] false pieces :=
  selectPiece_selects ⟨rfl, rfl, rfl⟩ (by decide) [0xF0] false

end PieceManager

end Retorrent

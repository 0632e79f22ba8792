import Retorrent.Peer.DictEnd

/-!
# The scan for the end of a dictionary

In a release build the cursor of `find_dict_end` moves on in every round unless a length near
`2 ^ 64` leads it back, and then the scan may never end. On what the parser reads, the scan
agrees with it as long as there are no lists and no signs before lengths.
-/

namespace Retorrent

open Rust

variable {b : Build} {data : List UInt8} {i j : ℕ} {depth deeper : ℤ}

/-- Where a digit stands, what parses is a length. -/
theorem lengthAt_of_parse {c : UInt8} {s : Str} {n : ℕ} (hc : data[i]? = some c)
    (hdigit : Num.isDigit c = true)
    (hs : Str.fromUtf8 ((data.drop i).take (indexOfFrom data 0x3A i - i)) = .ok s)
    (hn : Num.parseUnsigned (2 ^ 64 - 1) s.bytes = .ok n) : LengthAt data i s.bytes n := by
  have htext := Str.fromUtf8_eq_ok.mp hs
  obtain ⟨hnumeral, hle⟩ := Num.parseUnsigned_eq_ok.mp hn
  refine ⟨htext.symm, ?_, by omega⟩
  have hoccurs : Occurs data i s.bytes := htext ▸ .of_take
  obtain ⟨x, rest, hcons⟩ := List.exists_cons_of_ne_nil hnumeral.ne_nil
  rw [hcons] at hoccurs hnumeral ⊢
  obtain rfl := Option.some.inj (hc.symm.trans (Occurs.cons_iff.mp hoccurs).1)
  rcases Num.unsignedNumeral_cons.mp hnumeral with ⟨rfl, _⟩ | ⟨_, hdigits⟩
  · exact absurd hdigit (by decide)
  · exact hdigits

/-- All that a round that is not the last can do. -/
theorem findDictEndRound_eq_next :
    findDictEndRound b data i depth = .ok (.next j deeper) ↔
      data[i]? = some 0x64 ∧ b.addI32 depth 1 = (.ok deeper : Res ℤ) ∧ j = i + 1 ∨
      data[i]? = some 0x65 ∧ b.subI32 depth 1 = (.ok deeper : Res ℤ) ∧ deeper ≠ 0 ∧ j = i + 1 ∨
      data[i]? = some 0x69 ∧ deeper = depth ∧ j = indexOfFrom data 0x65 i + 1 ∨
      ∃ num n, LengthAt data i num n ∧ deeper = depth ∧
        (do
          let skip ← b.addUsize 1 n
          b.addUsize (i + num.length) skip) = (.ok j : Res ℕ) := by
  constructor
  · intro h
    rw [findDictEndRound] at h
    split at h
    · simp at h
    next c hc =>
    split at h
    · next hopen =>
      obtain ⟨inner, hinner, h⟩ := Outcome.bind_eq_ok.mp h
      obtain ⟨rfl, rfl⟩ := ScanRound.next.inj (Outcome.ok.inj h)
      exact .inl ⟨hopen ▸ hc, hinner, rfl⟩
    split at h
    · next hclose =>
      obtain ⟨outer, houter, h⟩ := Outcome.bind_eq_ok.mp h
      split at h
      · simp at h
      · next hzero =>
        obtain ⟨rfl, rfl⟩ := ScanRound.next.inj (Outcome.ok.inj h)
        exact .inr (.inl ⟨hclose ▸ hc, houter, hzero, rfl⟩)
    split at h
    · next hint =>
      obtain ⟨rfl, rfl⟩ := ScanRound.next.inj (Outcome.ok.inj h)
      exact .inr (.inr (.inl ⟨hint ▸ hc, rfl, rfl⟩))
    split at h
    · next hdigit =>
      simp only at h
      split at h
      · simp at h
      next s hs =>
      split at h
      · simp at h
      next n hn =>
      obtain ⟨skip, hskip, h⟩ := Outcome.bind_eq_ok.mp h
      obtain ⟨next, hnext, h⟩ := Outcome.bind_eq_ok.mp h
      obtain ⟨rfl, rfl⟩ := ScanRound.next.inj (Outcome.ok.inj h)
      have hlength := lengthAt_of_parse hc hdigit hs hn
      rw [hlength.index_eq] at hnext
      exact .inr (.inr (.inr ⟨s.bytes, n, hlength, rfl, by rw [hskip, Outcome.ok_bind, hnext]⟩))
    · simp at h
  · rintro (⟨hc, hinner, rfl⟩ | ⟨hc, houter, hzero, rfl⟩ | ⟨hc, rfl, rfl⟩ |
      ⟨num, n, hlength, rfl, hj⟩)
    · rw [findDictEndRound, hc]
      simp only [if_true, hinner]
      rfl
    · rw [findDictEndRound, hc]
      simp only [show (0x65 : UInt8) ≠ 0x64 by decide, if_false, if_true, houter, Outcome.ok_bind,
        if_neg hzero]
      rfl
    · rw [findDictEndRound, hc]
      rfl
    · rw [findDictEndRound_length hlength]
      obtain ⟨skip, hskip, hj⟩ := Outcome.bind_eq_ok.mp hj
      rw [hskip, Outcome.ok_bind, hj]
      rfl

/-- In a release build no round panics. -/
theorem exists_findDictEndRound (data : List UInt8) (i : ℕ) (depth : ℤ) :
    ∃ round, findDictEndRound .release data i depth = .ok round := by
  have hsigned (cause : Panic) (x : ℤ) :
      ∃ y, (Build.release.signed 32 cause x : Res ℤ) = .ok y := by
    rw [Build.signed]
    split
    · exact ⟨_, rfl⟩
    · exact ⟨_, rfl⟩
  have hadd (x y : ℕ) : ∃ z, (Build.release.addUsize x y : Res ℕ) = .ok z := by
    rw [Build.addUsize, Build.add]
    split
    · exact ⟨_, rfl⟩
    · exact ⟨_, rfl⟩
  rw [findDictEndRound]
  split
  · exact ⟨_, rfl⟩
  split
  · obtain ⟨inner, hinner⟩ := hsigned .addOverflow (depth + 1)
    exact ⟨_, by rw [Build.addI32, hinner]; rfl⟩
  split
  · obtain ⟨outer, houter⟩ := hsigned .subOverflow (depth - 1)
    exact ⟨_, by rw [Build.subI32, houter]; rfl⟩
  split
  · exact ⟨_, rfl⟩
  split
  · simp only
    split
    · exact ⟨_, rfl⟩
    split
    · exact ⟨_, rfl⟩
    next n hn =>
    obtain ⟨skip, hskip⟩ := hadd 1 n
    obtain ⟨next, hnext⟩ := hadd (indexOfFrom data 0x3A i) skip
    exact ⟨_, by rw [hskip, Outcome.ok_bind, hnext]; rfl⟩
  · exact ⟨_, rfl⟩

section Release

/-- What the loop of `find_dict_end` comes to, round after round, in a release build. -/
inductive Scanned (data : List UInt8) : ℕ → ℤ → Prop where
  | start : data.head? = some 0x64 → Scanned data 0 0
  | next {i j : ℕ} {depth deeper : ℤ} : Scanned data i depth →
      findDictEndRound .release data i depth = .ok (.next j deeper) → Scanned data j deeper

/-- The cursor strictly increases at every round of the loop. -/
def CursorAdvances (data : List UInt8) : Prop :=
  ∀ i depth j deeper, Scanned data i depth →
    findDictEndRound .release data i depth = .ok (.next j deeper) → i < j

/-- No addition to the cursor wraps: a length leads to where its string ends. -/
def CursorExact (data : List UInt8) : Prop :=
  ∀ i depth num n, Scanned data i depth → LengthAt data i num n →
    findDictEndRound .release data i depth = .ok (.next (i + num.length + 1 + n) depth)

/-- A token of the message stands at a position, with the depth of the dictionaries around it as
an `i32`: the tokens from the first byte on, until the dictionary ends. -/
inductive TokenAt (data : List UInt8) : ℕ → ℤ → Prop where
  | start : data.head? = some 0x64 → TokenAt data 0 0
  | opening {i : ℕ} {depth : ℤ} : TokenAt data i depth → data[i]? = some 0x64 →
      TokenAt data (i + 1) ((depth + 1).bmod (2 ^ 32))
  | closing {i : ℕ} {depth : ℤ} : TokenAt data i depth → data[i]? = some 0x65 →
      (depth - 1).bmod (2 ^ 32) ≠ 0 → TokenAt data (i + 1) ((depth - 1).bmod (2 ^ 32))
  | integer {i : ℕ} {depth : ℤ} : TokenAt data i depth → data[i]? = some 0x69 →
      TokenAt data (indexOfFrom data 0x65 i + 1) depth
  | text {i n : ℕ} {depth : ℤ} {num : List UInt8} : TokenAt data i depth →
      LengthAt data i num n → TokenAt data ((i + num.length + 1 + n) % 2 ^ 64) depth

/-- No length of `k` digits before the end of the dictionary is from `2 ^ 64 - i - k - 1` up to
`2 ^ 64 - k - 1`, where `i` is where it stands. -/
def NoLengthLeadsBack (data : List UInt8) : Prop :=
  ∀ i depth num n, TokenAt data i depth → LengthAt data i num n →
    ¬ (2 ^ 64 ≤ i + num.length + 1 + n ∧ num.length + 1 + n ≤ 2 ^ 64)

/-- Every length before the end of the dictionary leads to a position below `2 ^ 64`. -/
def LengthsFit (data : List UInt8) : Prop :=
  ∀ i depth num n, TokenAt data i depth → LengthAt data i num n →
    i + num.length + 1 + n < 2 ^ 64

theorem signed_release (cause : Panic) {x : ℤ} :
    (Build.release.signed 32 cause x : Res ℤ) = .ok (x.bmod (2 ^ 32)) := by
  rw [Build.signed]
  split
  · next hrange => rw [Int.bmod_eq_of_le (by omega) (by omega)]
  · rfl

theorem cursor_release (colon n : ℕ) :
    (do
      let skip ← Build.release.addUsize 1 n
      Build.release.addUsize colon skip) = (.ok ((colon + 1 + n) % 2 ^ 64) : Res ℕ) := by
  have hadd (x y : ℕ) : (Build.release.addUsize x y : Res ℕ) = .ok ((x + y) % 2 ^ 64) := by
    rw [Build.addUsize, Build.add]
    split
    · next hlt => rw [Nat.mod_eq_of_lt hlt]
    · rfl
  rw [hadd, Outcome.ok_bind, hadd, Nat.add_mod_mod, Nat.add_assoc]

variable {num : List UInt8} {n : ℕ}

/-- Where a length leads in a release build. -/
theorem findDictEndRound_release (h : LengthAt data i num n) :
    findDictEndRound .release data i depth =
      .ok (.next ((i + num.length + 1 + n) % 2 ^ 64) depth) :=
  findDictEndRound_eq_next.mpr
    (.inr (.inr (.inr ⟨num, n, h, rfl, cursor_release _ _⟩)))

/-- The loop comes to the tokens. -/
theorem scanned_iff : Scanned data i depth ↔ TokenAt data i depth := by
  constructor
  · intro h
    induction h with
    | start h => exact .start h
    | next _ hround ih =>
      obtain ⟨hc, hinner, rfl⟩ | ⟨hc, houter, hzero, rfl⟩ | ⟨hc, rfl, rfl⟩ |
        ⟨num, n, hlength, rfl, hj⟩ := findDictEndRound_eq_next.mp hround
      · rw [Build.addI32, signed_release] at hinner
        obtain rfl := Outcome.ok.inj hinner
        exact ih.opening hc
      · rw [Build.subI32, signed_release] at houter
        obtain rfl := Outcome.ok.inj houter
        exact ih.closing hc hzero
      · exact ih.integer hc
      · rw [cursor_release] at hj
        obtain rfl := Outcome.ok.inj hj
        exact ih.text hlength
  · intro h
    induction h with
    | start h => exact .start h
    | opening _ hc ih =>
      exact ih.next (findDictEndRound_eq_next.mpr (.inl ⟨hc, signed_release _, rfl⟩))
    | closing _ hc hzero ih =>
      exact ih.next (findDictEndRound_eq_next.mpr (.inr (.inl ⟨hc, signed_release _, hzero, rfl⟩)))
    | integer _ hc ih =>
      exact ih.next (findDictEndRound_eq_next.mpr (.inr (.inr (.inl ⟨hc, rfl, rfl⟩))))
    | text _ hlength ih => exact ih.next (findDictEndRound_release hlength)

theorem cursorAdvances_iff (hlen : data.length < 2 ^ 63) :
    CursorAdvances data ↔ NoLengthLeadsBack data := by
  constructor
  · intro h i depth num n htoken hlength
    have hle := hlength.occurs.add_le hlength.digits.1
    have hrange := hlength.range
    have hlt := h i depth _ _ (scanned_iff.mpr htoken) (findDictEndRound_release hlength)
    rintro ⟨hwrap, hback⟩
    rw [Nat.mod_eq_sub_mod hwrap, Nat.mod_eq_of_lt (by omega)] at hlt
    omega
  · intro h i depth j deeper hscanned hround
    obtain ⟨_, _, rfl⟩ | ⟨_, _, _, rfl⟩ | ⟨_, _, rfl⟩ | ⟨num, n, hlength, _⟩ :=
      findDictEndRound_eq_next.mp hround
    · exact Nat.lt_succ_self i
    · exact Nat.lt_succ_self i
    · exact Nat.lt_succ_of_le (le_indexOfFrom data 0x65 i)
    · have hle := hlength.occurs.add_le hlength.digits.1
      have hrange := hlength.range
      have hpos := List.length_pos_iff.mpr hlength.digits.1
      have hnot := h i depth num n (scanned_iff.mp hscanned) hlength
      rw [findDictEndRound_release hlength] at hround
      obtain ⟨rfl, _⟩ := ScanRound.next.inj (Outcome.ok.inj hround)
      by_cases hwrap : 2 ^ 64 ≤ i + num.length + 1 + n
      · rw [Nat.mod_eq_sub_mod hwrap, Nat.mod_eq_of_lt (by omega)]
        omega
      · rw [Nat.mod_eq_of_lt (by omega)]
        omega

theorem cursorExact_iff : CursorExact data ↔ LengthsFit data := by
  constructor
  · intro h i depth num n htoken hlength
    have hround := h i depth num n (scanned_iff.mpr htoken) hlength
    rw [findDictEndRound_release hlength] at hround
    have heq := (ScanRound.next.inj (Outcome.ok.inj hround)).1
    exact heq ▸ Nat.mod_lt _ (by decide)
  · intro h i depth num n hscanned hlength
    have hfit := h i depth num n (scanned_iff.mp hscanned) hlength
    rw [findDictEndRound_release hlength, Nat.mod_eq_of_lt hfit]

/-- A cursor that advances comes to an end within as many rounds as there are bytes. -/
theorem findDictEndLoop_returns (h : CursorAdvances data) {fuel : ℕ}
    (hscanned : Scanned data i depth) (hfuel : data.length - i + 1 ≤ fuel) :
    ∃ result, findDictEndLoop .release data fuel i depth = .ok result := by
  induction fuel generalizing i depth with
  | zero => omega
  | succ fuel ih =>
    obtain ⟨round, hround⟩ := exists_findDictEndRound data i depth
    cases round with
    | stop result => exact ⟨result, findDictEndLoop_stop hround⟩
    | next j deeper =>
      rw [findDictEndLoop_next hround]
      have hlt := h i depth j deeper hscanned hround
      by_cases hend : i < data.length
      · exact ih (hscanned.next hround) (by omega)
      · rw [findDictEndRound, List.getElem?_eq_none (Nat.not_lt.mp hend)] at hround
        simp at hround

theorem findDictEnd_returns (h : CursorAdvances data) :
    ∃ result, findDictEnd .release data = .ok result := by
  rw [findDictEnd]
  split
  · next hhead => exact findDictEndLoop_returns h (.start hhead) (by omega)
  · exact ⟨_, rfl⟩

/-- `find_dict_end` returns, with a cursor that increases at every round, exactly on the messages
in which no length leads back; and no addition to the cursor wraps exactly when all lengths
fit. -/
theorem findDictEnd_advances_iff (data : Bytes) :
    (((∃ result, findDictEnd .release data.bytes = .ok result) ∧ CursorAdvances data.bytes) ↔
      NoLengthLeadsBack data.bytes) ∧
    (((∃ result, findDictEnd .release data.bytes = .ok result) ∧ CursorAdvances data.bytes ∧
      CursorExact data.bytes) ↔ LengthsFit data.bytes) := by
  have hadvances := cursorAdvances_iff data.length_lt
  refine ⟨⟨fun h => hadvances.mp h.2, fun h => ?_⟩, fun h => cursorExact_iff.mp h.2.2,
    fun h => ?_⟩
  · have hcursor := hadvances.mpr h
    exact ⟨findDictEnd_returns hcursor, hcursor⟩
  · have hback : NoLengthLeadsBack data.bytes := by
      intro i depth num n htoken hlength hcon
      exact absurd (h i depth num n htoken hlength) (Nat.not_lt.mpr hcon.1)
    have hcursor := hadvances.mpr hback
    exact ⟨findDictEnd_returns hcursor, hcursor, cursorExact_iff.mpr h⟩

/-- A length that leads back to where it stands keeps the scan there. -/
theorem findDictEnd_stuck : ¬ ∀ data : Bytes,
    (∃ result, findDictEnd .release data.bytes = .ok result) ∧ CursorAdvances data.bytes := by
  intro h
  obtain ⟨⟨result, hresult⟩, _⟩ := h ⟨Str.asciiBytes "d18446744073709551595:", by decide⟩
  have hstay : findDictEndRound .release (Str.asciiBytes "d18446744073709551595:") 1 1 =
      .ok (.next 1 1) := by decide +kernel
  have hloop (fuel : ℕ) :
      findDictEndLoop .release (Str.asciiBytes "d18446744073709551595:") fuel 1 1 = .hang := by
    induction fuel with
    | zero => rfl
    | succ fuel ih => rw [findDictEndLoop_next hstay, ih]
  have hopen : findDictEndRound .release (Str.asciiBytes "d18446744073709551595:") 0 0 =
      .ok (.next 1 1) := by decide +kernel
  rw [findDictEnd, if_pos (by decide), findDictEndLoop_next hopen, hloop] at hresult
  simp at hresult

end Release

section Parser

/-- What a piece of text is: a value, or the entries of a dictionary. -/
inductive Part where
  | value
  | entries

/-- Text without lists, in which every length is written in digits only. -/
inductive Plain : ℕ → Part → List UInt8 → Prop where
  | integer {d : ℕ} {num : List UInt8} {n : ℤ} : Num.SignedNumeral num n →
      Plain d .value (0x69 :: (num ++ [0x65]))
  | text {d : ℕ} {num body : List UInt8} : Num.Digits num body.length →
      Plain d .value (num ++ 0x3A :: body)
  | dict {d : ℕ} {s : List UInt8} : d ≤ maxParseDepth → Plain (d + 1) .entries s →
      Plain d .value (0x64 :: (s ++ [0x65]))
  | noEntries {d : ℕ} : Plain d .entries []
  | entry {d : ℕ} {num key s t : List UInt8} : Num.Digits num key.length → Plain d .value s →
      Plain d .entries t → Plain d .entries (num ++ 0x3A :: key ++ (s ++ t))

/-- The scan steps over `s`, a round a byte at most. -/
def StepsOver (b : Build) (data : List UInt8) (d : ℕ) (s : List UInt8) : Prop :=
  ∀ i, Occurs data i s → ∃ rounds ≤ s.length, ∀ fuel,
    findDictEndLoop b data (fuel + rounds) i d = findDictEndLoop b data fuel (i + s.length) d

/-- The scan gives up within `s`. -/
def GivesUp (b : Build) (data : List UInt8) (d : ℕ) (s : List UInt8) : Prop :=
  ∀ i, Occurs data i s → ∃ rounds ≤ s.length, ∀ fuel,
    findDictEndLoop b data (fuel + rounds) i d = .ok none

variable {d : ℕ} {s t : List UInt8}

theorem StepsOver.append (hs : StepsOver b data d s) (ht : StepsOver b data d t) :
    StepsOver b data d (s ++ t) := by
  intro i h
  obtain ⟨hfront, hback⟩ := Occurs.append_iff.mp h
  obtain ⟨m, hm, hfirst⟩ := hs i hfront
  obtain ⟨n, hn, hsecond⟩ := ht _ hback
  refine ⟨n + m, ?_, ?_⟩
  · rw [List.length_append]
    omega
  · intro fuel
    rw [← Nat.add_assoc, hfirst, hsecond, List.length_append, Nat.add_assoc]

theorem StepsOver.givesUp (hs : StepsOver b data d s) (ht : GivesUp b data d t) :
    GivesUp b data d (s ++ t) := by
  intro i h
  obtain ⟨hfront, hback⟩ := Occurs.append_iff.mp h
  obtain ⟨m, hm, hfirst⟩ := hs i hfront
  obtain ⟨n, hn, hsecond⟩ := ht _ hback
  refine ⟨n + m, ?_, ?_⟩
  · rw [List.length_append]
    omega
  · intro fuel
    rw [← Nat.add_assoc, hfirst, hsecond]

theorem GivesUp.append (hs : GivesUp b data d s) (t : List UInt8) : GivesUp b data d (s ++ t) := by
  intro i h
  obtain ⟨m, hm, hfirst⟩ := hs i (Occurs.append_iff.mp h).1
  refine ⟨m, hm.trans ?_, hfirst⟩
  rw [List.length_append]
  exact Nat.le_add_right _ _

/-- A byte that starts no token of the scan ends it. -/
theorem givesUp_cons {c : UInt8} (hc : c = 0x6C ∨ c = 0x2B) : GivesUp b data d (c :: s) := by
  intro i h
  refine ⟨1, Nat.le_add_left _ _, fun fuel => findDictEndLoop_stop ?_⟩
  rw [findDictEndRound, (Occurs.cons_iff.mp h).1]
  rcases hc with rfl | rfl
  · rfl
  · rfl

theorem stepsOver_text (hlen : data.length < 2 ^ 63) {num body : List UInt8}
    (hdigits : Num.Digits num body.length) : StepsOver b data d (num ++ 0x3A :: body) := by
  intro i h
  have hle := h.length_le
  have hpos := List.length_pos_iff.mpr hdigits.1
  rw [List.length_append, List.length_cons] at hle
  have hprefix : LengthPrefix data i num body.length := by
    refine ⟨⟨num, hdigits, .inl rfl⟩, by omega, ?_⟩
    rw [List.append_cons] at h
    exact (Occurs.append_iff.mp h).1
  refine ⟨1, by rw [List.length_append]; omega, fun fuel => ?_⟩
  rw [findDictEndLoop_next (findDictEndRound_text hdigits hprefix (by omega)), List.length_append,
    List.length_cons, Nat.add_assoc, Nat.add_assoc, Nat.add_comm 1]

theorem stepsOver_integer {num : List UInt8} {n : ℤ} (hnum : Num.SignedNumeral num n) :
    StepsOver b data d (0x69 :: (num ++ [0x65])) := by
  intro i h
  have hend := not_mem_of_signedNumeral hnum (c := 0x65) (by decide) (by decide) (by decide)
  refine ⟨1, Nat.le_add_left _ _, fun fuel => ?_⟩
  rw [findDictEndLoop_next (findDictEndRound_integer h hend), List.length_cons, List.length_append]
  rfl

/-- A dictionary is opened, and at its end the depth is what it was. -/
theorem findDictEndLoop_open (hd : d ≤ maxParseDepth) (h : data[i]? = some 0x64) (fuel : ℕ) :
    findDictEndLoop b data (fuel + 1) i d = findDictEndLoop b data fuel (i + 1) (d + 1 : ℕ) := by
  have hd' : d ≤ 128 := hd
  exact findDictEndLoop_next (findDictEndRound_open h (by omega) (by omega))

theorem stepsOver_dict (hd : d ≤ maxParseDepth) (hpos : 0 < d)
    (h : StepsOver b data (d + 1) s) : StepsOver b data d (0x64 :: (s ++ [0x65])) := by
  intro i hoccurs
  have hd' : d ≤ 128 := hd
  obtain ⟨hhead, hrest⟩ := Occurs.cons_iff.mp hoccurs
  obtain ⟨hbody, hlast⟩ := Occurs.append_iff.mp hrest
  obtain ⟨m, hm, hsteps⟩ := h _ hbody
  have hclose : findDictEndRound b data (i + 1 + s.length) (d + 1 : ℕ) =
      .ok (.next (i + 1 + s.length + 1) d) := by
    refine (findDictEndRound_close (Occurs.cons_iff.mp hlast).1 (by omega) (by omega)).trans ?_
    rw [if_neg (by omega)]
    congr 2
    omega
  refine ⟨1 + m + 1, by simp only [List.length_cons, List.length_append]; omega, fun fuel => ?_⟩
  rw [← Nat.add_assoc, findDictEndLoop_open hd hhead, ← Nat.add_assoc, hsteps,
    findDictEndLoop_next hclose]
  congr 1
  simp only [List.length_cons, List.length_append, List.length_nil]
  omega

theorem givesUp_dict (hd : d ≤ maxParseDepth) (h : GivesUp b data (d + 1) s) :
    GivesUp b data d (0x64 :: (s ++ [0x65])) := by
  intro i hoccurs
  obtain ⟨hhead, hrest⟩ := Occurs.cons_iff.mp hoccurs
  obtain ⟨m, hm, hsteps⟩ := h _ (Occurs.append_iff.mp hrest).1
  refine ⟨m + 1, by simp only [List.length_cons, List.length_append]; omega, fun fuel => ?_⟩
  rw [← Nat.add_assoc, findDictEndLoop_open hd hhead, hsteps]

/-- Plain text is stepped over. -/
theorem Plain.stepsOver (hlen : data.length < 2 ^ 63) {part : Part} (h : Plain d part s)
    (hpos : 0 < d) : StepsOver b data d s := by
  induction h with
  | integer hnum => exact stepsOver_integer hnum
  | text hdigits => exact stepsOver_text hlen hdigits
  | dict hd _ ih => exact stepsOver_dict hd hpos (ih (Nat.succ_pos _))
  | noEntries => exact fun i _ => ⟨0, le_rfl, fun _ => rfl⟩
  | entry hdigits _ _ ihs iht =>
    exact (stepsOver_text hlen hdigits).append ((ihs hpos).append (iht hpos))

/-- What the parser reads as a part of a dictionary is plain, or the scan gives up on it. -/
def PlainOrNot (b : Build) (data : List UInt8) (d : ℕ) (s : List UInt8) : Node → Prop
  | .value _ => Plain d .value s ∨ GivesUp b data d s
  | .items _ => True
  | .entries _ => Plain d .entries s ∨ GivesUp b data d s

theorem plainOrNot (hlen : data.length < 2 ^ 63) {n : Node} (h : Spells .lenient d n s)
    (hpos : 0 < d) : PlainOrNot b data d s n := by
  -- over the rules of the grammar; a list stops the scan at its first byte
  induction h with
  | integer _ hnum _ _ => exact .inl (.integer hnum.1)
  | @byteString _ c _ _ _ hc htext =>
    obtain ⟨num, ⟨digits, hdigits, rfl | rfl⟩, _, heq⟩ := htext
    · rw [heq]
      exact .inl (.text hdigits)
    · obtain ⟨rfl, _⟩ := List.cons.inj heq
      exact absurd hc (by decide)
  | list => exact .inr (givesUp_cons (.inl rfl))
  | dict hd _ _ ih =>
    rcases ih (Nat.succ_pos _) with hplain | hgives
    · exact .inl (.dict hd hplain)
    · exact .inr (givesUp_dict hd hgives)
  | noItems => trivial
  | item => trivial
  | noEntries => exact .inl .noEntries
  | @entry d key v es k s t htext _ _ ihs iht =>
    obtain ⟨num, ⟨digits, hdigits, rfl | rfl⟩, _, rfl⟩ := htext
    · have hkey := stepsOver_text (b := b) (d := d) hlen hdigits
      rcases ihs hpos with hvalue | hvalue
      · rcases iht hpos with hrest | hrest
        · exact .inl (.entry hdigits hvalue hrest)
        · exact .inr (hkey.givesUp ((hvalue.stepsOver hlen hpos).givesUp hrest))
      · exact .inr (hkey.givesUp (hvalue.append _))
    · exact .inr (givesUp_cons (.inr rfl))

/-- The rounds over a dictionary that starts the data. -/
theorem findDictEnd_eq (hoccurs : Occurs data 0 (0x64 :: (s ++ [0x65]))) {rounds : ℕ}
    (hrounds : rounds ≤ s.length + 1) : ∃ fuel,
      findDictEnd b data = findDictEndLoop b data (fuel + 1 + rounds) 1 (1 : ℕ) := by
  have hle := hoccurs.length_le
  simp only [List.length_cons, List.length_append, List.length_nil] at hle
  have hhead := (Occurs.cons_iff.mp hoccurs).1
  refine ⟨data.length * 2 ^ 32 - (rounds + 1), ?_⟩
  have hfuel : data.length * 2 ^ 32 + 1 =
      data.length * 2 ^ 32 - (rounds + 1) + 1 + rounds + 1 := by omega
  rw [findDictEnd, if_pos (by rw [List.head?_eq_getElem?, hhead]), hfuel]
  exact findDictEndLoop_open (Nat.zero_le _) hhead _

theorem findDictEnd_of_stepsOver (hoccurs : Occurs data 0 (0x64 :: (s ++ [0x65])))
    (h : StepsOver b data 1 s) :
    findDictEnd b data = .ok (some (0x64 :: (s ++ [0x65])).length) := by
  obtain ⟨hbody, hlast⟩ := Occurs.append_iff.mp (Occurs.cons_iff.mp hoccurs).2
  obtain ⟨rounds, hrounds, hsteps⟩ := h _ hbody
  obtain ⟨fuel, hfuel⟩ := findDictEnd_eq (b := b) hoccurs (hrounds.trans (Nat.le_succ _))
  rw [hfuel, hsteps]
  refine (findDictEndLoop_stop (findDictEndRound_close (Occurs.cons_iff.mp hlast).1
    (by decide) (by decide))).trans ?_
  simp only [List.length_cons, List.length_append, List.length_nil]
  congr 2
  omega

theorem findDictEnd_of_givesUp (hoccurs : Occurs data 0 (0x64 :: (s ++ [0x65])))
    (h : GivesUp b data 1 s) : findDictEnd b data = .ok none := by
  obtain ⟨rounds, hrounds, hsteps⟩ := h _ (Occurs.append_iff.mp (Occurs.cons_iff.mp hoccurs).2).1
  obtain ⟨fuel, hfuel⟩ := findDictEnd_eq (b := b) hoccurs (hrounds.trans (Nat.le_succ _))
  rw [hfuel, hsteps]

/-- Plain text that starts like a dictionary is one. -/
theorem Plain.of_dict (h : Plain d .value (0x64 :: t)) :
    ∃ s, t = s ++ [0x65] ∧ Plain (d + 1) .entries s := by
  generalize htext : 0x64 :: t = text at h
  generalize hpart : Part.value = part at h
  cases h with
  | integer => exact absurd (List.cons.inj htext).1 (by decide)
  | @text _ num body hdigits =>
    obtain ⟨c, rest, rfl⟩ := List.exists_cons_of_ne_nil hdigits.1
    obtain ⟨rfl, _⟩ := List.cons.inj htext
    exact absurd (hdigits.2.1 _ List.mem_cons_self) (by decide)
  | dict _ h => exact ⟨_, (List.cons.inj htext).2, h⟩
  | noEntries => simp at htext
  | entry => simp at hpart

section Header

variable {p : Bytes} {m : BTreeMap Str BencodeValue} {n : ℕ}

/-- What stands where the parser reads a dictionary. -/
theorem exists_dict_text (h : parseValue b p.bytes 0 0 = .ok (.dict m, n)) : ∃ es s,
    p.bytes.take n = 0x64 :: (s ++ [0x65]) ∧ n = (0x64 :: (s ++ [0x65])).length ∧
      Occurs p.bytes 0 (0x64 :: (s ++ [0x65])) ∧
      Spells .lenient 0 (.value (.dict m)) (0x64 :: (s ++ [0x65])) ∧
      Spells .lenient 1 (.entries es) s := by
  obtain ⟨text, hspells, hoccurs, hn⟩ := (parseValue_eq_ok p.length_lt).mp h
  rw [Nat.zero_add] at hn
  subst hn
  have hdict : ∃ es s, text = 0x64 :: (s ++ [0x65]) ∧ Spells .lenient 1 (.entries es) s := by
    generalize hv : BencodeValue.dict m = v at hspells
    cases hspells with
    | integer => simp at hv
    | byteString => simp at hv
    | list => simp at hv
    | dict _ _ hentries => exact ⟨_, _, rfl, hentries⟩
  obtain ⟨es, s, rfl, hentries⟩ := hdict
  exact ⟨es, s, hoccurs.take_eq, rfl, hoccurs, hspells, hentries⟩

/-- The scan finds the end of a plain dictionary. -/
theorem findDictEnd_of_plain (h : parseValue b p.bytes 0 0 = .ok (.dict m, n))
    (hplain : Plain 0 .value (p.bytes.take n)) : findDictEnd b p.bytes = .ok (some n) := by
  obtain ⟨es, s, htake, rfl, hoccurs, _, _⟩ := exists_dict_text h
  rw [htake] at hplain
  obtain ⟨s', hs', hentries⟩ := hplain.of_dict
  obtain rfl := List.append_cancel_right hs'
  exact findDictEnd_of_stepsOver hoccurs (hentries.stepsOver p.length_lt Nat.one_pos)

/-- It gives up on one that is not plain. -/
theorem findDictEnd_of_not_plain (h : parseValue b p.bytes 0 0 = .ok (.dict m, n))
    (hplain : ¬ Plain 0 .value (p.bytes.take n)) : findDictEnd b p.bytes = .ok none := by
  obtain ⟨es, s, htake, rfl, hoccurs, _, hspells⟩ := exists_dict_text h
  rw [htake] at hplain
  rcases plainOrNot (b := b) p.length_lt hspells Nat.one_pos with hentries | hgives
  · exact absurd (.dict (Nat.zero_le _) hentries) hplain
  · exact findDictEnd_of_givesUp hoccurs hgives

/-- A message with a plain header is read as the header and what stands behind it. -/
theorem parseMetadataMessage_of_plain (h : parseValue b p.bytes 0 0 = .ok (.dict m, n))
    (hplain : Plain 0 .value (p.bytes.take n)) :
    parseMetadataMessage b p = .ok (.ofDict m (p.bytes.drop n)) := by
  have hend := findDictEnd_of_plain h hplain
  obtain ⟨es, s, htake, rfl, hoccurs, hspells, _⟩ := exists_dict_text h
  have hwhole : 0x64 :: (s ++ [0x65]) <+: p.bytes.take (0x64 :: (s ++ [0x65])).length := by
    rw [htake]
  have hparse : parse b (upTo p (0x64 :: (s ++ [0x65])).length) = .ok (.dict m) :=
    parse_eq_ok.mpr ⟨_, hspells, hwhole⟩
  have htail : sliceFrom p.bytes (0x64 :: (s ++ [0x65])).length =
      (.ok (p.bytes.drop (0x64 :: (s ++ [0x65])).length) : Res _) :=
    sliceFrom_of_le hoccurs.length_le
  rw [parseMetadataMessage, hend, Outcome.ok_bind]
  simp only [htail, Outcome.ok_bind, hparse, BencodeValue.asDict]
  rfl

/-- Any other is turned away. -/
theorem parseMetadataMessage_of_not_plain (h : parseValue b p.bytes 0 0 = .ok (.dict m, n))
    (hplain : ¬ Plain 0 .value (p.bytes.take n)) :
    parseMetadataMessage b p = .ok .invalid := by
  rw [parseMetadataMessage, findDictEnd_of_not_plain h hplain]
  rfl

end Header

/-- Where the parser reads a dictionary, the scan finds its end exactly when the text is plain.
A message of this kind is split at the right byte. -/
theorem findDictEnd_iff_plain (b : Build) (p : Bytes) {m : BTreeMap Str BencodeValue} {n : ℕ}
    (h : parseValue b p.bytes 0 0 = .ok (.dict m, n)) :
    (findDictEnd b p.bytes = .ok (some n) ↔ Plain 0 .value (p.bytes.take n)) ∧
      (Plain 0 .value (p.bytes.take n) →
        parseMetadataMessage b p = .ok (.ofDict m (p.bytes.drop n))) := by
  refine ⟨⟨fun hend => ?_, findDictEnd_of_plain h⟩, parseMetadataMessage_of_plain h⟩
  by_contra hplain
  rw [findDictEnd_of_not_plain h hplain] at hend
  simp at hend

/-- A dictionary of one integer is split where it ends. -/
theorem findDictEnd_iff_plain_integer :
    (findDictEnd .release (Str.asciiBytes "d1:ai7eeX") = .ok (some 8) ↔
        Plain 0 .value ((Str.asciiBytes "d1:ai7eeX").take 8)) ∧
      (Plain 0 .value ((Str.asciiBytes "d1:ai7eeX").take 8) →
        parseMetadataMessage .release ⟨Str.asciiBytes "d1:ai7eeX", by decide⟩ =
          .ok (.ofDict [(.ascii "a", .integer 7)] (Str.asciiBytes "X"))) :=
  findDictEnd_iff_plain .release ⟨Str.asciiBytes "d1:ai7eeX", by decide⟩ rfl

/-- A list in the dictionary makes the scan give up. -/
theorem findDictEnd_list : ¬ ∀ (b : Build) (p : Bytes) (m : BTreeMap Str BencodeValue) (n : ℕ),
    parseValue b p.bytes 0 0 = .ok (.dict m, n) → findDictEnd b p.bytes = .ok (some n) := by
  intro h
  have hend := h .release ⟨Str.asciiBytes "d1:alee", by decide⟩ [(.ascii "a", .list [])] 7
    rfl
  exact absurd hend (by decide +kernel)

end Parser

end Retorrent

import Retorrent.Bencode.Correct

/-!
# Memory safety of the parser

The walk of the parser over its input, and the one way in which it panics: a
length prefix so large that the end of its string leaves the `usize` range.
-/

namespace Retorrent

open Rust

/-- A point at which one of the recursive functions takes up its work. -/
inductive Walk where
  | value (pos depth : ℕ)
  | items (cur depth : ℕ)
  | entries (cur depth : ℕ)

/-- `Reaches data w p`: continuing from `w`, a length prefix is read at `p`. -/
inductive Reaches (data : List UInt8) : Walk → ℕ → Prop where
  | text {pos depth : ℕ} {c : UInt8} : depth ≤ maxParseDepth → data[pos]? = some c →
      Num.isDigit c = true → Reaches data (.value pos depth) pos
  | list {pos depth p : ℕ} : depth ≤ maxParseDepth → data[pos]? = some 0x6C →
      Reaches data (.items (pos + 1) (depth + 1)) p → Reaches data (.value pos depth) p
  | dict {pos depth p : ℕ} : depth ≤ maxParseDepth → data[pos]? = some 0x64 →
      Reaches data (.entries (pos + 1) (depth + 1)) p → Reaches data (.value pos depth) p
  | item {cur depth p : ℕ} {c : UInt8} : data[cur]? = some c → c ≠ 0x65 →
      Reaches data (.value cur depth) p → Reaches data (.items cur depth) p
  | nextItem {cur depth p : ℕ} {v : BencodeValue} {s : List UInt8} :
      Spells .lenient depth (.value v) s → Occurs data cur s →
      Reaches data (.items (cur + s.length) depth) p → Reaches data (.items cur depth) p
  | key {cur depth : ℕ} {c : UInt8} : data[cur]? = some c → c ≠ 0x65 →
      Reaches data (.entries cur depth) cur
  | entryValue {cur depth p : ℕ} {k key : List UInt8} : Style.lenient.Text k key →
      Occurs data cur k → Reaches data (.value (cur + k.length) depth) p →
      Reaches data (.entries cur depth) p
  | nextEntry {cur depth p : ℕ} {k key s : List UInt8} {v : BencodeValue} :
      Style.lenient.Text k key → Occurs data cur k → Spells .lenient depth (.value v) s →
      Occurs data (cur + k.length) s →
      Reaches data (.entries (cur + k.length + s.length) depth) p →
      Reaches data (.entries cur depth) p

/-- No string on the way from `w` ends beyond the `usize` range. -/
def Free (data : List UInt8) (w : Walk) : Prop :=
  ∀ p, Reaches data w p → ¬ LengthOverflow data p

section Free

variable {data : List UInt8} {pos cur depth : ℕ} {c : UInt8}

theorem free_of_depth (h : maxParseDepth < depth) : Free data (.value pos depth) := by
  intro p hp
  cases hp with
  | text hd => omega
  | list hd => omega
  | dict hd => omega

theorem free_of_end (h : data[pos]? = none) : Free data (.value pos depth) := by
  intro p hp
  cases hp with
  | text _ hc => simp [h] at hc
  | list _ hc => simp [h] at hc
  | dict _ hc => simp [h] at hc

theorem free_text_iff (hd : depth ≤ maxParseDepth) (hc : data[pos]? = some c)
    (hdig : Num.isDigit c = true) :
    Free data (.value pos depth) ↔ ¬ LengthOverflow data pos := by
  constructor
  · intro h
    exact h pos (.text hd hc hdig)
  · intro h p hp
    cases hp with
    | text => exact h
    | list _ hl =>
      obtain rfl := Option.some.inj (hc.symm.trans hl)
      exact absurd hdig (by decide)
    | dict _ hl =>
      obtain rfl := Option.some.inj (hc.symm.trans hl)
      exact absurd hdig (by decide)

theorem free_list_iff (hd : depth ≤ maxParseDepth) (hc : data[pos]? = some 0x6C) :
    Free data (.value pos depth) ↔ Free data (.items (pos + 1) (depth + 1)) := by
  constructor
  · intro h p hp
    exact h p (.list hd hc hp)
  · intro h p hp
    cases hp with
    | text _ hl hdig =>
      obtain rfl := Option.some.inj (hc.symm.trans hl)
      exact absurd hdig (by decide)
    | list _ _ hp => exact h p hp
    | dict _ hl => exact absurd (hc.symm.trans hl) (by decide)

theorem free_dict_iff (hd : depth ≤ maxParseDepth) (hc : data[pos]? = some 0x64) :
    Free data (.value pos depth) ↔ Free data (.entries (pos + 1) (depth + 1)) := by
  constructor
  · intro h p hp
    exact h p (.dict hd hc hp)
  · intro h p hp
    cases hp with
    | text _ hl hdig =>
      obtain rfl := Option.some.inj (hc.symm.trans hl)
      exact absurd hdig (by decide)
    | list _ hl => exact absurd (hc.symm.trans hl) (by decide)
    | dict _ _ hp => exact h p hp

/-- Any other byte makes the parser stop before it reads a length. -/
theorem free_of_ne (hc : data[pos]? = some c) (hl : c ≠ 0x6C) (hdict : c ≠ 0x64)
    (hdig : ¬ Num.isDigit c = true) : Free data (.value pos depth) := by
  intro p hp
  cases hp with
  | text _ hc' hdig' =>
    obtain rfl := Option.some.inj (hc.symm.trans hc')
    exact absurd hdig' hdig
  | list _ hc' => exact absurd (Option.some.inj (hc.symm.trans hc')) hl
  | dict _ hc' => exact absurd (Option.some.inj (hc.symm.trans hc')) hdict

/-- A spelled value, a key and a string all begin before the closing byte. -/
theorem head_ne_end {s : List UInt8} (hs : ∃ c t, s = c :: t ∧ c ≠ 0x65)
    (hocc : Occurs data cur s) : ∃ c, data[cur]? = some c ∧ c ≠ 0x65 := by
  obtain ⟨c, t, rfl, hne⟩ := hs
  exact ⟨c, (Occurs.cons_iff.mp hocc).1, hne⟩

theorem free_items_of_end (h : ∀ c, data[cur]? = some c → c = 0x65) :
    Free data (.items cur depth) := by
  intro p hp
  cases hp with
  | item hc hne => exact absurd (h _ hc) hne
  | nextItem hs hocc =>
    obtain ⟨c, hc, hne⟩ := head_ne_end hs.head hocc
    exact absurd (h c hc) hne

theorem free_items_iff (hc : data[cur]? = some c) (hne : c ≠ 0x65) :
    Free data (.items cur depth) ↔ Free data (.value cur depth) ∧
      ∀ v s, Spells .lenient depth (.value v) s → Occurs data cur s →
        Free data (.items (cur + s.length) depth) := by
  constructor
  · intro h
    refine ⟨fun p hp => h p (.item hc hne hp), fun v s hs hocc p hp => ?_⟩
    exact h p (.nextItem hs hocc hp)
  · intro h p hp
    cases hp with
    | item _ _ hp => exact h.1 p hp
    | nextItem hs hocc hp => exact h.2 _ _ hs hocc p hp

theorem free_entries_of_end (h : ∀ c, data[cur]? = some c → c = 0x65) :
    Free data (.entries cur depth) := by
  intro p hp
  cases hp with
  | key hc hne => exact absurd (h _ hc) hne
  | entryValue hk hocc =>
    obtain ⟨c, hc, hne⟩ := head_ne_end hk.head hocc
    exact absurd (h c hc) hne
  | nextEntry hk hocc =>
    obtain ⟨c, hc, hne⟩ := head_ne_end hk.head hocc
    exact absurd (h c hc) hne

theorem free_entries_iff (hc : data[cur]? = some c) (hne : c ≠ 0x65) :
    Free data (.entries cur depth) ↔ ¬ LengthOverflow data cur ∧
      ∀ k key, Style.lenient.Text k key → Occurs data cur k →
        Free data (.value (cur + k.length) depth) ∧
        ∀ v s, Spells .lenient depth (.value v) s → Occurs data (cur + k.length) s →
          Free data (.entries (cur + k.length + s.length) depth) := by
  constructor
  · intro h
    refine ⟨h cur (.key hc hne), fun k key hk hocc => ⟨fun p hp => ?_, ?_⟩⟩
    · exact h p (.entryValue hk hocc hp)
    · intro v s hs hsocc p hp
      exact h p (.nextEntry hk hocc hs hsocc hp)
  · intro h p hp
    cases hp with
    | key => exact h.1
    | entryValue hk hocc hp => exact (h.2 _ _ hk hocc).1 p hp
    | nextEntry hk hocc hs hsocc hp => exact (h.2 _ _ hk hocc).2 _ _ hs hsocc p hp

end Free

variable {b : Build} {data : List UInt8}

/-- With fuel for the rest of the input, the value parser reads what is spelled. -/
theorem parseValueFuel_eq_ok (hlen : data.length < 2 ^ 63) {fuel pos depth next : ℕ}
    {v : BencodeValue} (hfuel : 3 * (data.length - pos) + 1 ≤ fuel) :
    parseValueFuel b data fuel pos depth = .ok (v, next) ↔
      ∃ s, Spells .lenient depth (.value v) s ∧ Occurs data pos s ∧ next = pos + s.length := by
  constructor
  · exact (sound b hlen fuel).value
  · intro h
    obtain ⟨s, hs, hocc, rfl⟩ := h
    have hle := hocc.length_le
    exact complete b hlen hs pos fuel hocc (by omega)

/-- With fuel for the rest of the input, each function returns exactly when its
part of the walk is free of overflowing lengths. -/
structure Returning (b : Build) (data : List UInt8) (fuel : ℕ) : Prop where
  value : ∀ {pos depth}, pos ≤ data.length → 3 * (data.length - pos) + 1 ≤ fuel →
    ((parseValueFuel b data fuel pos depth).Returns ↔ Free data (.value pos depth))
  list : ∀ {pos depth}, pos < data.length → 3 * (data.length - pos) ≤ fuel →
    ((parseList b data fuel pos depth).Returns ↔ Free data (.items (pos + 1) depth))
  items : ∀ {cur depth acc}, cur ≤ data.length → 3 * (data.length - cur) + 2 ≤ fuel →
    ((parseListLoop b data fuel cur depth acc).Returns ↔ Free data (.items cur depth))
  dict : ∀ {pos depth}, pos < data.length → 3 * (data.length - pos) ≤ fuel →
    ((parseDict b data fuel pos depth).Returns ↔ Free data (.entries (pos + 1) depth))
  entries : ∀ {cur depth map}, cur ≤ data.length → 3 * (data.length - cur) + 2 ≤ fuel →
    ((parseDictLoop b data fuel cur depth map).Returns ↔ Free data (.entries cur depth))

theorem returning_value (hlen : data.length < 2 ^ 63) {fuel : ℕ} (ih : Returning b data fuel)
    {pos depth : ℕ} (hfuel : 3 * (data.length - pos) ≤ fuel) :
    (parseValueFuel b data (fuel + 1) pos depth).Returns ↔ Free data (.value pos depth) := by
  rw [parseValueFuel]
  split
  · next hdepth => simpa using free_of_depth hdepth
  next hdepth =>
  have hd : depth ≤ maxParseDepth := Nat.le_of_not_lt hdepth
  have hd' : depth ≤ 128 := hd
  split
  · next hend => simpa using free_of_end hend
  next c hc =>
  have hpos := lt_length_of_getElem? hc
  split
  · next hi =>
    subst hi
    have hfree : Free data (.value pos depth) :=
      free_of_ne hc (by decide) (by decide) (by decide)
    exact iff_of_true (parseInteger_returns hlen hpos) hfree
  split
  · next hl =>
    subst hl
    rw [Build.addUsize_of_lt b (by omega), Outcome.ok_bind, ih.list hpos hfuel,
      free_list_iff hd hc]
  next hl =>
  split
  · next hdict =>
    subst hdict
    rw [Build.addUsize_of_lt b (by omega), Outcome.ok_bind, ih.dict hpos hfuel,
      free_dict_iff hd hc]
  next hdict =>
  split
  · next hdig => rw [parseByteString_returns hlen hpos.le, free_text_iff hd hc hdig]
  · next hdig => simpa using free_of_ne hc hl hdict hdig

theorem returning_items (hlen : data.length < 2 ^ 63) {fuel : ℕ} (ih : Returning b data fuel)
    {cur depth : ℕ} {acc : List BencodeValue}
    (hfuel : 3 * (data.length - cur) + 1 ≤ fuel) :
    (parseListLoop b data (fuel + 1) cur depth acc).Returns ↔
      Free data (.items cur depth) := by
  rw [parseListLoop]
  split
  · next hend =>
    have hfree : Free data (.items cur depth) :=
      free_items_of_end fun c hc => by simp [hend] at hc
    simpa using hfree
  next c hc =>
  have hcur := lt_length_of_getElem? hc
  split
  · next he =>
    have hfree : Free data (.items cur depth) :=
      free_items_of_end fun c' hc' => he ▸ Option.some.inj (hc'.symm.trans hc)
    rw [Build.addUsize_of_lt b (by omega)]
    simpa using hfree
  next hne =>
  rw [Outcome.bind_returns, ih.value hcur.le hfuel, free_items_iff hc hne]
  -- the list returns when its first item does and, behind it, the rest
  refine and_congr_right fun _ => ?_
  constructor
  · intro h v s hs hocc
    have hpos := hs.length_pos
    have hle := hocc.length_le
    have hv := (parseValueFuel_eq_ok (b := b) hlen hfuel).mpr ⟨s, hs, hocc, rfl⟩
    exact (ih.items (by omega) (by omega)).mp (h _ hv)
  · intro h r hr
    obtain ⟨v, next⟩ := r
    obtain ⟨s, hs, hocc, rfl⟩ := (parseValueFuel_eq_ok hlen hfuel).mp hr
    have hpos := hs.length_pos
    have hle := hocc.length_le
    exact (ih.items (by omega) (by omega)).mpr (h v s hs hocc)

theorem returning_entries (hlen : data.length < 2 ^ 63) {fuel : ℕ} (ih : Returning b data fuel)
    {cur depth : ℕ} {map : BTreeMap Str BencodeValue}
    (hfuel : 3 * (data.length - cur) + 1 ≤ fuel) :
    (parseDictLoop b data (fuel + 1) cur depth map).Returns ↔
      Free data (.entries cur depth) := by
  rw [parseDictLoop]
  split
  · next hend =>
    have hfree : Free data (.entries cur depth) :=
      free_entries_of_end fun c hc => by simp [hend] at hc
    simpa using hfree
  next c hc =>
  have hcur := lt_length_of_getElem? hc
  split
  · next he =>
    have hfree : Free data (.entries cur depth) :=
      free_entries_of_end fun c' hc' => he ▸ Option.some.inj (hc'.symm.trans hc)
    rw [Build.addUsize_of_lt b (by omega)]
    simpa using hfree
  next hne =>
  rw [Outcome.bind_returns, parseByteString_returns hlen hcur.le, free_entries_iff hc hne]
  refine and_congr_right fun _ => ?_
  constructor
  · intro h k key hk hocc
    have hkpos := hk.length_pos
    have hkle := hocc.length_le
    have hkv := (parseByteString_eq_ok (b := b) hlen hcur.le).mpr ⟨k, key, hk, hocc, rfl, rfl⟩
    have hrest := h _ hkv
    simp only [Outcome.bind_returns] at hrest
    -- a key takes at least one byte
    have hfuel' : 3 * (data.length - (cur + k.length)) + 1 ≤ fuel := by omega
    refine ⟨(ih.value (by omega) hfuel').mp hrest.1, fun v s hs hsocc => ?_⟩
    have hpos := hs.length_pos
    have hle := hsocc.length_le
    have hv := (parseValueFuel_eq_ok (b := b) hlen hfuel').mpr ⟨s, hs, hsocc, rfl⟩
    exact (ih.entries (by omega) (by omega)).mp (hrest.2 _ hv)
  · intro h r hr
    obtain ⟨kv, mid⟩ := r
    obtain ⟨k, key, hk, hocc, rfl, rfl⟩ := (parseByteString_eq_ok hlen hcur.le).mp hr
    have hkpos := hk.length_pos
    have hkle := hocc.length_le
    have hfuel' : 3 * (data.length - (cur + k.length)) + 1 ≤ fuel := by omega
    simp only [Outcome.bind_returns]
    refine ⟨(ih.value (by omega) hfuel').mpr (h k key hk hocc).1, fun r hr => ?_⟩
    obtain ⟨v, next⟩ := r
    obtain ⟨s, hs, hsocc, rfl⟩ := (parseValueFuel_eq_ok hlen hfuel').mp hr
    have hpos := hs.length_pos
    have hle := hsocc.length_le
    exact (ih.entries (by omega) (by omega)).mpr ((h k key hk hocc).2 v s hs hsocc)

theorem returning (b : Build) (hlen : data.length < 2 ^ 63) (fuel : ℕ) :
    Returning b data fuel := by
  induction fuel with
  | zero => constructor <;> intros <;> omega
  | succ fuel ih =>
    constructor
    · intro pos depth _ hfuel
      exact returning_value hlen ih (by omega)
    · intro pos depth hpos hfuel
      rw [parseList, Build.addUsize_of_lt b (by omega), Outcome.ok_bind]
      exact ih.items (by omega) (by omega)
    · intro cur depth acc _ hfuel
      exact returning_items hlen ih (by omega)
    · intro pos depth hpos hfuel
      rw [parseDict, Build.addUsize_of_lt b (by omega), Outcome.ok_bind]
      exact ih.entries (by omega) (by omega)
    · intro cur depth map _ hfuel
      exact returning_entries hlen ih (by omega)

theorem parseValue_returns (b : Build) (hlen : data.length < 2 ^ 63) {pos depth : ℕ}
    (hpos : pos ≤ data.length) :
    (parseValue b data pos depth).Returns ↔ Free data (.value pos depth) :=
  (returning b hlen _).value hpos (by unfold parseFuel; omega)

/-- What a call of `parse_value` at `pos` may do: fail, or hand on a later
position within the data. -/
def StepSafe (data : List UInt8) (pos : ℕ) (r : Res (BencodeValue × ℕ)) : Prop :=
  r.Returns ∧ ∀ v next, r = .ok (v, next) → pos < next ∧ next ≤ data.length

/-- A value that is read lies within the data and is not empty. -/
theorem parseValue_advances (hlen : data.length < 2 ^ 63) {pos depth next : ℕ}
    {v : BencodeValue} (h : parseValue b data pos depth = .ok (v, next)) :
    pos < next ∧ next ≤ data.length := by
  obtain ⟨s, hs, hocc, rfl⟩ := (parseValue_eq_ok hlen).mp h
  have hpos := hs.length_pos
  have hle := hocc.add_le (List.length_pos_iff.mp hpos)
  omega

theorem parseValue_stepSafe (b : Build) (hlen : data.length < 2 ^ 63) {pos depth : ℕ}
    (hpos : pos ≤ data.length) :
    StepSafe data pos (parseValue b data pos depth) ↔ Free data (.value pos depth) := by
  rw [← parseValue_returns b hlen hpos]
  constructor
  · intro h
    exact h.1
  · intro h
    exact ⟨h, fun v next hv => parseValue_advances hlen hv⟩

theorem parse_returns (b : Build) (d : Bytes) :
    (parse b d).Returns ↔ Free d.bytes (.value 0 0) := by
  rw [parse]
  rw [Outcome.bind_returns, parseValue_returns b d.length_lt (Nat.zero_le _)]
  exact and_iff_left fun _ _ => trivial

/-- The walk of `extract_info_raw` from the key at `pos`: it reads the values of
the root dictionary at depth zero and stops behind the key `info`. -/
inductive InfoReaches (data : List UInt8) : ℕ → ℕ → Prop where
  | key {pos : ℕ} {c : UInt8} : data[pos]? = some c → c ≠ 0x65 → InfoReaches data pos pos
  | value {pos p : ℕ} {k key : List UInt8} : Style.lenient.Text k key → Occurs data pos k →
      Reaches data (.value (pos + k.length) 0) p → InfoReaches data pos p
  | next {pos p : ℕ} {k key s : List UInt8} {v : BencodeValue} :
      Style.lenient.Text k key → Occurs data pos k → key ≠ Str.asciiBytes "info" →
      Spells .lenient 0 (.value v) s → Occurs data (pos + k.length) s →
      InfoReaches data (pos + k.length + s.length) p → InfoReaches data pos p

/-- No string that the scan for the info dictionary reads ends beyond the `usize` range. -/
def FreeInfo (data : List UInt8) : Prop :=
  data.head? = some 0x64 → ∀ p, InfoReaches data 1 p → ¬ LengthOverflow data p

theorem extractInfoLoop_returns (b : Build) (hlen : data.length < 2 ^ 63) {fuel pos : ℕ}
    (hfuel : data.length - pos + 1 ≤ fuel) :
    (extractInfoLoop b data fuel pos).Returns ↔
      ∀ p, InfoReaches data pos p → ¬ LengthOverflow data p := by
  induction fuel generalizing pos with
  | zero => omega
  | succ fuel ih =>
    rw [extractInfoLoop]
    -- behind the last entry nothing is read
    have hend : (∀ c, data[pos]? = some c → c = 0x65) →
        ∀ p, InfoReaches data pos p → ¬ LengthOverflow data p := by
      intro h p hp
      cases hp with
      | key hc hne => exact absurd (h _ hc) hne
      | value hk hocc =>
        obtain ⟨c, hc, hne⟩ := head_ne_end hk.head hocc
        exact absurd (h c hc) hne
      | next hk hocc =>
        obtain ⟨c, hc, hne⟩ := head_ne_end hk.head hocc
        exact absurd (h c hc) hne
    split
    · next hnone =>
      simpa using hend fun c hc => by simp [hnone] at hc
    next c hc =>
    have hpos := lt_length_of_getElem? hc
    split
    · next he =>
      simpa using hend fun c' hc' => he ▸ Option.some.inj (hc'.symm.trans hc)
    next hne =>
    rw [Outcome.bind_returns, parseByteString_returns hlen hpos.le]
    constructor
    · intro h p hp
      cases hp with
      | key => exact h.1
      | @value _ _ k key hk hocc hp =>
        have hle := hocc.add_le (List.length_pos_iff.mp hk.length_pos)
        have hkv := (parseByteString_eq_ok (b := b) hlen hpos.le).mpr ⟨k, key, hk, hocc, rfl, rfl⟩
        have hrest := h.2 _ hkv
        simp only [Outcome.bind_returns] at hrest
        exact (parseValue_returns b hlen hle).mp hrest.1 p hp
      | @next _ _ k key s v hk hocc hinfo hs hsocc hp =>
        have hkpos := hk.length_pos
        have hspos := hs.length_pos
        have hkv := (parseByteString_eq_ok (b := b) hlen hpos.le).mpr ⟨k, key, hk, hocc, rfl, rfl⟩
        have hrest := h.2 _ hkv
        simp only [Outcome.bind_returns] at hrest
        have hv := (parseValue_eq_ok (b := b) hlen).mpr ⟨s, hs, hsocc, rfl⟩
        have hloop := hrest.2 _ hv
        -- the scan goes on behind an entry that is not `info`
        rw [if_neg (by simpa [BencodeValue.asBytes] using hinfo)] at hloop
        exact (ih (by omega)).mp hloop p hp
    · intro h
      refine ⟨h pos (.key hc hne), fun r hr => ?_⟩
      obtain ⟨kv, mid⟩ := r
      obtain ⟨k, key, hk, hocc, rfl, rfl⟩ := (parseByteString_eq_ok hlen hpos.le).mp hr
      have hkpos := hk.length_pos
      have hle := hocc.add_le (List.length_pos_iff.mp hkpos)
      simp only [Outcome.bind_returns]
      refine ⟨(parseValue_returns b hlen hle).mpr fun p hp => h p (.value hk hocc hp), ?_⟩
      intro r hr
      obtain ⟨v, next⟩ := r
      obtain ⟨s, hs, hsocc, rfl⟩ := (parseValue_eq_ok hlen).mp hr
      have hspos := hs.length_pos
      split
      · have hsle := hsocc.add_le (List.length_pos_iff.mp hspos)
        rw [slice_of_occurs hle hsocc]
        trivial
      · next hinfo =>
        refine (ih (by omega)).mpr fun p hp => h p ?_
        exact .next hk hocc (by simpa [BencodeValue.asBytes] using hinfo) hs hsocc hp

theorem extractInfoRaw_returns (b : Build) (d : Bytes) :
    (extractInfoRaw b d).Returns ↔ FreeInfo d.bytes := by
  rw [extractInfoRaw, FreeInfo]
  split
  · next hd =>
    have hne : d.bytes ≠ [] := by
      intro h
      simp [h] at hd
    have hpos := List.length_pos_iff.mpr hne
    rw [extractInfoLoop_returns b d.length_lt (by omega)]
    exact ⟨fun h _ => h, fun h => h hd⟩
  · next hd => simp [hd]

/-- The three entry points neither overflow nor slice out of bounds exactly when
no string they come across ends beyond the `usize` range. -/
theorem parser_memory_safe_iff (b : Build) (d : Bytes) :
    (∀ pos depth, pos ≤ d.bytes.length →
      (StepSafe d.bytes pos (parseValue b d.bytes pos depth) ↔ Free d.bytes (.value pos depth))) ∧
    ((parse b d).Returns ↔ Free d.bytes (.value 0 0)) ∧
    ((extractInfoRaw b d).Returns ↔ FreeInfo d.bytes) :=
  ⟨fun _ _ hpos => parseValue_stepSafe b d.length_lt hpos, parse_returns b d,
    extractInfoRaw_returns b d⟩

/-- The greatest `usize` as the length of a string. -/
def overlongInput : Bytes := ⟨Str.asciiBytes "18446744073709551615:", by decide⟩

/-- In a release build the end of this string wraps around and passes the bounds
check, and a debug build panics on the addition. -/
theorem parse_overlong_panics :
    parse .release overlongInput = .panic .sliceOrder ∧
    parse .debug overlongInput = .panic .addOverflow ∧
    ¬ ∀ (b : Build) (d : Bytes),
      (∀ pos depth, pos ≤ d.bytes.length →
        StepSafe d.bytes pos (parseValue b d.bytes pos depth)) ∧
      (parse b d).Returns ∧ (extractInfoRaw b d).Returns := by
  have hvalue : parseValue .release overlongInput.bytes 0 0 = .panic .sliceOrder := rfl
  have hdebug : parseValue .debug overlongInput.bytes 0 0 = .panic .addOverflow := rfl
  have hrel : parse .release overlongInput = .panic .sliceOrder := by
    rw [parse, hvalue]
    rfl
  refine ⟨hrel, by rw [parse, hdebug]; rfl, ?_⟩
  intro h
  have hret := (h .release overlongInput).2.1
  rw [hrel] at hret
  exact hret

end Retorrent

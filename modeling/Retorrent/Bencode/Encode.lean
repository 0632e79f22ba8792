import Retorrent.Bencode.Correct

/-!
# The encoder writes the strict language

A value that the parser can produce has one strict spelling, and that is what
the encoder writes. Strict spellings are lenient ones, so the parser reads them
back.
-/

namespace Retorrent

open Rust BencodeValue

theorem decimal_ne_nil (n : ℕ) : Num.decimal n ≠ [] := (Num.decimal_digits n).1

/-- A printed integer is a numeral of it. -/
theorem signedNumeral_decimalInt (i : ℤ) : Num.SignedNumeral (Num.decimalInt i) i := by
  rw [Num.decimalInt]
  split
  · exact ⟨_, i.natAbs, Num.decimal_digits _, .inr ⟨rfl, by omega⟩⟩
  · exact ⟨_, i.natAbs, Num.decimal_digits _, .inl ⟨.inl rfl, by omega⟩⟩

theorem decimal_head {n : ℕ} (h : n ≠ 0) : (Num.decimal n).head? ≠ some 0x30 := by
  intro hhead
  have heq := Num.decimal_canonical n hhead
  have hval := (Num.decimal_digits n).2.2
  rw [heq] at hval
  exact h (hval.symm.trans (by decide))

/-- Printing writes none of the spellings that the integer parser turns away. -/
theorem badInteger_decimalInt (i : ℤ) : badInteger (Num.decimalInt i) = false := by
  rw [Num.decimalInt]
  split
  · next hneg =>
    have hhead : (Num.decimal i.natAbs).head? ≠ some 0x30 := decimal_head (by omega)
    obtain ⟨a, t, hat⟩ := List.exists_cons_of_ne_nil (decimal_ne_nil i.natAbs)
    have ha : a ≠ 0x30 := by simpa [hat] using hhead
    simp [badInteger, hat, ha]
  · by_cases hz : i.natAbs = 0
    · rw [hz]
      decide
    · have hhead : (Num.decimal i.natAbs).head? ≠ some 0x30 := decimal_head hz
      have hdigits := (Num.decimal_digits i.natAbs).2.1
      obtain ⟨a, t, hat⟩ := List.exists_cons_of_ne_nil (decimal_ne_nil i.natAbs)
      have ha : a ≠ 0x30 := by simpa [hat] using hhead
      have hminus : a ≠ 0x2D := by
        intro h
        have hd := hdigits a (by simp [hat])
        rw [h] at hd
        exact absurd hd (by decide)
      simp [badInteger, hat, ha, hminus]

/-- The strict language is part of the lenient one. -/
theorem Spells.lenient {d : ℕ} {n : Node} {s : List UInt8} (h : Spells .strict d n s) :
    Spells .lenient d n s := by
  induction h with
  | @integer d i num hd hnum hlo hhi =>
    obtain rfl : num = Num.decimalInt i := hnum
    exact .integer hd ⟨signedNumeral_decimalInt i, badInteger_decimalInt i⟩ hlo hhi
  | byteString hd hc ht => exact .byteString hd hc ht.lenient
  | list hd _ ih => exact .list hd ih
  | dict hd _ _ ih => exact .dict hd trivial ih
  | noItems => exact .noItems
  | item _ _ ihs iht => exact .item ihs iht
  | noEntries => exact .noEntries
  | entry hk _ _ ihs iht => exact .entry hk.lenient ihs iht

theorem Style.Text.strict_iff {s body : List UInt8} :
    Style.strict.Text s body ↔
      body.length < 2 ^ 64 ∧ s = Num.decimal body.length ++ 0x3A :: body := by
  constructor
  · intro h
    obtain ⟨num, rfl, hlen, rfl⟩ := h
    exact ⟨hlen, rfl⟩
  · intro h
    exact ⟨_, rfl, h.1, h.2⟩

/-- Keys that are UTF-8 survive decoding. -/
theorem fromUtf8Lossy_of_isUtf8 {key : List UInt8} (h : Utf8.isUtf8 key = true) :
    (Str.fromUtf8Lossy key).bytes = key :=
  congrArg Str.bytes (Str.fromUtf8Lossy_bytes ⟨key, h⟩)

/-- A strict spelling is what the encoder writes for the value it stands for. -/
def Encodes (s : List UInt8) : Node → Prop
  | .value v => s = encodeValue v
  | .items l => s = encodeItems l
  | .entries es => (∀ e ∈ es, Utf8.isUtf8 e.1 = true) → s = encodeEntries (decodeKeys es)

theorem Spells.encodes {d : ℕ} {n : Node} {s : List UInt8} (h : Spells .strict d n s) :
    Encodes s n := by
  induction h with
  | @integer d i num _ hnum =>
    obtain rfl : num = Num.decimalInt i := hnum
    show _ = encodeValue _
    rw [encodeValue]
  | byteString _ _ ht =>
    show _ = encodeValue _
    rw [encodeValue]
    exact (Style.Text.strict_iff.mp ht).2
  | list _ _ ih =>
    show _ = encodeValue _
    rw [encodeValue, ← show _ = encodeItems _ from ih]
  | @dict d es s _ hk _ ih =>
    show _ = encodeValue _
    rw [dictOf, BTreeMap.ofEntries_of_sorted hk.2, encodeValue,
      ← show s = encodeEntries _ from ih hk.1]
  | noItems =>
    show _ = encodeItems _
    rw [encodeItems]
  | item _ _ ihs iht =>
    show _ = encodeItems _
    rw [encodeItems, ← show _ = encodeValue _ from ihs, ← show _ = encodeItems _ from iht]
  | noEntries =>
    intro _
    rw [decodeKeys, List.map_nil, encodeEntries]
  | @entry d key v es k s t hk _ _ ihs iht =>
    intro hutf
    obtain ⟨hkey, htail⟩ := List.forall_mem_cons.mp hutf
    rw [decodeKeys, List.map_cons, encodeEntries, fromUtf8Lossy_of_isUtf8 hkey,
      ← show s = encodeValue v from ihs, ← (Style.Text.strict_iff.mp hk).2, List.append_assoc]
    rw [show t = encodeEntries (decodeKeys es) from iht htail]
    rfl

/-- The raw form of the entries of a map. -/
def rawEntries (m : BTreeMap Str BencodeValue) : RawEntries := m.map fun e => (e.1.bytes, e.2)

theorem decodeKeys_rawEntries (m : BTreeMap Str BencodeValue) : decodeKeys (rawEntries m) = m := by
  rw [decodeKeys, rawEntries, List.map_map]
  have hid : ∀ e ∈ m, ((fun e : List UInt8 × BencodeValue => (Str.fromUtf8Lossy e.1, e.2)) ∘
      fun e : Str × BencodeValue => (e.1.bytes, e.2)) e = id e := by
    intro e _
    simp [Str.fromUtf8Lossy_bytes]
  rw [List.map_congr_left hid, List.map_id]

theorem dictOf_rawEntries {m : BTreeMap Str BencodeValue} (h : m.Sorted) :
    dictOf (rawEntries m) = m := by
  rw [dictOf, decodeKeys_rawEntries, BTreeMap.ofEntries_of_sorted h]

theorem keys_rawEntries {m : BTreeMap Str BencodeValue} (h : m.Sorted) :
    Style.strict.Keys (rawEntries m) := by
  refine ⟨?_, by rwa [decodeKeys_rawEntries]⟩
  intro e he
  obtain ⟨e', _, rfl⟩ := List.mem_map.mp he
  exact e'.1.valid

/-- Encoded entries spell the map if their values are spelled. -/
theorem spells_encodeEntries {d : ℕ} {m : BTreeMap Str BencodeValue}
    (h : ∀ e ∈ m, Spells .strict d (.value e.2) (encodeValue e.2))
    (hlen : (encodeEntries m).length < 2 ^ 64) :
    Spells .strict d (.entries (rawEntries m)) (encodeEntries m) := by
  induction m with
  | nil =>
    rw [encodeEntries]
    exact .noEntries
  | cons e m ih =>
    obtain ⟨key, v⟩ := e
    rw [encodeEntries] at hlen ⊢
    simp only [List.length_append, List.length_cons] at hlen
    obtain ⟨hv, hm⟩ := List.forall_mem_cons.mp h
    have hkey : key.bytes.length < 2 ^ 64 := by omega
    rw [List.append_assoc]
    exact .entry (Style.Text.strict_iff.mpr ⟨hkey, rfl⟩) hv (ih hm (by omega))

/-- A list of values that are spelled is spelled. -/
theorem spells_encodeItems {d : ℕ} {l : List BencodeValue}
    (h : ∀ v ∈ l, (encodeValue v).length < 2 ^ 64 → Spells .strict d (.value v) (encodeValue v))
    (hlen : (encodeItems l).length < 2 ^ 64) :
    Spells .strict d (.items l) (encodeItems l) := by
  induction l with
  | nil =>
    rw [encodeItems]
    exact .noItems
  | cons v l ih =>
    rw [encodeItems] at hlen ⊢
    rw [List.length_append] at hlen
    obtain ⟨hv, hl⟩ := List.forall_mem_cons.mp h
    exact .item (hv (by omega)) (ih hl (by omega))

theorem spells_encodeList {d : ℕ} (hd : d ≤ maxParseDepth) {l : List BencodeValue}
    (h : ∀ v ∈ l, (encodeValue v).length < 2 ^ 64 →
      Spells .strict (d + 1) (.value v) (encodeValue v))
    (hlen : (encodeValue (.list l)).length < 2 ^ 64) :
    Spells .strict d (.value (.list l)) (encodeValue (.list l)) := by
  rw [encodeValue] at hlen ⊢
  simp only [List.length_cons, List.length_append] at hlen
  exact .list hd (spells_encodeItems h (by omega))

/-- A digit comes first in an encoded string. -/
theorem decimal_cons (n : ℕ) : ∃ a t, Num.decimal n = a :: t ∧ Num.isDigit a = true := by
  obtain ⟨a, t, hat⟩ := List.exists_cons_of_ne_nil (decimal_ne_nil n)
  exact ⟨a, t, hat, (Num.decimal_digits n).2.1 a (by simp [hat])⟩

theorem spells_encode_byteString {d : ℕ} {body : List UInt8} (hd : d ≤ maxParseDepth)
    (hlen : body.length < 2 ^ 64) :
    Spells .strict d (.value (.byteString body)) (encodeValue (.byteString body)) := by
  obtain ⟨a, t, hat, ha⟩ := decimal_cons body.length
  rw [encodeValue, hat, List.cons_append]
  exact .byteString hd ha (Style.Text.strict_iff.mpr ⟨hlen, by rw [hat, List.cons_append]⟩)

/-- What a spelled node re-encodes to. -/
def Recodes (d : ℕ) : Node → Prop
  | .value v => (encodeValue v).length < 2 ^ 64 →
      Spells .strict d (.value v) (encodeValue v)
  | .items l => (encodeItems l).length < 2 ^ 64 → Spells .strict d (.items l) (encodeItems l)
  | .entries es => ∀ e ∈ es, (encodeValue e.2).length < 2 ^ 64 →
      Spells .strict d (.value e.2) (encodeValue e.2)

theorem mem_of_mem_dictOf {es : RawEntries} {e : Str × BencodeValue} (h : e ∈ dictOf es) :
    ∃ e' ∈ es, e'.2 = e.2 := by
  obtain ⟨e', he', rfl⟩ := List.mem_map.mp (BTreeMap.mem_ofEntries h)
  exact ⟨e', he', rfl⟩

theorem length_le_encodeEntries {m : BTreeMap Str BencodeValue} {e : Str × BencodeValue}
    (h : e ∈ m) : (encodeValue e.2).length ≤ (encodeEntries m).length := by
  induction m with
  | nil => simp at h
  | cons e' m ih =>
    rw [encodeEntries]
    simp only [List.length_append]
    rcases List.mem_cons.mp h with rfl | h
    · omega
    · have := ih h
      omega

/-- Whatever the parser reads, the encoder writes its strict spelling. -/
theorem Spells.recodes {d : ℕ} {n : Node} {s : List UInt8} (h : Spells .lenient d n s) :
    Recodes d n := by
  induction h with
  | @integer d i num hd _ hlo hhi =>
    intro _
    rw [encodeValue]
    exact .integer hd rfl hlo hhi
  | byteString hd _ ht =>
    intro _
    exact spells_encode_byteString hd ht.choose_spec.2.1
  | list hd _ ih =>
    intro hlen
    rw [encodeValue] at hlen ⊢
    simp only [List.length_cons, List.length_append] at hlen
    exact .list hd (ih (by omega))
  | @dict d es s hd _ _ ih =>
    intro hlen
    have hsorted : (dictOf es).Sorted := BTreeMap.ofEntries_sorted _
    rw [encodeValue] at hlen ⊢
    simp only [List.length_cons, List.length_append] at hlen
    -- the map keeps the last value of a key, which is one that was read
    have hvals : ∀ e ∈ dictOf es, Spells .strict (d + 1) (.value e.2) (encodeValue e.2) := by
      intro e he
      have hle := length_le_encodeEntries he
      obtain ⟨e', he', heq⟩ := mem_of_mem_dictOf he
      exact heq ▸ ih e' he' (by rw [heq]; omega)
    have hentries := spells_encodeEntries hvals (by omega)
    have hdict := Spells.dict hd (keys_rawEntries hsorted) hentries
    rwa [dictOf_rawEntries hsorted] at hdict
  | noItems =>
    intro _
    rw [encodeItems]
    exact .noItems
  | item _ _ ihs iht =>
    intro hlen
    rw [encodeItems] at hlen ⊢
    simp only [List.length_append] at hlen
    exact .item (ihs (by omega)) (iht (by omega))
  | noEntries =>
    intro e he
    simp at he
  | entry _ _ _ ihs iht =>
    intro e he
    rcases List.mem_cons.mp he with rfl | he
    · exact ihs
    · exact iht e he

/-- A value the parser can produce. -/
def Parsed (d : ℕ) (v : BencodeValue) : Prop := ∃ s, Spells .lenient d (.value v) s

theorem Parsed.spells_encode {d : ℕ} {v : BencodeValue} (h : Parsed d v)
    (hlen : (encodeValue v).length < 2 ^ 64) :
    Spells .strict d (.value v) (encodeValue v) := by
  obtain ⟨s, hs⟩ := h
  exact hs.recodes hlen

/-- `s` is canonical bencode: numerals are as printed and the keys of every
dictionary are strings in ascending order. -/
def Canonical (s : List UInt8) : Prop := ∃ v, Spells .strict 0 (.value v) s

/-- A text is canonical exactly when the encoder writes it for the value it stands for. -/
theorem canonical_iff {v : BencodeValue} {s : List UInt8} (h : Spells .lenient 0 (.value v) s)
    (hlen : s.length < 2 ^ 63) : Canonical s ↔ s = encodeValue v := by
  constructor
  · intro hc
    obtain ⟨w, hw⟩ := hc
    have hvw : v = w :=
      (Spells.unique (r := []) (q := []) h hw.lenient (by simpa using hlen) rfl).1
    rw [hvw]
    exact hw.encodes
  · intro heq
    refine ⟨v, ?_⟩
    have henc := h.recodes
    rw [heq] at hlen ⊢
    exact henc (by omega)

/-- Decoding what was encoded gives back the value. -/
theorem parse_encode {b : Build} {v : BencodeValue} {d : Bytes} (h : Parsed 0 v)
    (hd : encode v = .ok d) : parse b d = .ok v := by
  have hbytes := Bytes.ofList_eq_ok.mp hd
  have hbound := d.length_lt
  have hs := h.spells_encode (by rw [← hbytes]; omega)
  exact parse_eq_ok.mpr ⟨_, hs.lenient, by rw [hbytes]⟩

end Retorrent

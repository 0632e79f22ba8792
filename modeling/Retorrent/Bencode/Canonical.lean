import Retorrent.Bencode.Encode

/-!
# Canonical spellings of the leaves

The number parser of the standard library reads a plus sign and leading zeros. `parse_integer`
turns leading zeros away and lets the plus sign through, `parse_byte_string` lets both through.
-/

namespace Rust.Num

variable {num : List UInt8} {n : ℕ} {i : ℤ}

/-- A digit string without leading zeros is the one that printing writes. -/
theorem eq_decimal_of_canonical (h : Digits num n) (hcanonical : Canonical num) :
    num = decimal n := by
  obtain ⟨hne, hdigits, rfl⟩ := h
  by_cases hzero : num.head? = some 0x30
  · rw [hcanonical hzero]
    decide
  have hlast : ∀ hne' : (num.map digitVal).reverse ≠ [],
      (num.map digitVal).reverse.getLast hne' ≠ 0 := by
    intro hne'
    obtain ⟨a, t, rfl⟩ := List.exists_cons_of_ne_nil hne
    have ha := isDigit_iff.mp (hdigits a List.mem_cons_self)
    have hne0 : a.toNat ≠ 0x30 := by
      intro heq
      exact hzero (congrArg some (UInt8.toNat_inj.mp heq))
    simp only [List.map_cons, List.reverse_cons, List.getLast_concat, digitVal]
    omega
  have hlt : ∀ d ∈ (num.map digitVal).reverse, d < 10 := by
    intro d hd
    obtain ⟨c, hc, rfl⟩ := List.mem_map.mp (List.mem_reverse.mp hd)
    have hc' := isDigit_iff.mp (hdigits c hc)
    rw [digitVal]
    omega
  have hvalue := Nat.digits_ofDigits 10 (by decide) _ hlt hlast
  have hpos : value num ≠ 0 := by
    intro h
    rw [value] at h
    rw [h, Nat.digits_zero] at hvalue
    simp [hne] at hvalue
  have hdigit : ∀ c ∈ num, UInt8.ofNat (digitVal c + 0x30) = c := by
    intro c hc
    have hc' := isDigit_iff.mp (hdigits c hc)
    rw [digitVal, Nat.sub_add_cancel hc'.1, UInt8.ofNat_toNat]
  rw [decimal, if_neg hpos, value, hvalue, List.map_reverse, List.reverse_reverse, List.map_map]
  calc num = num.map id := (List.map_id num).symm
    _ = num.map _ := List.map_congr_left fun c hc => (hdigit c hc).symm

/-- A length is printed like this exactly when it has neither a plus sign nor leading zeros. -/
theorem UnsignedNumeral.eq_decimal_iff (h : UnsignedNumeral num n) :
    num = decimal n ↔ num.head? ≠ some 0x2B ∧ Canonical num := by
  constructor
  · rintro rfl
    refine ⟨?_, decimal_canonical n⟩
    intro hhead
    obtain ⟨hne, hdigits, _⟩ := decimal_digits n
    exact absurd (hdigits 0x2B (List.mem_of_head? hhead)) (by decide)
  · rintro ⟨hplus, hcanonical⟩
    obtain ⟨ds, hds, rfl | rfl⟩ := h
    · exact eq_decimal_of_canonical hds hcanonical
    · exact absurd rfl hplus

end Rust.Num

namespace Retorrent

open Rust BencodeValue

section Integers

variable {num : List UInt8} {i : ℤ}

theorem signedNumeral_ne_nil (h : Num.SignedNumeral num i) : num ≠ [] := by
  obtain ⟨ds, n, hds, ⟨hform, _⟩ | ⟨rfl, _⟩⟩ := h
  · exact Num.UnsignedNumeral.ne_nil ⟨ds, hds, hform⟩
  · exact List.cons_ne_nil _ _

/-- Digits that `parse_integer` lets through have no leading zeros, also behind a minus sign. -/
theorem canonical_of_badInteger {ds : List UInt8} {n : ℕ} (h : Num.Digits ds n) :
    (badInteger ds = false → Num.Canonical ds) ∧
      (badInteger (0x2D :: ds) = false → ds.head? ≠ some 0x30) := by
  obtain ⟨a, t, rfl⟩ := List.exists_cons_of_ne_nil h.1
  constructor
  · intro hgood hhead
    obtain rfl : a = 0x30 := Option.some.inj hhead
    cases t with
    | nil => rfl
    | cons c t => simp [badInteger] at hgood
  · intro hgood hhead
    obtain rfl : a = 0x30 := Option.some.inj hhead
    cases t with
    | nil => simp [badInteger] at hgood
    | cons c t => simp [badInteger] at hgood

/-- An integer that is let through is printed like this exactly when it has no plus sign. -/
theorem eq_decimalInt_iff (h : Style.lenient.Integer num i) :
    num = Num.decimalInt i ↔ num.head? ≠ some 0x2B := by
  obtain ⟨⟨ds, n, hds, hform⟩, hgood⟩ := h
  constructor
  · rintro rfl hhead
    rw [Num.decimalInt] at hhead
    obtain ⟨_, hdigits, _⟩ := Num.decimal_digits i.natAbs
    split at hhead
    · simp at hhead
    · exact absurd (hdigits 0x2B (List.mem_of_head? hhead)) (by decide)
  · intro hplus
    obtain ⟨rfl | rfl, rfl⟩ | ⟨rfl, rfl⟩ := hform
    · rw [Num.decimalInt, if_neg (by omega), Int.natAbs_natCast]
      exact Num.eq_decimal_of_canonical hds ((canonical_of_badInteger hds).1 hgood)
    · exact absurd rfl hplus
    · have hhead := (canonical_of_badInteger hds).2 hgood
      have heq := Num.eq_decimal_of_canonical hds fun hzero => absurd hzero hhead
      have hpos : n ≠ 0 := by
        rintro rfl
        exact hhead (by rw [heq]; rfl)
      rw [Num.decimalInt, if_pos (by omega), Int.natAbs_neg, Int.natAbs_natCast, ← heq]

end Integers

/-- The bytes from `pos` up to `next`. -/
def consumed (data : List UInt8) (pos next : ℕ) : List UInt8 := (data.drop pos).take (next - pos)

variable {b : Build} {data : List UInt8} {pos next : ℕ} {v : BencodeValue}

theorem consumed_of_occurs {s : List UInt8} (h : Occurs data pos s) :
    consumed data pos (pos + s.length) = s := by
  rw [consumed, Nat.add_sub_cancel_left, h.take_eq]

theorem encodeValue_ne_nil (v : BencodeValue) : encodeValue v ≠ [] := by
  cases v with
  | byteString s => simp [encodeValue, decimal_ne_nil]
  | integer | list | dict => simp [encodeValue]

/-- `parse_integer` has read what the encoder writes exactly when it was called at an `i` that no
plus sign follows. -/
theorem parseInteger_canonical_iff (hlen : data.length < 2 ^ 63)
    (h : parseInteger b data pos = .ok (v, next)) :
    consumed data pos next = encodeValue v ↔
      data[pos]? = some 0x69 ∧ data[pos + 1]? ≠ some 0x2B := by
  by_cases hpos : pos < data.length
  · obtain ⟨num, i, hnum, _, _, hocc, rfl, rfl⟩ := (parseInteger_eq_ok hlen hpos).mp h
    have hfirst : data[pos]? = some data[pos] := List.getElem?_eq_getElem hpos
    have hspan : Occurs data pos (data[pos] :: (num ++ [0x65])) :=
      Occurs.cons_iff.mpr ⟨hfirst, hocc⟩
    obtain ⟨a, t, rfl⟩ := List.exists_cons_of_ne_nil (signedNumeral_ne_nil hnum.1)
    have hsecond : data[pos + 1]? = some a := (Occurs.cons_iff.mp hocc).1
    have hconsumed := consumed_of_occurs hspan
    have hend : pos + (data[pos] :: (a :: t ++ [0x65])).length =
        pos + 1 + (a :: t).length + 1 := by
      simp only [List.length_cons, List.length_append, List.length_nil]
      omega
    rw [hend] at hconsumed
    rw [hconsumed, encodeValue, List.cons.injEq, List.append_left_inj, eq_decimalInt_iff hnum,
      hfirst, hsecond, Option.some.injEq]
    rfl
  · have hempty : consumed data pos next = [] := by
      rw [consumed, List.drop_eq_nil_of_le (Nat.le_of_not_lt hpos), List.take_nil]
    rw [hempty, List.getElem?_eq_none (Nat.le_of_not_lt hpos)]
    exact iff_of_false (encodeValue_ne_nil v).symm fun hfirst => by cases hfirst.1

/-- `parse_byte_string` has read what the encoder writes exactly when the length starts neither with
a plus sign nor with a zero that another digit follows. -/
theorem parseByteString_canonical_iff (hlen : data.length < 2 ^ 63)
    (h : parseByteString b data pos = .ok (v, next)) :
    consumed data pos next = encodeValue v ↔
      data[pos]? ≠ some 0x2B ∧ (data[pos]? = some 0x30 → data[pos + 1]? = some 0x3A) := by
  have hpos : pos ≤ data.length := by
    by_contra hgt
    rw [parseByteString, sliceFrom, if_pos (by omega)] at h
    cases h
  obtain ⟨s, body, ⟨num, hnum, hbody, rfl⟩, hocc, rfl, rfl⟩ :=
    (parseByteString_eq_ok hlen hpos).mp h
  have hnum : Num.UnsignedNumeral num body.length := hnum
  obtain ⟨a, t, rfl⟩ := List.exists_cons_of_ne_nil hnum.ne_nil
  have hfirst : data[pos]? = some a := (Occurs.cons_iff.mp hocc).1
  have hsecond : data[pos + 1]? = (t ++ 0x3A :: body).head? := by
    have hrest := (Occurs.cons_iff.mp hocc).2
    cases t with
    | nil => exact (Occurs.cons_iff.mp hrest).1
    | cons c t => exact (Occurs.cons_iff.mp hrest).1
  rw [consumed_of_occurs hocc, encodeValue, List.append_left_inj, hnum.eq_decimal_iff, hfirst,
    hsecond, List.head?_cons, Num.Canonical, List.head?_cons]
  refine and_congr_right fun _ => forall_congr' fun hzero => ?_
  obtain rfl := Option.some.inj hzero
  cases t with
  | nil => exact iff_of_true rfl rfl
  | cons c t =>
    -- the colon ends the length, so the byte after the zero is another one
    have hcolon : (0x3A : UInt8) ∉ 0x30 :: c :: t :=
      not_mem_of_unsignedNumeral hnum (by decide) (by decide)
    refine iff_of_false (by simp) fun hc => hcolon ?_
    rw [← Option.some.inj hc]
    exact List.mem_cons_of_mem _ List.mem_cons_self

/-- What the leaf parsers accept is canonical exactly where these two bytes allow it. -/
theorem leaves_canonical_iff (b : Build) (data : Bytes) (pos next : ℕ) (v : BencodeValue) :
    (parseInteger b data.bytes pos = .ok (v, next) →
      (consumed data.bytes pos next = encodeValue v ↔
        data.bytes[pos]? = some 0x69 ∧ data.bytes[pos + 1]? ≠ some 0x2B)) ∧
    (parseByteString b data.bytes pos = .ok (v, next) →
      (consumed data.bytes pos next = encodeValue v ↔
        data.bytes[pos]? ≠ some 0x2B ∧
          (data.bytes[pos]? = some 0x30 → data.bytes[pos + 1]? = some 0x3A))) :=
  ⟨parseInteger_canonical_iff data.length_lt, parseByteString_canonical_iff data.length_lt⟩

/-- An integer and a string without a sign. -/
theorem leaves_canonical_plain :
    (parseInteger .debug (Str.asciiBytes "i5e") 0 = .ok (.integer 5, 3) ∧
      consumed (Str.asciiBytes "i5e") 0 3 = encodeValue (.integer 5)) ∧
    (parseByteString .debug (Str.asciiBytes "2:ab") 0 =
        .ok (.byteString (Str.asciiBytes "ab"), 4) ∧
      consumed (Str.asciiBytes "2:ab") 0 4 = encodeValue (.byteString (Str.asciiBytes "ab"))) := by
  have hinteger : parseInteger .debug (Str.asciiBytes "i5e") 0 = .ok (.integer 5, 3) := by rfl
  have hstring : parseByteString .debug (Str.asciiBytes "2:ab") 0 =
      .ok (.byteString (Str.asciiBytes "ab"), 4) := by rfl
  have hi := (leaves_canonical_iff .debug ⟨Str.asciiBytes "i5e", by decide⟩ 0 3 _).1 hinteger
  have hs := (leaves_canonical_iff .debug ⟨Str.asciiBytes "2:ab", by decide⟩ 0 4 _).2 hstring
  exact ⟨⟨hinteger, hi.mpr (by decide)⟩, hstring, hs.mpr (by decide)⟩

/-- A plus sign, and a length with leading zeros. -/
theorem leaves_not_canonical :
    (parseInteger .debug (Str.asciiBytes "i+5e") 0 = .ok (.integer 5, 4) ∧
      consumed (Str.asciiBytes "i+5e") 0 4 ≠ encodeValue (.integer 5)) ∧
    (parseByteString .debug (Str.asciiBytes "02:ab") 0 =
        .ok (.byteString (Str.asciiBytes "ab"), 5) ∧
      consumed (Str.asciiBytes "02:ab") 0 5 ≠ encodeValue (.byteString (Str.asciiBytes "ab"))) :=
  ⟨⟨rfl, by decide⟩, rfl, by decide⟩

end Retorrent

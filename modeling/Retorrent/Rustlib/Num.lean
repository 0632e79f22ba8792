import Mathlib.Data.Nat.Digits.Lemmas
import Mathlib.Tactic.Ring

/-!
# Decimal integers

`from_str_radix(_, 10)` and `to_string` of the Rust integer types, on the bytes
of the text. Parsing accepts a leading `+` and leading zeros, printing produces
neither, so printing picks one numeral of each value.
-/

namespace Rust.Num

/-- `std::num::IntErrorKind`, as far as decimal parsing returns it. -/
inductive ParseIntError where
  | empty
  | invalidDigit
  | posOverflow
  | negOverflow
  deriving DecidableEq, Repr

/-- `Display for ParseIntError`. -/
def ParseIntError.text : ParseIntError → String
  | .empty => "cannot parse integer from empty string"
  | .invalidDigit => "invalid digit found in string"
  | .posOverflow => "number too large to fit in target type"
  | .negOverflow => "number too small to fit in target type"

def isDigit (b : UInt8) : Bool := 0x30 ≤ b && b ≤ 0x39

def digitVal (b : UInt8) : ℕ := b.toNat - 0x30

/-- Digits are added one at a time; the first that leaves the range fails. -/
def accumulate (limit : ℕ) (tooLarge : ParseIntError) : ℕ → List UInt8 → Except ParseIntError ℕ
  | acc, [] => .ok acc
  | acc, b :: t =>
    if isDigit b then
      if limit < acc * 10 + digitVal b then .error tooLarge
      else accumulate limit tooLarge (acc * 10 + digitVal b) t
    else .error .invalidDigit

/-- `str::parse` for an unsigned type with greatest value `max`. -/
def parseUnsigned (max : ℕ) (bs : List UInt8) : Except ParseIntError ℕ :=
  match bs with
  | [] => .error .empty
  | a :: t =>
    if (a = 0x2B ∨ a = 0x2D) ∧ t = [] then .error .invalidDigit
    else if a = 0x2B then accumulate max .posOverflow 0 t
    else accumulate max .posOverflow 0 (a :: t)

/-- `str::parse` for a signed type with greatest value `max`. -/
def parseSigned (max : ℕ) (bs : List UInt8) : Except ParseIntError ℤ :=
  match bs with
  | [] => .error .empty
  | a :: t =>
    if (a = 0x2B ∨ a = 0x2D) ∧ t = [] then .error .invalidDigit
    else if a = 0x2B then (accumulate max .posOverflow 0 t).map Int.ofNat
    else if a = 0x2D then (accumulate (max + 1) .negOverflow 0 t).map fun n => -Int.ofNat n
    else (accumulate max .posOverflow 0 (a :: t)).map Int.ofNat

/-- The number a digit string denotes. -/
def value (ds : List UInt8) : ℕ := Nat.ofDigits 10 (ds.map digitVal).reverse

/-- A nonempty string of decimal digits that denotes `n`. -/
def Digits (ds : List UInt8) (n : ℕ) : Prop :=
  ds ≠ [] ∧ (∀ b ∈ ds, isDigit b = true) ∧ value ds = n

/-- The texts that unsigned parsing maps to `n`, ranges aside. -/
def UnsignedNumeral (bs : List UInt8) (n : ℕ) : Prop :=
  ∃ ds, Digits ds n ∧ (bs = ds ∨ bs = 0x2B :: ds)

/-- The texts that signed parsing maps to `i`, ranges aside. -/
def SignedNumeral (bs : List UInt8) (i : ℤ) : Prop :=
  ∃ ds n, Digits ds n ∧ ((bs = ds ∨ bs = 0x2B :: ds) ∧ i = n ∨ bs = 0x2D :: ds ∧ i = -n)

/-- `to_string` of an unsigned integer. -/
def decimal (n : ℕ) : List UInt8 :=
  if n = 0 then [0x30] else ((Nat.digits 10 n).map fun d => UInt8.ofNat (d + 0x30)).reverse

/-- `to_string` of a signed integer. -/
def decimalInt (i : ℤ) : List UInt8 :=
  if i < 0 then 0x2D :: decimal i.natAbs else decimal i.natAbs

theorem isDigit_iff {b : UInt8} : isDigit b = true ↔ 0x30 ≤ b.toNat ∧ b.toNat ≤ 0x39 := by
  simp [isDigit, UInt8.le_iff_toNat_le]

theorem value_nil : value [] = 0 := rfl

theorem value_cons (b : UInt8) (t : List UInt8) :
    value (b :: t) = digitVal b * 10 ^ t.length + value t := by
  rw [value, List.map_cons, Nat.ofDigits_reverse_cons, List.length_map, value]
  ring

/-- The running check accepts exactly the digit strings whose number, prefixed
by the digits already read, stays in range. -/
theorem accumulate_eq_ok {limit acc n : ℕ} {tooLarge : ParseIntError} {bs : List UInt8}
    (hacc : acc ≤ limit) :
    accumulate limit tooLarge acc bs = .ok n ↔
      (∀ b ∈ bs, isDigit b = true) ∧ acc * 10 ^ bs.length + value bs = n ∧ n ≤ limit := by
  induction bs generalizing acc with
  | nil =>
    simp only [accumulate, Except.ok.injEq, List.not_mem_nil, false_implies, implies_true,
      List.length_nil, pow_zero, mul_one, value_nil, add_zero, true_and]
    exact ⟨fun h => ⟨h, h ▸ hacc⟩, fun h => h.1⟩
  | cons b t ih =>
    have hval : acc * 10 ^ (t.length + 1) + value (b :: t) =
        (acc * 10 + digitVal b) * 10 ^ t.length + value t := by
      rw [value_cons]
      ring
    simp only [accumulate, List.length_cons, List.forall_mem_cons, hval]
    by_cases hb : isDigit b = true
    · by_cases hlim : limit < acc * 10 + digitVal b
      · have hle : acc * 10 + digitVal b ≤ (acc * 10 + digitVal b) * 10 ^ t.length :=
          Nat.le_mul_of_pos_right _ (by positivity)
        simp only [hb, hlim, if_true, reduceCtorEq, true_and, false_iff, not_and]
        intro _ _
        omega
      · rw [if_pos hb, if_neg hlim, ih (by omega)]
        simp [hb]
    · simp [hb]

/-- From zero, the running check accepts the digit strings of numbers in range. -/
theorem accumulate_zero {limit n : ℕ} {tooLarge : ParseIntError} {ds : List UInt8} (hne : ds ≠ []) :
    accumulate limit tooLarge 0 ds = .ok n ↔ Digits ds n ∧ n ≤ limit := by
  rw [accumulate_eq_ok (Nat.zero_le _), Nat.zero_mul, Nat.zero_add]
  exact ⟨fun ⟨hd, hv, hn⟩ => ⟨⟨hne, hd, hv⟩, hn⟩, fun ⟨⟨_, hd, hv⟩, hn⟩ => ⟨hd, hv, hn⟩⟩

/-- A sign is not a digit. -/
theorem Digits.head_ne_sign {a : UInt8} {t : List UInt8} {n : ℕ} (h : Digits (a :: t) n) :
    a ≠ 0x2B ∧ a ≠ 0x2D := by
  have ha : isDigit a = true := h.2.1 a (by simp)
  constructor
  · rintro rfl
    exact absurd ha (by decide)
  · rintro rfl
    exact absurd ha (by decide)

theorem UnsignedNumeral.ne_nil {bs : List UInt8} {n : ℕ} (h : UnsignedNumeral bs n) :
    bs ≠ [] := by
  obtain ⟨ds, hd, rfl | rfl⟩ := h
  · exact hd.1
  · simp

/-- Numerals sorted by their first byte. -/
theorem unsignedNumeral_cons {a : UInt8} {t : List UInt8} {n : ℕ} :
    UnsignedNumeral (a :: t) n ↔
      (a = 0x2B ∧ Digits t n) ∨ (a ≠ 0x2B ∧ Digits (a :: t) n) := by
  constructor
  · rintro ⟨ds, hd, rfl | h⟩
    · exact .inr ⟨hd.head_ne_sign.1, hd⟩
    · obtain ⟨rfl, rfl⟩ : a = 0x2B ∧ t = ds := by simpa using h
      exact .inl ⟨rfl, hd⟩
  · rintro (⟨rfl, hd⟩ | ⟨_, hd⟩)
    · exact ⟨t, hd, .inr rfl⟩
    · exact ⟨a :: t, hd, .inl rfl⟩

/-- Unsigned parsing reads a numeral with or without a plus sign. -/
theorem parseUnsigned_eq_ok {max n : ℕ} {bs : List UInt8} :
    parseUnsigned max bs = .ok n ↔ UnsignedNumeral bs n ∧ n ≤ max := by
  cases bs with
  | nil =>
    simp only [parseUnsigned, reduceCtorEq, false_iff]
    exact fun h => h.1.ne_nil rfl
  | cons a t =>
    rw [unsignedNumeral_cons, parseUnsigned]
    by_cases hsign : (a = 0x2B ∨ a = 0x2D) ∧ t = []
    · rw [if_pos hsign]
      simp only [reduceCtorEq, false_iff]
      rintro ⟨⟨_, hd⟩ | ⟨hp, hd⟩, _⟩
      · exact hd.1 hsign.2
      · exact hsign.1.elim hp hd.head_ne_sign.2
    · rw [if_neg hsign]
      by_cases hplus : a = 0x2B
      · have ht : t ≠ [] := fun ht => hsign ⟨.inl hplus, ht⟩
        rw [if_pos hplus, accumulate_zero ht]
        simp [hplus]
      · rw [if_neg hplus, accumulate_zero (List.cons_ne_nil a t)]
        simp [hplus]

theorem map_eq_ok {ε α β : Type} {x : Except ε α} {f : α → β} {b : β} :
    x.map f = .ok b ↔ ∃ a, x = .ok a ∧ f a = b := by
  cases x <;> simp [Except.map]

/-- Signed numerals sorted by their first byte. -/
theorem signedNumeral_cons {a : UInt8} {t : List UInt8} {i : ℤ} :
    SignedNumeral (a :: t) i ↔
      (a = 0x2D ∧ ∃ n : ℕ, Digits t n ∧ -Int.ofNat n = i) ∨
      (a ≠ 0x2D ∧ ∃ n : ℕ, UnsignedNumeral (a :: t) n ∧ Int.ofNat n = i) := by
  constructor
  · rintro ⟨ds, n, hd, ⟨h, rfl⟩ | ⟨h, rfl⟩⟩
    · refine .inr ⟨?_, n, ⟨ds, hd, h⟩, rfl⟩
      rintro rfl
      rcases h with rfl | h
      · exact hd.head_ne_sign.2 rfl
      · simp at h
    · obtain ⟨rfl, rfl⟩ : a = 0x2D ∧ t = ds := by simpa using h
      exact .inl ⟨rfl, n, hd, rfl⟩
  · rintro (⟨rfl, n, hd, rfl⟩ | ⟨_, n, ⟨ds, hd, h⟩, rfl⟩)
    · exact ⟨t, n, hd, .inr ⟨rfl, rfl⟩⟩
    · exact ⟨ds, n, hd, .inl ⟨h, rfl⟩⟩

/-- Without a minus sign, signed parsing is unsigned parsing. -/
theorem parseSigned_of_ne_minus {max : ℕ} {a : UInt8} {t : List UInt8} (h : a ≠ 0x2D) :
    parseSigned max (a :: t) = (parseUnsigned max (a :: t)).map Int.ofNat := by
  simp only [parseSigned, parseUnsigned, h, if_false]
  split
  · rfl
  · split <;> rfl

/-- Signed parsing reads a numeral with or without a sign. -/
theorem parseSigned_eq_ok {max : ℕ} {i : ℤ} {bs : List UInt8} :
    parseSigned max bs = .ok i ↔ SignedNumeral bs i ∧ -(max + 1 : ℤ) ≤ i ∧ i ≤ max := by
  cases bs with
  | nil =>
    simp only [parseSigned, reduceCtorEq, false_iff]
    rintro ⟨⟨ds, n, hd, ⟨h, _⟩ | ⟨h, _⟩⟩, _⟩
    · exact UnsignedNumeral.ne_nil ⟨ds, hd, h⟩ rfl
    · simp at h
  | cons a t =>
    rw [signedNumeral_cons]
    by_cases hminus : a = 0x2D
    · subst hminus
      by_cases ht : t = []
      · subst ht
        simp [parseSigned, Digits]
      · have hparse : parseSigned max (0x2D :: t) =
            (accumulate (max + 1) .negOverflow 0 t).map fun n => -Int.ofNat n := by
          simp [parseSigned, ht]
        rw [hparse, map_eq_ok]
        simp only [accumulate_zero ht, true_and, ne_eq, not_true_eq_false, false_and, or_false]
        constructor
        · rintro ⟨n, ⟨hd, hn⟩, rfl⟩
          exact ⟨⟨n, hd, rfl⟩, by simp only [Int.ofNat_eq_natCast]; omega,
            by simp only [Int.ofNat_eq_natCast]; omega⟩
        · rintro ⟨⟨n, hd, rfl⟩, hmin, _⟩
          exact ⟨n, ⟨hd, by simp only [Int.ofNat_eq_natCast] at hmin; omega⟩, rfl⟩
    · rw [parseSigned_of_ne_minus hminus, map_eq_ok]
      simp only [parseUnsigned_eq_ok, hminus, false_and, false_or, ne_eq, not_false_eq_true,
        true_and]
      constructor
      · rintro ⟨n, ⟨hd, hn⟩, rfl⟩
        exact ⟨⟨n, hd, rfl⟩, by simp only [Int.ofNat_eq_natCast]; omega,
          by simp only [Int.ofNat_eq_natCast]; omega⟩
      · rintro ⟨⟨n, hd, rfl⟩, _, hmax⟩
        exact ⟨n, ⟨hd, by simp only [Int.ofNat_eq_natCast] at hmax; omega⟩, rfl⟩

theorem isDigit_ofNat {d : ℕ} (h : d < 10) : isDigit (UInt8.ofNat (d + 0x30)) = true := by
  rw [isDigit_iff, UInt8.toNat_ofNat', Nat.mod_eq_of_lt (by omega)]
  omega

theorem digitVal_ofNat {d : ℕ} (h : d < 10) : digitVal (UInt8.ofNat (d + 0x30)) = d := by
  rw [digitVal, UInt8.toNat_ofNat', Nat.mod_eq_of_lt (by omega)]
  omega

/-- Printing yields a digit string of the printed number. -/
theorem decimal_digits (n : ℕ) : Digits (decimal n) n := by
  by_cases h : n = 0
  · subst h
    refine ⟨by simp [decimal], ?_, by decide⟩
    intro b hb
    obtain rfl : b = 0x30 := by simpa [decimal] using hb
    decide
  · have hlt : ∀ d ∈ Nat.digits 10 n, d < 10 := fun d hd => Nat.digits_lt_base (by decide) hd
    refine ⟨by simp [decimal, h, Nat.digits_ne_nil_iff_ne_zero], ?_, ?_⟩
    · intro b hb
      obtain ⟨d, hd, rfl⟩ : ∃ d ∈ Nat.digits 10 n, UInt8.ofNat (d + 0x30) = b := by
        simpa [decimal, h] using hb
      exact isDigit_ofNat (hlt d hd)
    · have hmap : (Nat.digits 10 n).map (digitVal ∘ fun d => UInt8.ofNat (d + 0x30)) =
          Nat.digits 10 n := by
        have hid : (Nat.digits 10 n).map (digitVal ∘ fun d => UInt8.ofNat (d + 0x30)) =
            (Nat.digits 10 n).map id := List.map_congr_left fun d hd => digitVal_ofNat (hlt d hd)
        rw [hid, List.map_id]
      rw [value, decimal, if_neg h, List.map_reverse, List.reverse_reverse, List.map_map, hmap,
        Nat.ofDigits_digits]

/-- No leading zeros, zero itself apart. -/
def Canonical (ds : List UInt8) : Prop := ds.head? = some 0x30 → ds = [0x30]

/-- Printing never writes a leading zero. -/
theorem decimal_canonical (n : ℕ) : Canonical (decimal n) := by
  intro hhead
  by_cases h : n = 0
  · simp [decimal, h]
  · have hlast := Nat.getLast_digit_ne_zero 10 h
    have hne : Nat.digits 10 n ≠ [] := Nat.digits_ne_nil_iff_ne_zero.mpr h
    have hlt : (Nat.digits 10 n).getLast hne < 10 :=
      Nat.digits_lt_base (by decide) (List.getLast_mem hne)
    have heq : UInt8.ofNat ((Nat.digits 10 n).getLast hne + 0x30) = 0x30 := by
      simpa [decimal, h, List.head?_reverse, List.getLast?_eq_some_getLast hne] using hhead
    have hz := digitVal_ofNat hlt
    rw [heq] at hz
    exact absurd hz.symm hlast

/-- A byte that was widened is narrowed to itself. -/
theorem ofInt_byte (n : UInt8) : UInt8.ofInt n.toNat = n := by
  have hlt := n.toNat_lt
  have hmod : ((n.toNat : ℤ) % 2 ^ 8).toNat = n.toNat := by omega
  rw [UInt8.ofInt, hmod, UInt8.ofNat_toNat]

end Rust.Num

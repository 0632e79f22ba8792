import Retorrent.Rustlib.Occurs
import Retorrent.Bencode.Parser

/-!
# The language of the parser

The byte strings that spell a bencode value. In the lenient style numerals may
carry a sign and leading zeros and dictionary keys may come in any order,
repeat, and hold any bytes: this is what the parser reads. The strict style fixes
one spelling of each value: this is what the encoder writes.
-/

namespace Retorrent

open Rust

inductive Style where
  | lenient
  | strict

/-- The pairs of a dictionary in the order of the text, with their raw keys. -/
abbrev RawEntries := List (List UInt8 × BencodeValue)

/-- Keys as the map stores them. -/
def decodeKeys (es : RawEntries) : List (Str × BencodeValue) :=
  es.map fun e => (Str.fromUtf8Lossy e.1, e.2)

/-- The map that reading the pairs one after another builds. -/
def dictOf (es : RawEntries) : BTreeMap Str BencodeValue := .ofEntries (decodeKeys es)

namespace Style

/-- The numerals allowed as the length of a string. -/
def Length : Style → List UInt8 → ℕ → Prop
  | lenient, num, n => Num.UnsignedNumeral num n
  | strict, num, n => num = Num.decimal n

/-- The numerals allowed as an integer. -/
def Integer : Style → List UInt8 → ℤ → Prop
  | lenient, num, i => Num.SignedNumeral num i ∧ badInteger num = false
  | strict, num, i => num = Num.decimalInt i

/-- The keys allowed in a dictionary. -/
def Keys : Style → RawEntries → Prop
  | lenient, _ => True
  | strict, es => (∀ e ∈ es, Utf8.isUtf8 e.1 = true) ∧ BTreeMap.Sorted (decodeKeys es)

/-- A length-prefixed string. -/
def Text (m : Style) (s body : List UInt8) : Prop :=
  ∃ num, m.Length num body.length ∧ body.length < 2 ^ 64 ∧ s = num ++ 0x3A :: body

end Style

/-- What a piece of bencoded text can stand for. -/
inductive Node where
  | value (v : BencodeValue)
  | items (l : List BencodeValue)
  | entries (es : RawEntries)

/-- `Spells m d n s`: at nesting depth `d`, the text `s` stands for `n`. -/
inductive Spells (m : Style) : ℕ → Node → List UInt8 → Prop where
  | integer {d : ℕ} {i : ℤ} {num : List UInt8} : d ≤ maxParseDepth → m.Integer num i →
      -(2 ^ 63 : ℤ) ≤ i → i < 2 ^ 63 → Spells m d (.value (.integer i)) (0x69 :: (num ++ [0x65]))
  | byteString {d : ℕ} {c : UInt8} {s body : List UInt8} : d ≤ maxParseDepth →
      Num.isDigit c = true → m.Text (c :: s) body →
      Spells m d (.value (.byteString body)) (c :: s)
  | list {d : ℕ} {l : List BencodeValue} {s : List UInt8} : d ≤ maxParseDepth →
      Spells m (d + 1) (.items l) s → Spells m d (.value (.list l)) (0x6C :: (s ++ [0x65]))
  | dict {d : ℕ} {es : RawEntries} {s : List UInt8} : d ≤ maxParseDepth → m.Keys es →
      Spells m (d + 1) (.entries es) s →
      Spells m d (.value (.dict (dictOf es))) (0x64 :: (s ++ [0x65]))
  | noItems {d : ℕ} : Spells m d (.items []) []
  | item {d : ℕ} {v : BencodeValue} {l : List BencodeValue} {s t : List UInt8} :
      Spells m d (.value v) s → Spells m d (.items l) t → Spells m d (.items (v :: l)) (s ++ t)
  | noEntries {d : ℕ} : Spells m d (.entries []) []
  | entry {d : ℕ} {key : List UInt8} {v : BencodeValue} {es : RawEntries}
      {k s t : List UInt8} : m.Text k key → Spells m d (.value v) s →
      Spells m d (.entries es) t → Spells m d (.entries ((key, v) :: es)) (k ++ (s ++ t))

theorem isDigit_ne_end {c : UInt8} (h : Num.isDigit c = true) : c ≠ 0x65 := by
  rintro rfl
  exact absurd h (by decide)

theorem UnsignedNumeral.head {num : List UInt8} {n : ℕ} (h : Num.UnsignedNumeral num n) :
    ∃ c t, num = c :: t ∧ c ≠ 0x65 := by
  obtain ⟨ds, ⟨hne, hd, _⟩, rfl | rfl⟩ := h
  · obtain ⟨c, t, rfl⟩ := List.exists_cons_of_ne_nil hne
    exact ⟨c, t, rfl, isDigit_ne_end (hd c (by simp))⟩
  · exact ⟨0x2B, ds, rfl, by decide⟩

namespace Style

variable {m : Style} {s body num : List UInt8}

theorem Length.unsignedNumeral {n : ℕ} (h : m.Length num n) : Num.UnsignedNumeral num n := by
  cases m with
  | lenient => exact h
  | strict => exact ⟨num, h ▸ Num.decimal_digits n, .inl rfl⟩

theorem Text.head (h : m.Text s body) : ∃ c t, s = c :: t ∧ c ≠ 0x65 := by
  obtain ⟨num, hn, _, rfl⟩ := h
  obtain ⟨c, t, rfl, hc⟩ := UnsignedNumeral.head hn.unsignedNumeral
  exact ⟨c, t ++ 0x3A :: body, rfl, hc⟩

theorem Text.lenient (h : m.Text s body) : Style.lenient.Text s body := by
  obtain ⟨num, hn, hlen, rfl⟩ := h
  exact ⟨num, hn.unsignedNumeral, hlen, rfl⟩

end Style

/-- No value starts with the byte that closes a list or a dictionary. -/
theorem Spells.head {m : Style} {d : ℕ} {v : BencodeValue} {s : List UInt8}
    (h : Spells m d (.value v) s) : ∃ c t, s = c :: t ∧ c ≠ 0x65 := by
  cases h with
  | integer => exact ⟨_, _, rfl, by decide⟩
  | byteString _ hc _ => exact ⟨_, _, rfl, isDigit_ne_end hc⟩
  | list => exact ⟨_, _, rfl, by decide⟩
  | dict => exact ⟨_, _, rfl, by decide⟩

theorem Spells.length_pos {m : Style} {d : ℕ} {v : BencodeValue} {s : List UInt8}
    (h : Spells m d (.value v) s) : 0 < s.length := by
  obtain ⟨c, t, rfl, _⟩ := h.head
  simp

theorem Style.Text.length_pos {m : Style} {s body : List UInt8} (h : m.Text s body) :
    0 < s.length := by
  obtain ⟨c, t, rfl, _⟩ := h.head
  simp

end Retorrent

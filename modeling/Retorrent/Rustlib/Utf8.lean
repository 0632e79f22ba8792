import Mathlib.Data.List.Basic
import Mathlib.Order.Nat

/-!
# UTF-8 as the Rust standard library reads it

`str::from_utf8` rejects the first ill-formed sequence, `String::from_utf8_lossy`
replaces each maximal ill-formed sequence by U+FFFD. Both walk the same front
decoder, so on well-formed input they agree.
-/

namespace Rust.Utf8

def isCont (b : UInt8) : Bool := 0x80 ≤ b && b ≤ 0xBF

/-- The width of the scalar that a leading byte announces, 0 if it leads none. -/
def charWidth (a : UInt8) : Nat :=
  if a < 0x80 then 1
  else if 0xC2 ≤ a && a ≤ 0xDF then 2
  else if 0xE0 ≤ a && a ≤ 0xEF then 3
  else if 0xF0 ≤ a && a ≤ 0xF4 then 4
  else 0

/-- The second byte also rules out overlong forms, surrogates and scalars above
U+10FFFF. -/
def secondOk (a b : UInt8) : Bool :=
  if a = 0xE0 then 0xA0 ≤ b && b ≤ 0xBF
  else if a = 0xED then 0x80 ≤ b && b ≤ 0x9F
  else if a = 0xF0 then 0x90 ≤ b && b ≤ 0xBF
  else if a = 0xF4 then 0x80 ≤ b && b ≤ 0x8F
  else isCont b

/-- What stands at the front of a byte string, with the number of bytes it takes.
`incomplete` is a scalar cut off by the end of the input. -/
inductive Front where
  | scalar (n : Nat)
  | invalid (n : Nat)
  | incomplete (n : Nat)
  deriving DecidableEq, Repr

/-- The remaining continuation bytes of a scalar whose first `seen` bytes are read. -/
def trail (seen : Nat) : Nat → List UInt8 → Front
  | 0, _ => .scalar seen
  | _ + 1, [] => .incomplete seen
  | k + 1, b :: t => if isCont b then trail (seen + 1) k t else .invalid seen

def front : List UInt8 → Front
  | [] => .incomplete 0
  | a :: t =>
    match charWidth a with
    | 0 => .invalid 1
    | 1 => .scalar 1
    | w + 2 =>
      match t with
      | [] => .incomplete 1
      | b :: u => if secondOk a b then trail 2 w u else .invalid 1

/-- `Utf8Error`. -/
structure Utf8Error where
  validUpTo : Nat
  errorLen : Option Nat
  deriving DecidableEq, Repr

/-- `Display for Utf8Error`. -/
def Utf8Error.text (e : Utf8Error) : String :=
  match e.errorLen with
  | some n => "invalid utf-8 sequence of " ++ toString n ++ " bytes from index " ++
      toString e.validUpTo
  | none => "incomplete utf-8 byte sequence from index " ++ toString e.validUpTo

/-- `run_utf8_validation`. The first argument bounds the number of scalars. -/
def validate : Nat → Nat → List UInt8 → Option Utf8Error
  | 0, _, _ => none
  | _ + 1, _, [] => none
  | n + 1, off, a :: t =>
    match front (a :: t) with
    | .scalar k => validate n (off + k) ((a :: t).drop k)
    | .invalid k => some ⟨off, some k⟩
    | .incomplete _ => some ⟨off, none⟩

def check (bs : List UInt8) : Option Utf8Error := validate bs.length 0 bs

def isUtf8 (bs : List UInt8) : Bool := (check bs).isNone

/-- The encoding of U+FFFD. -/
def replacement : List UInt8 := [0xEF, 0xBF, 0xBD]

def lossyAux : Nat → List UInt8 → List UInt8
  | 0, _ => []
  | _ + 1, [] => []
  | n + 1, a :: t =>
    match front (a :: t) with
    | .scalar k => (a :: t).take k ++ lossyAux n ((a :: t).drop k)
    | .invalid k => replacement ++ lossyAux n ((a :: t).drop k)
    | .incomplete _ => replacement

/-- `String::from_utf8_lossy`. -/
def lossy (bs : List UInt8) : List UInt8 := lossyAux bs.length bs

/-- Byte strings that are a sequence of scalars. -/
inductive Valid : List UInt8 → Prop where
  | nil : Valid []
  | cons {bs : List UInt8} {k : Nat} : front bs = .scalar k → Valid (bs.drop k) → Valid bs

theorem trail_scalar {seen k m : Nat} {t : List UInt8} (h : trail seen k t = .scalar m) :
    m = seen + k ∧ k ≤ t.length ∧ ∀ r, trail seen k (t.take k ++ r) = .scalar m := by
  induction k generalizing seen t with
  | zero =>
    simp only [trail, Front.scalar.injEq] at h
    exact ⟨by omega, Nat.zero_le _, fun r => by simp [trail, h]⟩
  | succ k ih =>
    cases t with
    | nil => simp [trail] at h
    | cons b t =>
      simp only [trail] at h
      split at h
      · next hb =>
        obtain ⟨hm, hk, hr⟩ := ih h
        refine ⟨by omega, by simpa using hk, fun r => ?_⟩
        simpa [trail, hb] using hr r
      · simp at h

/-- A scalar at the front is decided by its own bytes. -/
theorem front_scalar {bs : List UInt8} {k : Nat} (h : front bs = .scalar k) :
    1 ≤ k ∧ k ≤ bs.length ∧ ∀ r, front (bs.take k ++ r) = .scalar k := by
  cases bs with
  | nil => simp [front] at h
  | cons a t =>
    simp only [front] at h
    split at h
    · simp at h
    · next hw =>
      simp only [Front.scalar.injEq] at h
      subst h
      exact ⟨le_rfl, by simp, fun r => by simp [front, hw]⟩
    · next w hw =>
      cases t with
      | nil => simp at h
      | cons b u =>
        simp only at h
        split at h
        · next hb =>
          obtain ⟨hm, hk, hr⟩ := trail_scalar h
          subst hm
          refine ⟨by omega, by simp only [List.length_cons]; omega, fun r => ?_⟩
          have htake : (a :: b :: u).take (2 + w) = a :: b :: u.take w := by
            rw [Nat.add_comm]
            rfl
          simp [htake, front, hw, hb, hr r]
        · simp at h

theorem Valid.scalar_append {c bs : List UInt8} {k : Nat} (hc : front c = .scalar k)
    (hlen : c.length = k) (h : Valid bs) : Valid (c ++ bs) := by
  have hf := (front_scalar hc).2.2 bs
  rw [← hlen, List.take_length] at hf
  exact .cons hf (by simpa using h)

theorem Valid.append {a b : List UInt8} (ha : Valid a) (hb : Valid b) : Valid (a ++ b) := by
  induction ha with
  | nil => exact hb
  | @cons bs k hf _ ih =>
    obtain ⟨_, hk, hr⟩ := front_scalar hf
    have hlen : (bs.take k).length = k := by simp [hk]
    have hfront : front (bs.take k) = .scalar k := by simpa using hr []
    have hcat := Valid.scalar_append hfront hlen ih
    rwa [← List.append_assoc, List.take_append_drop] at hcat

/-- ASCII is UTF-8. -/
theorem Valid.of_ascii {bs : List UInt8} (h : ∀ b ∈ bs, b < 0x80) : Valid bs := by
  induction bs with
  | nil => exact .nil
  | cons a t ih =>
    have ha : charWidth a = 1 := by simp [charWidth, h a (by simp)]
    have hf : front (a :: t) = .scalar 1 := by simp [front, ha]
    exact .cons hf (ih fun b hb => h b (by simp [hb]))

theorem valid_replacement : Valid replacement :=
  .cons (k := 3) (by decide) .nil

theorem validate_eq_none {n off : Nat} {bs : List UInt8} (hn : bs.length ≤ n) :
    validate n off bs = none ↔ Valid bs := by
  induction n generalizing off bs with
  | zero =>
    obtain rfl : bs = [] := List.length_eq_zero_iff.mp (by omega)
    simp [validate, Valid.nil]
  | succ n ih =>
    cases bs with
    | nil => simp [validate, Valid.nil]
    | cons a t =>
      cases hf : front (a :: t) with
      | scalar k =>
        have hk := (front_scalar hf).1
        simp only [validate, hf]
        rw [ih (by simp only [List.length_drop, List.length_cons] at hn ⊢; omega)]
        refine ⟨.cons hf, fun h => ?_⟩
        cases h with
        | cons hf' h' =>
          rw [hf, Front.scalar.injEq] at hf'
          exact hf' ▸ h'
      | invalid k =>
        simp only [validate, hf, reduceCtorEq, false_iff]
        intro h
        cases h with
        | cons hf' _ => simp [hf] at hf'
      | incomplete k =>
        simp only [validate, hf, reduceCtorEq, false_iff]
        intro h
        cases h with
        | cons hf' _ => simp [hf] at hf'

theorem check_eq_none {bs : List UInt8} : check bs = none ↔ Valid bs :=
  validate_eq_none le_rfl

theorem isUtf8_iff {bs : List UInt8} : isUtf8 bs = true ↔ Valid bs := by
  rw [isUtf8, Option.isNone_iff_eq_none, check_eq_none]

theorem lossyAux_of_valid {n : Nat} {bs : List UInt8} (h : Valid bs) (hn : bs.length ≤ n) :
    lossyAux n bs = bs := by
  induction h generalizing n with
  | nil => cases n <;> rfl
  | @cons bs k hf _ ih =>
    obtain ⟨h1, hk, _⟩ := front_scalar hf
    match n, bs with
    | 0, bs => omega
    | n + 1, [] => simp [front] at hf
    | n + 1, a :: t =>
      rw [lossyAux, hf]
      simp only
      rw [ih (by simp only [List.length_drop, List.length_cons] at hn ⊢; omega),
        List.take_append_drop]

/-- Lossy decoding leaves well-formed input alone. -/
theorem lossy_of_valid {bs : List UInt8} (h : Valid bs) : lossy bs = bs :=
  lossyAux_of_valid h le_rfl

theorem valid_lossyAux (n : Nat) (bs : List UInt8) : Valid (lossyAux n bs) := by
  induction n generalizing bs with
  | zero => exact .nil
  | succ n ih =>
    cases bs with
    | nil => exact .nil
    | cons a t =>
      cases hf : front (a :: t) with
      | scalar k =>
        obtain ⟨_, hk, hr⟩ := front_scalar hf
        simp only [lossyAux, hf]
        refine Valid.scalar_append (k := k) ?_ (by simp only [List.length_take]; omega) (ih _)
        simpa using hr []
      | invalid k =>
        simp only [lossyAux, hf]
        exact valid_replacement.append (ih _)
      | incomplete k =>
        simp only [lossyAux, hf]
        exact valid_replacement

/-- Lossy decoding always yields a string. -/
theorem valid_lossy (bs : List UInt8) : Valid (lossy bs) := valid_lossyAux _ _

theorem lossyAux_ascii {n : Nat} {bs : List UInt8} (hn : bs.length ≤ n)
    (h : ∀ b ∈ lossyAux n bs, b < 0x80) : lossyAux n bs = bs := by
  induction n generalizing bs with
  | zero =>
    obtain rfl : bs = [] := List.length_eq_zero_iff.mp (by omega)
    rfl
  | succ n ih =>
    cases bs with
    | nil => rfl
    | cons a t =>
      cases hf : front (a :: t) with
      | scalar k =>
        have hk := (front_scalar hf).1
        simp only [lossyAux, hf] at h ⊢
        rw [ih (by simp only [List.length_drop, List.length_cons] at hn ⊢; omega)
          fun b hb => h b (List.mem_append_right _ hb), List.take_append_drop]
      | invalid k =>
        simp only [lossyAux, hf] at h
        exact absurd (h 0xEF (by simp [replacement])) (by decide)
      | incomplete k =>
        simp only [lossyAux, hf] at h
        exact absurd (h 0xEF (by simp [replacement])) (by decide)

/-- Replacement characters are not ASCII, so a lossy result in ASCII is the input. -/
theorem eq_of_lossy_ascii {bs : List UInt8} (h : ∀ b ∈ lossy bs, b < 0x80) : lossy bs = bs :=
  lossyAux_ascii le_rfl h

end Rust.Utf8

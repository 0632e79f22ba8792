import Retorrent.Bencode.RoundTrip

/-!
# Nesting that the parser reads

The parser reads the encoding of a value exactly when the value is nested no deeper than its limit.
-/

namespace Retorrent

open Rust BencodeValue

/-- What comes before the first `c` is fixed by the text. -/
theorem eq_of_append_cons_eq {c : UInt8} {s t r q : List UInt8} (hs : c ∉ s) (ht : c ∉ t)
    (h : s ++ c :: r = t ++ c :: q) : s = t ∧ r = q := by
  induction s generalizing t with
  | nil =>
    cases t with
    | nil => exact ⟨rfl, List.cons.inj h |>.2⟩
    | cons b t => exact absurd (List.mem_cons.mpr (.inl (List.cons.inj h).1)) ht
  | cons a s ih =>
    cases t with
    | nil => exact absurd (List.mem_cons.mpr (.inl (List.cons.inj h).1.symm)) hs
    | cons b t =>
      obtain ⟨rfl, htail⟩ := List.cons.inj h
      obtain ⟨rfl, rfl⟩ := ih (fun hmem => hs (List.mem_cons_of_mem _ hmem))
        (fun hmem => ht (List.mem_cons_of_mem _ hmem)) htail
      exact ⟨rfl, rfl⟩

theorem UnsignedNumeral.unique {num : List UInt8} {n n' : ℕ} (h : Num.UnsignedNumeral num n)
    (h' : Num.UnsignedNumeral num n') : n = n' := by
  have hp := Num.parseUnsigned_eq_ok.mpr ⟨h, Nat.le_max_left n n'⟩
  have hp' := Num.parseUnsigned_eq_ok.mpr ⟨h', Nat.le_max_right n n'⟩
  exact Except.ok.inj (hp.symm.trans hp')

/-- A string that stands where the encoder wrote one is the one that it wrote. -/
theorem Style.Text.eq_encoded {s body body' r q : List UInt8} (h : Style.lenient.Text s body)
    (heq : s ++ r = Num.decimal body'.length ++ 0x3A :: body' ++ q) :
    s = Num.decimal body'.length ++ 0x3A :: body' ∧ r = q := by
  obtain ⟨num, hnum, _, rfl⟩ := h
  have hnum : Num.UnsignedNumeral num body.length := hnum
  have hdecimal : Num.UnsignedNumeral (Num.decimal body'.length) body'.length :=
    ⟨_, Num.decimal_digits _, .inl rfl⟩
  simp only [List.append_assoc, List.cons_append] at heq
  obtain ⟨rfl, htail⟩ := eq_of_append_cons_eq
    (not_mem_of_unsignedNumeral hnum (by decide) (by decide))
    (not_mem_of_unsignedNumeral hdecimal (by decide) (by decide)) heq
  obtain ⟨rfl, rfl⟩ := List.append_inj htail (UnsignedNumeral.unique hnum hdecimal)
  exact ⟨rfl, rfl⟩

/-- The first byte of an encoding tells the kind of the value. -/
theorem encodeValue_head (v : BencodeValue) : ∃ c t, encodeValue v = c :: t ∧ c ≠ 0x65 ∧
    (c = 0x69 ↔ ∃ i, v = .integer i) ∧ (Num.isDigit c = true ↔ ∃ s, v = .byteString s) ∧
    (c = 0x6C ↔ ∃ l, v = .list l) ∧ (c = 0x64 ↔ ∃ m, v = .dict m) := by
  cases v with
  | byteString s =>
    obtain ⟨a, t, hat, ha⟩ := decimal_cons s.length
    have hne (c : UInt8) (hc : Num.isDigit c = false) : a ≠ c := by
      rintro rfl
      exact absurd ha (by rw [hc]; decide)
    refine ⟨a, t ++ 0x3A :: s, by rw [encodeValue, hat]; rfl, hne _ (by decide), ?_⟩
    simp [ha, hne 0x69 (by decide), hne 0x6C (by decide), hne 0x64 (by decide)]
  | integer i =>
    refine ⟨_, _, by rw [encodeValue], by decide, ?_⟩
    simp
    decide
  | list l =>
    refine ⟨_, _, by rw [encodeValue], by decide, ?_⟩
    simp
    decide
  | dict m =>
    refine ⟨_, _, by rw [encodeValue], by decide, ?_⟩
    simp
    decide

section Head

variable {v : BencodeValue} {s q : List UInt8}

/-- Where an encoding begins like that of an integer, it is one. -/
theorem eq_integer_of_head (heq : 0x69 :: s = encodeValue v ++ q) :
    ∃ i, v = .integer i ∧ s = Num.decimalInt i ++ 0x65 :: q := by
  obtain ⟨c, t, hct, _, hinteger, _⟩ := encodeValue_head v
  rw [hct] at heq
  obtain ⟨i, rfl⟩ := hinteger.mp (List.cons.inj heq).1.symm
  rw [← hct, encodeValue] at heq
  simp only [List.cons_append, List.append_assoc, List.nil_append, List.cons.injEq,
    true_and] at heq
  exact ⟨i, rfl, heq⟩

theorem eq_list_of_head (heq : 0x6C :: s = encodeValue v ++ q) :
    ∃ l, v = .list l ∧ s = encodeItems l ++ 0x65 :: q := by
  obtain ⟨c, t, hct, _, _, _, hlist, _⟩ := encodeValue_head v
  rw [hct] at heq
  obtain ⟨l, rfl⟩ := hlist.mp (List.cons.inj heq).1.symm
  rw [← hct, encodeValue] at heq
  simp only [List.cons_append, List.append_assoc, List.nil_append, List.cons.injEq,
    true_and] at heq
  exact ⟨l, rfl, heq⟩

theorem eq_dict_of_head (heq : 0x64 :: s = encodeValue v ++ q) :
    ∃ m, v = .dict m ∧ s = encodeEntries m ++ 0x65 :: q := by
  obtain ⟨c, t, hct, _, _, _, _, hdict⟩ := encodeValue_head v
  rw [hct] at heq
  obtain ⟨m, rfl⟩ := hdict.mp (List.cons.inj heq).1.symm
  rw [← hct, encodeValue] at heq
  simp only [List.cons_append, List.append_assoc, List.nil_append, List.cons.injEq,
    true_and] at heq
  exact ⟨m, rfl, heq⟩

end Head

/-- At depth `d`, what is nested in the value is within the limit of the parser. -/
def Within (d : ℕ) (v : BencodeValue) : Prop := ∀ k u, SubAt k u v → d + k ≤ maxParseDepth

theorem within_leaf {d : ℕ} (hd : d ≤ maxParseDepth) (i : ℤ) (s : List UInt8) :
    Within d (.integer i) ∧ Within d (.byteString s) := by
  constructor
  · intro k u hu
    cases hu
    exact hd
  · intro k u hu
    cases hu
    exact hd

theorem within_list {d : ℕ} (hd : d ≤ maxParseDepth) {l : List BencodeValue}
    (h : ∀ v ∈ l, Within (d + 1) v) : Within d (.list l) := by
  intro k u hu
  cases hu with
  | root => exact hd
  | item hv hu =>
    have := h _ hv _ _ hu
    omega

theorem within_dict {d : ℕ} (hd : d ≤ maxParseDepth) {m : BTreeMap Str BencodeValue}
    (h : ∀ e ∈ m, Within (d + 1) e.2) : Within d (.dict m) := by
  intro k u hu
  cases hu with
  | root => exact hd
  | entry he hu =>
    have := h _ he _ _ hu
    omega

/-- A text at depth `d` that stands where an encoding stands is that encoding, and what it encodes
is within the limit. -/
def Retraces (d : ℕ) (s : List UInt8) : Node → Prop
  | .value _ => ∀ v r q, s ++ r = encodeValue v ++ q → s = encodeValue v ∧ r = q ∧ Within d v
  | .items _ => ∀ l r q, s ++ 0x65 :: r = encodeItems l ++ 0x65 :: q →
      s = encodeItems l ∧ r = q ∧ ∀ v ∈ l, Within d v
  | .entries _ => ∀ m r q, s ++ 0x65 :: r = encodeEntries m ++ 0x65 :: q →
      s = encodeEntries m ∧ r = q ∧ ∀ e ∈ m, Within d e.2

theorem Spells.retraces {d : ℕ} {n : Node} {s : List UInt8} (h : Spells .lenient d n s) :
    Retraces d s n := by
  induction h with
  | @integer d i num hd hnum =>
    intro v r q heq
    simp only [List.cons_append, List.append_assoc, List.nil_append] at heq
    obtain ⟨j, rfl, hbody⟩ := eq_integer_of_head heq
    obtain ⟨rfl, rfl⟩ := eq_of_append_cons_eq
      (not_mem_of_signedNumeral hnum.1 (by decide) (by decide) (by decide))
      (not_mem_of_signedNumeral (signedNumeral_decimalInt j) (by decide) (by decide) (by decide))
      hbody
    rw [encodeValue]
    exact ⟨rfl, rfl, (within_leaf hd j []).1⟩
  | @byteString d a s body hd ha htext =>
    intro v r q heq
    obtain ⟨c, t, hct, _, _, hstring, _⟩ := encodeValue_head v
    rw [hct] at heq
    obtain ⟨body', rfl⟩ := hstring.mp ((List.cons.inj heq).1 ▸ ha)
    rw [← hct, encodeValue] at heq
    obtain ⟨hs, rfl⟩ := htext.eq_encoded heq
    rw [encodeValue]
    exact ⟨hs, rfl, (within_leaf hd 0 body').2⟩
  | @list d l s hd _ ih =>
    intro v r q heq
    simp only [List.cons_append, List.append_assoc, List.nil_append] at heq
    obtain ⟨l', rfl, hbody⟩ := eq_list_of_head heq
    obtain ⟨rfl, rfl, hl⟩ := ih l' r q hbody
    rw [encodeValue]
    exact ⟨rfl, rfl, within_list hd hl⟩
  | @dict d es s hd _ _ ih =>
    intro v r q heq
    simp only [List.cons_append, List.append_assoc, List.nil_append] at heq
    obtain ⟨m, rfl, hbody⟩ := eq_dict_of_head heq
    obtain ⟨rfl, rfl, hm⟩ := ih m r q hbody
    rw [encodeValue]
    exact ⟨rfl, rfl, within_dict hd hm⟩
  | noItems =>
    intro l r q heq
    cases l with
    | nil => exact ⟨by rw [encodeItems], (List.cons.inj heq).2, by simp⟩
    | cons v l =>
      obtain ⟨c, t, hct, hc, _⟩ := encodeValue_head v
      rw [encodeItems, hct] at heq
      exact absurd (List.cons.inj heq).1.symm hc
  | @item d v l s t hv _ ihs iht =>
    intro l' r q heq
    cases l' with
    | nil =>
      obtain ⟨c, t', rfl, hc⟩ := hv.head
      rw [encodeItems] at heq
      exact absurd (List.cons.inj heq).1 hc
    | cons v' l' =>
      rw [encodeItems, List.append_assoc, List.append_assoc] at heq
      obtain ⟨rfl, heq, hv'⟩ := ihs v' _ _ heq
      obtain ⟨rfl, rfl, hl'⟩ := iht l' r q heq
      rw [encodeItems]
      exact ⟨rfl, rfl, List.forall_mem_cons.mpr ⟨hv', hl'⟩⟩
  | noEntries =>
    intro m r q heq
    cases m with
    | nil => exact ⟨by rw [encodeEntries], (List.cons.inj heq).2, by simp⟩
    | cons e m =>
      obtain ⟨key, v⟩ := e
      obtain ⟨a, t, hat, ha⟩ := decimal_cons key.bytes.length
      rw [encodeEntries, hat] at heq
      exact absurd (List.cons.inj heq).1.symm (isDigit_ne_end ha)
  | @entry d key v es k s t hk _ _ ihs iht =>
    intro m r q heq
    cases m with
    | nil =>
      obtain ⟨c, t', rfl, hc⟩ := hk.head
      rw [encodeEntries] at heq
      exact absurd (List.cons.inj heq).1 hc
    | cons e m =>
      obtain ⟨key', v'⟩ := e
      rw [encodeEntries] at heq ⊢
      simp only [List.append_assoc] at heq
      rw [← List.append_assoc (Num.decimal _)] at heq
      obtain ⟨rfl, hvalue⟩ := hk.eq_encoded heq
      obtain ⟨rfl, hentries, hv'⟩ := ihs v' _ _ hvalue
      obtain ⟨rfl, rfl, hm⟩ := iht m r q hentries
      exact ⟨by simp only [List.append_assoc], rfl, List.forall_mem_cons.mpr ⟨hv', hm⟩⟩

/-- The encoding of a value of the Rust type is read exactly when the value is within the limit. -/
theorem parse_encode_iff {b : Build} {v w : BencodeValue} {x : Bytes} {n : ℕ} (hv : Fits n v)
    (hx : encode v = .ok x) : parse b x = .ok w ↔ Within 0 v ∧ w = v := by
  have hread (hwithin : Within 0 v) : parse b x = .ok v := by
    refine parse_encode_of_fits ?_ hx
    intro k u hu
    exact ⟨by simpa using hwithin k u hu, (hv k u hu).2⟩
  constructor
  · intro hparse
    obtain ⟨s, hs, r, hr⟩ := parse_eq_ok.mp hparse
    rw [Bytes.ofList_eq_ok.mp hx, ← List.append_nil (encodeValue v)] at hr
    obtain ⟨_, _, hwithin⟩ := hs.retraces v r [] hr
    exact ⟨hwithin, Outcome.ok.inj (hparse.symm.trans (hread hwithin))⟩
  · rintro ⟨hwithin, rfl⟩
    exact hread hwithin

end Retorrent

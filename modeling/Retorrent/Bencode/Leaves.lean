import Retorrent.Bencode.Grammar

/-!
# Strings and integers

What the two leaf parsers accept, and when they panic. A string parser panics
only on a length so large that the end of the string does not fit a `usize`;
the integer parser never does.
-/

namespace Retorrent

open Rust

section Numerals

theorem not_mem_of_unsignedNumeral {num : List UInt8} {n : ℕ} {c : UInt8}
    (h : Num.UnsignedNumeral num n) (hc : Num.isDigit c = false) (hplus : c ≠ 0x2B) :
    c ∉ num := by
  obtain ⟨ds, ⟨_, hd, _⟩, rfl | rfl⟩ := h
  · intro hmem
    simp [hd c hmem] at hc
  · intro hmem
    rcases List.mem_cons.mp hmem with rfl | hmem
    · exact hplus rfl
    · simp [hd c hmem] at hc

theorem not_mem_of_signedNumeral {num : List UInt8} {i : ℤ} {c : UInt8}
    (h : Num.SignedNumeral num i) (hc : Num.isDigit c = false) (hplus : c ≠ 0x2B)
    (hminus : c ≠ 0x2D) : c ∉ num := by
  obtain ⟨ds, n, hd, ⟨h, _⟩ | ⟨rfl, _⟩⟩ := h
  · exact not_mem_of_unsignedNumeral ⟨ds, hd, h⟩ hc hplus
  · intro hmem
    rcases List.mem_cons.mp hmem with rfl | hmem
    · exact hminus rfl
    · simp [hd.2.1 c hmem] at hc

theorem lt_of_isDigit {c : UInt8} (h : Num.isDigit c = true) : c < 0x80 := by
  have hc := Num.isDigit_iff.mp h
  rw [UInt8.lt_iff_toNat_lt]
  exact lt_of_le_of_lt hc.2 (by decide)

theorem lt_of_mem_signedNumeral {num : List UInt8} {i : ℤ} (h : Num.SignedNumeral num i)
    {c : UInt8} (hc : c ∈ num) : c < 0x80 := by
  obtain ⟨ds, n, ⟨_, hd, _⟩, ⟨rfl | rfl, _⟩ | ⟨rfl, _⟩⟩ := h
  · exact lt_of_isDigit (hd c hc)
  · rcases List.mem_cons.mp hc with rfl | hc
    · decide
    · exact lt_of_isDigit (hd c hc)
  · rcases List.mem_cons.mp hc with rfl | hc
    · decide
    · exact lt_of_isDigit (hd c hc)

theorem signedNumeral_of_unsigned {num : List UInt8} {n : ℕ} (h : Num.UnsignedNumeral num n) :
    Num.SignedNumeral num n := by
  obtain ⟨ds, hd, h⟩ := h
  exact ⟨ds, n, hd, .inl ⟨h, rfl⟩⟩

theorem strOf_eq_ok {bs : List UInt8} {s : Str} : strOf bs = .ok s ↔ s.bytes = bs := by
  rw [← Str.fromUtf8_eq_ok, strOf]
  cases Str.fromUtf8 bs <;> simp

theorem strOf_returns (bs : List UInt8) : (strOf bs).Returns := by
  rw [strOf]
  split <;> trivial

theorem intOf_eq_ok {α : Type} {r : Except Num.ParseIntError α} {n : α} :
    intOf r = .ok n ↔ r = .ok n := by
  cases r <;> simp [intOf]

theorem intOf_returns {α : Type} (r : Except Num.ParseIntError α) : (intOf r).Returns := by
  cases r <;> trivial

/-- Numerals are strings. -/
theorem strOf_signedNumeral {num : List UInt8} {i : ℤ} (h : Num.SignedNumeral num i) :
    ∃ s : Str, strOf num = .ok s ∧ s.bytes = num := by
  have hv : Utf8.isUtf8 num = true :=
    Utf8.isUtf8_iff.mpr (.of_ascii fun _ => lt_of_mem_signedNumeral h)
  exact ⟨⟨num, hv⟩, strOf_eq_ok.mpr rfl, rfl⟩

end Numerals

variable {b : Build} {data : List UInt8} {pos next : ℕ}

/-- A length prefix: a numeral in the `usize` range and a colon. -/
def LengthPrefix (data : List UInt8) (pos : ℕ) (num : List UInt8) (n : ℕ) : Prop :=
  Num.UnsignedNumeral num n ∧ n < 2 ^ 64 ∧ Occurs data pos (num ++ [0x3A])

/-- The string announced at `pos` would end beyond the `usize` range. -/
def LengthOverflow (data : List UInt8) (pos : ℕ) : Prop :=
  ∃ num n, LengthPrefix data pos num n ∧ 2 ^ 64 ≤ pos + num.length + 1 + n

/-- `parse_byte_string` after its length prefix. -/
def readBody (b : Build) (data : List UInt8) (start len : ℕ) : Res (BencodeValue × ℕ) := do
  let stop ← b.addUsize start len
  if data.length < stop then
    .err (.bencodeParse (.ascii "String extends past end of data"))
  else do
    let body ← slice data start stop
    return (.byteString body, stop)

theorem LengthPrefix.length_le {num : List UInt8} {n : ℕ} (h : LengthPrefix data pos num n) :
    pos + num.length + 1 ≤ data.length := by
  have hle := h.2.2.add_le (by simp)
  simp only [List.length_append, List.length_singleton] at hle
  omega

/-- The first colon delimits the length prefix. -/
theorem findIdx?_of_lengthPrefix {num : List UInt8} {n : ℕ} (h : LengthPrefix data pos num n) :
    (data.drop pos).findIdx? (· == 0x3A) = some num.length :=
  findIdx?_eq_some.mpr
    ⟨num, rfl, not_mem_of_unsignedNumeral h.1 (by decide) (by decide), h.2.2⟩

theorem LengthPrefix.unique {num num' : List UInt8} {n n' : ℕ}
    (h : LengthPrefix data pos num n) (h' : LengthPrefix data pos num' n') :
    num = num' ∧ n = n' := by
  have hidx := (findIdx?_of_lengthPrefix h).symm.trans (findIdx?_of_lengthPrefix h')
  have hnum : num = num' :=
    ((Occurs.append_iff.mp h.2.2).1).eq_of_length_eq (Occurs.append_iff.mp h'.2.2).1
      (Option.some.inj hidx)
  subst hnum
  have hp := Num.parseUnsigned_eq_ok.mpr ⟨h.1, Nat.le_sub_one_of_lt h.2.1⟩
  have hp' := Num.parseUnsigned_eq_ok.mpr ⟨h'.1, Nat.le_sub_one_of_lt h'.2.1⟩
  exact ⟨rfl, Except.ok.inj (hp.symm.trans hp')⟩

theorem parseByteString_of_lengthPrefix (hlen : data.length < 2 ^ 63) {num : List UInt8} {n : ℕ}
    (h : LengthPrefix data pos num n) :
    parseByteString b data pos = readBody b data (pos + num.length + 1) n := by
  have hle := h.length_le
  obtain ⟨s, hs, hsb⟩ := strOf_signedNumeral (signedNumeral_of_unsigned h.1)
  have hnum : Occurs data pos num := (Occurs.append_iff.mp h.2.2).1
  have hint : intOf (Num.parseUnsigned (2 ^ 64 - 1) s.bytes) = .ok n :=
    intOf_eq_ok.mpr (Num.parseUnsigned_eq_ok.mpr ⟨hsb ▸ h.1, Nat.le_sub_one_of_lt h.2.1⟩)
  rw [parseByteString]
  rw [sliceFrom_of_le (by omega), Outcome.ok_bind, findIdx?_of_lengthPrefix h,
    Outcome.ofOption, Outcome.ok_bind, Build.addUsize_of_lt b (by omega), Outcome.ok_bind,
    Nat.add_comm num.length pos, slice_of_occurs (by omega) hnum, Outcome.ok_bind, hs,
    Outcome.ok_bind, hint, Outcome.ok_bind, Build.addUsize_of_lt b (by omega), Outcome.ok_bind]
  rfl

/-- Without a length prefix, the string parser reports an error. -/
theorem parseByteString_of_not_lengthPrefix (hlen : data.length < 2 ^ 63)
    (hpos : pos ≤ data.length) (h : ¬ ∃ num n, LengthPrefix data pos num n) :
    ∃ e, parseByteString b data pos = .err e := by
  rw [parseByteString]
  rw [sliceFrom_of_le hpos, Outcome.ok_bind]
  cases hidx : (data.drop pos).findIdx? (· == 0x3A) with
  | none => exact ⟨_, rfl⟩
  | some off =>
    obtain ⟨num, rfl, _, hocc⟩ := findIdx?_eq_some.mp hidx
    have hle := hocc.add_le (by simp)
    simp only [List.length_append, List.length_singleton] at hle
    rw [Outcome.ofOption, Outcome.ok_bind, Build.addUsize_of_lt b (by omega), Outcome.ok_bind,
      Nat.add_comm num.length pos, slice_of_occurs hpos (Occurs.append_iff.mp hocc).1,
      Outcome.ok_bind]
    cases hs : strOf num with
    | err e => exact ⟨e, rfl⟩
    | panic c => simpa [hs] using strOf_returns num
    | hang => simpa [hs] using strOf_returns num
    | ok s =>
      rw [Outcome.ok_bind]
      cases hn : Num.parseUnsigned (2 ^ 64 - 1) s.bytes with
      | error e => exact ⟨_, rfl⟩
      | ok n =>
        obtain ⟨hnum, hn⟩ := Num.parseUnsigned_eq_ok.mp hn
        rw [strOf_eq_ok.mp hs] at hnum
        exact absurd ⟨num, n, hnum, Nat.lt_of_le_pred (by decide) hn, hocc⟩ h

/-- A string that ends beyond the `usize` range panics in either build. -/
theorem readBody_overflow {start n : ℕ} (hstart : start ≤ data.length)
    (hlen : data.length < 2 ^ 63) (hn : n < 2 ^ 64) (h : 2 ^ 64 ≤ start + n) :
    ∃ c, readBody b data start n = .panic c := by
  rw [readBody]
  cases b with
  | debug => exact ⟨.addOverflow, by rw [Build.addUsize, Build.add_debug_of_le h]; rfl⟩
  | release =>
    -- the wrapped end passes the bounds check but lies before the start
    have hadd : (Build.release.addUsize start n : Res ℕ) = .ok (start + n - 2 ^ 64) :=
      Build.add_release_of_le (by omega) hn h
    have hs : (slice data start (start + n - 2 ^ 64) : Res _) = .panic .sliceOrder :=
      if_pos (by omega)
    exact ⟨.sliceOrder, by rw [hadd, Outcome.ok_bind, if_neg (by omega), hs]; rfl⟩

theorem readBody_eq_ok {start n : ℕ} {v : BencodeValue} (hstart : start ≤ data.length)
    (hlen : data.length < 2 ^ 63) (hn : n < 2 ^ 64) :
    readBody b data start n = .ok (v, next) ↔
      ∃ body, body.length = n ∧ Occurs data start body ∧ v = .byteString body ∧
        next = start + n := by
  by_cases hadd : start + n < 2 ^ 64
  · rw [readBody]
    rw [Build.addUsize_of_lt b hadd, Outcome.ok_bind]
    by_cases hend : data.length < start + n
    · rw [if_pos hend]
      simp only [reduceCtorEq, false_iff]
      rintro ⟨body, rfl, hocc, _⟩
      have := hocc.length_le
      omega
    · rw [if_neg hend, Outcome.bind_eq_ok]
      constructor
      · rintro ⟨body, hs, hv⟩
        obtain ⟨_, _, hocc, hl⟩ := slice_eq_ok hs
        simp only [Outcome.pure_eq, Outcome.ok.injEq, Prod.mk.injEq] at hv
        exact ⟨body, by omega, hocc, hv.1.symm, hv.2.symm⟩
      · rintro ⟨body, rfl, hocc, rfl, rfl⟩
        exact ⟨body, slice_of_occurs hstart hocc, rfl⟩
  · obtain ⟨c, hc⟩ := readBody_overflow (b := b) hstart hlen hn (by omega)
    rw [hc]
    simp only [reduceCtorEq, false_iff]
    rintro ⟨body, rfl, hocc, _⟩
    have := hocc.length_le
    omega

theorem readBody_returns {start n : ℕ} (hstart : start ≤ data.length)
    (hlen : data.length < 2 ^ 63) (hn : n < 2 ^ 64) :
    (readBody b data start n).Returns ↔ start + n < 2 ^ 64 := by
  by_cases hadd : start + n < 2 ^ 64
  · rw [readBody]
    simp only [Build.addUsize_of_lt b hadd, Outcome.ok_bind, hadd, iff_true]
    split
    · trivial
    · rw [slice_of_le (by omega) (by omega)]
      trivial
  · obtain ⟨c, hc⟩ := readBody_overflow (b := b) hstart hlen hn (by omega)
    simp only [hc, Outcome.not_returns_panic, hadd]

/-- The string parser accepts the lenient strings. -/
theorem parseByteString_eq_ok (hlen : data.length < 2 ^ 63) (hpos : pos ≤ data.length)
    {v : BencodeValue} :
    parseByteString b data pos = .ok (v, next) ↔
      ∃ s body, Style.lenient.Text s body ∧ Occurs data pos s ∧ v = .byteString body ∧
        next = pos + s.length := by
  by_cases h : ∃ num n, LengthPrefix data pos num n
  · obtain ⟨num, n, h⟩ := h
    have hle := h.length_le
    rw [parseByteString_of_lengthPrefix hlen h, readBody_eq_ok (by omega) hlen h.2.1]
    constructor
    · rintro ⟨body, rfl, hocc, rfl, rfl⟩
      refine ⟨num ++ 0x3A :: body, body, ⟨num, h.1, h.2.1, rfl⟩, ?_, rfl, ?_⟩
      · rw [List.append_cons, Occurs.append_iff]
        exact ⟨h.2.2, by simpa [Nat.add_assoc] using hocc⟩
      · simp only [List.length_append, List.length_cons]
        omega
    · rintro ⟨s, body, ⟨num', hnum', hb, rfl⟩, hocc, rfl, rfl⟩
      rw [List.append_cons, Occurs.append_iff] at hocc
      obtain ⟨rfl, rfl⟩ := h.unique ⟨hnum', hb, hocc.1⟩
      refine ⟨body, rfl, by simpa [Nat.add_assoc] using hocc.2, rfl, ?_⟩
      simp only [List.length_append, List.length_cons]
      omega
  · obtain ⟨e, he⟩ := parseByteString_of_not_lengthPrefix (b := b) hlen hpos h
    rw [he]
    simp only [reduceCtorEq, false_iff]
    rintro ⟨s, body, ⟨num, hnum, hb, rfl⟩, hocc, _⟩
    rw [List.append_cons, Occurs.append_iff] at hocc
    exact h ⟨num, _, hnum, hb, hocc.1⟩

/-- The string parser panics exactly on the lengths that overflow. -/
theorem parseByteString_returns (hlen : data.length < 2 ^ 63) (hpos : pos ≤ data.length) :
    (parseByteString b data pos).Returns ↔ ¬ LengthOverflow data pos := by
  by_cases h : ∃ num n, LengthPrefix data pos num n
  · obtain ⟨num, n, h⟩ := h
    have hle := h.length_le
    rw [parseByteString_of_lengthPrefix hlen h, readBody_returns (by omega) hlen h.2.1]
    constructor
    · rintro hlt ⟨num', n', h', hov⟩
      obtain ⟨rfl, rfl⟩ := h.unique h'
      omega
    · intro hno
      by_contra hlt
      exact hno ⟨num, n, h, by omega⟩
  · obtain ⟨e, he⟩ := parseByteString_of_not_lengthPrefix (b := b) hlen hpos h
    rw [he]
    simp only [Outcome.returns_err, true_iff]
    rintro ⟨num, n, h', _⟩
    exact h ⟨num, n, h'⟩

/-- The integer parser accepts the lenient integers in the `i64` range. -/
theorem parseInteger_eq_ok (hlen : data.length < 2 ^ 63) (hpos : pos < data.length)
    {v : BencodeValue} :
    parseInteger b data pos = .ok (v, next) ↔
      ∃ num i, Style.lenient.Integer num i ∧ -(2 ^ 63 : ℤ) ≤ i ∧ i < 2 ^ 63 ∧
        Occurs data (pos + 1) (num ++ [0x65]) ∧ v = .integer i ∧
        next = pos + 1 + num.length + 1 := by
  rw [parseInteger]
  rw [Build.addUsize_of_lt b (by omega), Outcome.ok_bind, sliceFrom_of_le (by omega),
    Outcome.ok_bind]
  simp only [Outcome.bind_eq_ok, Outcome.ofOption_eq_ok]
  constructor
  · rintro ⟨off, hoff, stop, hstop, stop', hstop', num, hnum, s, hs, h⟩
    -- the scan stops at the first end byte
    obtain ⟨num', rfl, _, hocc⟩ := findIdx?_eq_some.mp hoff
    have hle := hocc.add_le (by simp)
    simp only [List.length_append, List.length_singleton] at hle
    rw [Build.addUsize_of_lt b (by omega), Outcome.ok.injEq] at hstop
    subst hstop
    rw [Build.addUsize_of_lt b (by omega), Outcome.ok.injEq] at hstop'
    subst hstop'
    have hrange : num'.length + pos + 1 = pos + 1 + num'.length := by omega
    rw [hrange, slice_of_occurs (by omega) (Occurs.append_iff.mp hocc).1,
      Outcome.ok.injEq] at hnum
    subst hnum
    have hsb := strOf_eq_ok.mp hs
    split at h
    · simp at h
    · next hbad =>
      simp only [Outcome.bind_eq_ok] at h
      obtain ⟨i, hi, next', hnext, h⟩ := h
      obtain ⟨hnum, hmin, hmax⟩ := Num.parseSigned_eq_ok.mp (intOf_eq_ok.mp hi)
      rw [Build.addUsize_of_lt b (by omega), Outcome.ok.injEq] at hnext
      simp only [Outcome.pure_eq, Outcome.ok.injEq, Prod.mk.injEq] at h
      rw [hsb] at hnum hbad
      refine ⟨num', i, ⟨hnum, by simpa using hbad⟩, ?_, ?_, hocc, h.1.symm, by omega⟩
      · norm_num at hmin ⊢
        exact hmin
      · norm_num at hmax ⊢
        omega
  · rintro ⟨num, i, ⟨hnum, hbad⟩, hmin, hmax, hocc, rfl, rfl⟩
    have hle := hocc.add_le (by simp)
    simp only [List.length_append, List.length_singleton] at hle
    obtain ⟨s, hs, hsb⟩ := strOf_signedNumeral hnum
    -- a numeral does not contain the end byte
    have hno := not_mem_of_signedNumeral (c := 0x65) hnum (by decide) (by decide) (by decide)
    have hrange : num.length + pos + 1 = pos + 1 + num.length := by omega
    refine ⟨num.length, findIdx?_eq_some.mpr ⟨num, rfl, hno, hocc⟩, num.length + pos,
      Build.addUsize_of_lt b (by omega), num.length + pos + 1,
      Build.addUsize_of_lt b (by omega), num, ?_, s, hs, ?_⟩
    · rw [hrange]
      exact slice_of_occurs (by omega) (Occurs.append_iff.mp hocc).1
    · have hi : Num.parseSigned (2 ^ 63 - 1) s.bytes = .ok i := by
        refine Num.parseSigned_eq_ok.mpr ⟨hsb ▸ hnum, ?_, ?_⟩
        · norm_num at hmin ⊢
          exact hmin
        · norm_num at hmax ⊢
          omega
      rw [if_neg (by simp [hsb, hbad]), hi, intOf, Outcome.ok_bind,
        Build.addUsize_of_lt b (by omega), Outcome.ok_bind, hrange]
      rfl

/-- The integer parser never panics. -/
theorem parseInteger_returns (hlen : data.length < 2 ^ 63) (hpos : pos < data.length) :
    (parseInteger b data pos).Returns := by
  rw [parseInteger]
  rw [Build.addUsize_of_lt b (by omega), Outcome.ok_bind, sliceFrom_of_le (by omega),
    Outcome.ok_bind, Outcome.bind_returns]
  refine ⟨Outcome.ofOption_returns _ _, fun off hoff => ?_⟩
  obtain ⟨num, rfl, _, hocc⟩ := findIdx?_eq_some.mp (Outcome.ofOption_eq_ok.mp hoff)
  have hle := hocc.add_le (by simp)
  simp only [List.length_append, List.length_singleton] at hle
  have hrange : num.length + pos + 1 = pos + 1 + num.length := by omega
  rw [Build.addUsize_of_lt b (by omega), Outcome.ok_bind, Build.addUsize_of_lt b (by omega),
    Outcome.ok_bind, hrange, slice_of_occurs (by omega) (Occurs.append_iff.mp hocc).1,
    Outcome.ok_bind, Outcome.bind_returns]
  refine ⟨strOf_returns _, fun s _ => ?_⟩
  split
  · trivial
  · rw [Outcome.bind_returns]
    refine ⟨intOf_returns _, fun i _ => ?_⟩
    rw [Build.addUsize_of_lt b (by omega)]
    trivial

end Retorrent

import Retorrent.Bencode.Encode

/-!
# Encoding and parsing

The encoding of a value that is not nested deeper than the parser reads parses to the
value, whatever follows it. The encodings of such values are prefix-free.
-/

namespace Retorrent

open Rust

namespace BencodeValue

/-- `SubAt k u v`: the value `u` sits in `v` at nesting depth `k`. -/
inductive SubAt : ℕ → BencodeValue → BencodeValue → Prop where
  | root {v : BencodeValue} : SubAt 0 v v
  | item {k : ℕ} {u v : BencodeValue} {l : List BencodeValue} : v ∈ l → SubAt k u v →
      SubAt (k + 1) u (.list l)
  | entry {k : ℕ} {u : BencodeValue} {e : Str × BencodeValue} {d : List (Str × BencodeValue)} :
      e ∈ d → SubAt k u e.2 → SubAt (k + 1) u (.dict d)

/-- What the Rust types promise of the top of a value: integers are `i64`s, and the keys
of a `BTreeMap` ascend. -/
def Typed : BencodeValue → Prop
  | integer i => -(2 ^ 63 : ℤ) ≤ i ∧ i < 2 ^ 63
  | byteString _ | list _ => True
  | dict d => BTreeMap.Sorted d

/-- A value of the Rust type whose sub-values sit at depth `n` at most. -/
def Fits (n : ℕ) (v : BencodeValue) : Prop := ∀ k u, SubAt k u v → k ≤ n ∧ u.Typed

theorem Fits.item {n : ℕ} {l : List BencodeValue} (h : Fits (n + 1) (.list l)) {v : BencodeValue}
    (hv : v ∈ l) : Fits n v := by
  intro k u hu
  obtain ⟨hk, htyped⟩ := h (k + 1) u (.item hv hu)
  exact ⟨Nat.le_of_succ_le_succ hk, htyped⟩

theorem Fits.entry {n : ℕ} {d : List (Str × BencodeValue)} (h : Fits (n + 1) (.dict d))
    {e : Str × BencodeValue} (he : e ∈ d) : Fits n e.2 := by
  intro k u hu
  obtain ⟨hk, htyped⟩ := h (k + 1) u (.entry he hu)
  exact ⟨Nat.le_of_succ_le_succ hk, htyped⟩

/-- Without room for another level, a list or a dictionary is empty. -/
theorem Fits.eq_nil_of_list {l : List BencodeValue} (h : Fits 0 (.list l)) : l = [] := by
  by_contra hne
  obtain ⟨v, rest, rfl⟩ := List.exists_cons_of_ne_nil hne
  have hk := (h 1 v (.item List.mem_cons_self .root)).1
  omega

theorem Fits.eq_nil_of_dict {d : List (Str × BencodeValue)} (h : Fits 0 (.dict d)) : d = [] := by
  by_contra hne
  obtain ⟨e, rest, rfl⟩ := List.exists_cons_of_ne_nil hne
  have hk := (h 1 e.2 (.entry List.mem_cons_self .root)).1
  omega

theorem fits_byteString (n : ℕ) (s : List UInt8) : Fits n (.byteString s) := by
  intro k u hu
  cases hu
  exact ⟨Nat.zero_le n, trivial⟩

theorem fits_integer (n : ℕ) {i : ℤ} (hmin : -(2 ^ 63 : ℤ) ≤ i) (hmax : i < 2 ^ 63) :
    Fits n (.integer i) := by
  intro k u hu
  cases hu
  exact ⟨Nat.zero_le n, hmin, hmax⟩

theorem fits_list {n : ℕ} {l : List BencodeValue} (h : ∀ v ∈ l, Fits n v) :
    Fits (n + 1) (.list l) := by
  intro k u hu
  cases hu with
  | root => exact ⟨Nat.zero_le _, trivial⟩
  | item hv hu =>
    obtain ⟨hk, htyped⟩ := h _ hv _ _ hu
    exact ⟨Nat.succ_le_succ hk, htyped⟩

/-- A map of the Rust type whose values sit at depth `n` at most. -/
structure FitsMap (n : ℕ) (d : BTreeMap Str BencodeValue) : Prop where
  sorted : BTreeMap.Sorted d
  values : ∀ e ∈ d, Fits n e.2

theorem fits_dict {n : ℕ} {d : BTreeMap Str BencodeValue} (h : FitsMap n d) :
    Fits (n + 1) (.dict d) := by
  intro k u hu
  cases hu with
  | root => exact ⟨Nat.zero_le _, h.sorted⟩
  | entry he hu =>
    obtain ⟨hk, htyped⟩ := h.values _ he _ _ hu
    exact ⟨Nat.succ_le_succ hk, htyped⟩

theorem fitsMap_nil (n : ℕ) : FitsMap n [] := ⟨.nil, by simp⟩

theorem FitsMap.insert {n : ℕ} {d : BTreeMap Str BencodeValue} (h : FitsMap n d) (key : Str)
    {v : BencodeValue} (hv : Fits n v) : FitsMap n (d.insert key v) := by
  refine ⟨BTreeMap.insert_sorted h.sorted key v, fun e he => ?_⟩
  rcases BTreeMap.mem_insert he with rfl | he
  · exact hv
  · exact h.values e he

theorem fitsMap_ofEntries {n : ℕ} {es : List (Str × BencodeValue)}
    (h : ∀ e ∈ es, Fits n e.2) : FitsMap n (BTreeMap.ofEntries es) :=
  ⟨BTreeMap.ofEntries_sorted es, fun e he => h e (BTreeMap.mem_ofEntries he)⟩

end BencodeValue

open BencodeValue

/-- The encoder writes the strict spelling of every value that has room below the
greatest depth. -/
theorem spells_of_fits (v : BencodeValue) {d n : ℕ} (hd : d + n = maxParseDepth)
    (h : Fits n v) (hlen : (encodeValue v).length < 2 ^ 64) :
    Spells .strict d (.value v) (encodeValue v) := by
  have hle : d ≤ maxParseDepth := by omega
  match v with
  | .integer i =>
    obtain ⟨hmin, hmax⟩ := (h 0 _ .root).2
    rw [encodeValue]
    exact .integer hle rfl hmin hmax
  | .byteString s =>
    have hs : s.length < 2 ^ 64 := by
      rw [encodeValue] at hlen
      simp only [List.length_append, List.length_cons] at hlen
      omega
    exact spells_encode_byteString hle hs
  | .list l =>
    refine spells_encodeList hle ?_ hlen
    intro w hw hwlen
    cases n with
    | zero =>
      rw [h.eq_nil_of_list] at hw
      simp at hw
    | succ n => exact spells_of_fits w (by omega) (h.item hw) hwlen
  | .dict m =>
    have hsorted : BTreeMap.Sorted m := (h 0 _ .root).2
    rw [encodeValue] at hlen ⊢
    simp only [List.length_cons, List.length_append] at hlen
    have hvals : ∀ e ∈ m, Spells .strict (d + 1) (.value e.2) (encodeValue e.2) := by
      intro e he
      have hele := length_le_encodeEntries he
      cases n with
      | zero =>
        rw [h.eq_nil_of_dict] at he
        simp at he
      | succ n =>
        have hdec : sizeOf e.2 < sizeOf (BencodeValue.dict m) := by
          have hmem := List.sizeOf_lt_of_mem he
          cases e
          simp only [Prod.mk.sizeOf_spec, BencodeValue.dict.sizeOf_spec] at hmem ⊢
          omega
        exact spells_of_fits e.2 (by omega) (h.entry he) (by omega)
    have hdict := Spells.dict hle (keys_rawEntries hsorted)
      (spells_encodeEntries hvals (by omega))
    rwa [dictOf_rawEntries hsorted] at hdict
termination_by sizeOf v
decreasing_by
  · have hmem := List.sizeOf_lt_of_mem hw
    simp only [BencodeValue.list.sizeOf_spec]
    omega
  · exact hdec

/-- Where the encoding of a value stands first, the parser reads the value and stops
behind it. -/
theorem parseValue_encode_append {b : Build} {v : BencodeValue} {x data : Bytes}
    {rest : List UInt8} (hv : Fits maxParseDepth v) (hx : encode v = .ok x)
    (hdata : data.bytes = x.bytes ++ rest) :
    parseValue b data.bytes 0 0 = .ok (v, x.bytes.length) := by
  have hbytes := Bytes.ofList_eq_ok.mp hx
  have hbound := x.length_lt
  have hspells := spells_of_fits v (Nat.zero_add _) hv (by rw [← hbytes]; omega)
  rw [← hbytes] at hspells
  exact (parseValue_eq_ok data.length_lt).mpr
    ⟨x.bytes, hspells.lenient, ⟨rest, hdata.symm⟩, (Nat.zero_add _).symm⟩

/-- The encoding alone parses to the value. -/
theorem parse_encode_of_fits {b : Build} {v : BencodeValue} {x : Bytes} (hv : Fits maxParseDepth v)
    (hx : encode v = .ok x) : parse b x = .ok v := by
  have hparse := parseValue_encode_append (b := b) hv hx (List.append_nil x.bytes).symm
  rw [parse]
  simp only [hparse, Outcome.ok_bind, Outcome.pure_eq]

/-- The encoding of a value that is not nested too deeply, followed by any bytes, parses to
the value and ends where the encoding does. So the encoding alone parses to the value,
and it is a prefix of no other encoding. -/
theorem parse_encode_append {b : Build} {v : BencodeValue} {x : Bytes}
    (hv : Fits maxParseDepth v) (hx : encode v = .ok x) :
    (∀ (rest : List UInt8) (data : Bytes), data.bytes = x.bytes ++ rest →
      parseValue b data.bytes 0 0 = .ok (v, x.bytes.length)) ∧
    parse b x = .ok v ∧
    ∀ w y, Fits maxParseDepth w → encode w = .ok y → x.bytes <+: y.bytes → w = v ∧ y = x := by
  refine ⟨fun rest data => parseValue_encode_append hv hx, parse_encode_of_fits hv hx, ?_⟩
  rintro w y hw hy ⟨rest, hprefix⟩
  have hfirst := parseValue_encode_append (b := b) hv hx hprefix.symm
  have hsecond := parseValue_encode_append (b := b) hw hy (List.append_nil y.bytes).symm
  rw [hfirst, Outcome.ok.injEq, Prod.mk.injEq] at hsecond
  obtain ⟨rfl, _⟩ := hsecond
  exact ⟨rfl, (Outcome.ok.inj (hx.symm.trans hy)).symm⟩

/-- A map with the one key `key`. -/
def sampleValue : BencodeValue := .dict [(.ascii "key", .integer 123)]

theorem fits_sampleValue : Fits maxParseDepth sampleValue := by
  intro k u hu
  cases hu with
  | root => exact ⟨by decide, List.pairwise_singleton _ _⟩
  | entry he hu =>
    obtain rfl := List.mem_singleton.mp he
    cases hu
    exact ⟨by decide, by decide, by decide⟩

theorem parse_encode_sampleValue :
    ∃ x : Bytes, encode sampleValue = .ok x ∧ parse .release x = .ok sampleValue := by
  have hx : encode sampleValue = .ok ⟨Str.asciiBytes "d3:keyi123ee", by decide⟩ := by
    decide +kernel
  exact ⟨_, hx, (parse_encode_append fits_sampleValue hx).2.1⟩

end Retorrent

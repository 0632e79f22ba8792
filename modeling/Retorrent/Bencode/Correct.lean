import Retorrent.Bencode.Leaves

/-!
# The parser reads the lenient language

`parse_value` succeeds at a position exactly when a lenient spelling of a value
stands there, and returns that value and the position after it.
-/

namespace Retorrent

open Rust

variable {b : Build} {data : List UInt8}

/-- What a successful run with the given fuel has stepped over. -/
structure Sound (b : Build) (data : List UInt8) (fuel : ℕ) : Prop where
  value : ∀ {pos depth v next}, parseValueFuel b data fuel pos depth = .ok (v, next) →
    ∃ s, Spells .lenient depth (.value v) s ∧ Occurs data pos s ∧ next = pos + s.length
  list : ∀ {pos depth v next}, depth ≤ 2 ^ 63 → pos < data.length →
    parseList b data fuel pos depth = .ok (v, next) →
    ∃ l s, v = .list l ∧ Spells .lenient depth (.items l) s ∧
      Occurs data (pos + 1) (s ++ [0x65]) ∧ next = pos + 1 + s.length + 1
  items : ∀ {cur depth acc v next}, parseListLoop b data fuel cur depth acc = .ok (v, next) →
    ∃ l s, v = .list (acc ++ l) ∧ Spells .lenient depth (.items l) s ∧
      Occurs data cur (s ++ [0x65]) ∧ next = cur + s.length + 1
  dict : ∀ {pos depth v next}, depth ≤ 2 ^ 63 → pos < data.length →
    parseDict b data fuel pos depth = .ok (v, next) →
    ∃ es s, v = .dict (dictOf es) ∧ Spells .lenient depth (.entries es) s ∧
      Occurs data (pos + 1) (s ++ [0x65]) ∧ next = pos + 1 + s.length + 1
  entries : ∀ {cur depth map v next}, parseDictLoop b data fuel cur depth map = .ok (v, next) →
    ∃ es s, v = .dict (BTreeMap.extend map (decodeKeys es)) ∧
      Spells .lenient depth (.entries es) s ∧
      Occurs data cur (s ++ [0x65]) ∧ next = cur + s.length + 1

theorem lt_length_of_getElem? {c : UInt8} {pos : ℕ} (h : data[pos]? = some c) :
    pos < data.length := (List.getElem?_eq_some_iff.mp h).1

theorem occurs_single {c : UInt8} {pos : ℕ} (h : data[pos]? = some c) : Occurs data pos [c] :=
  Occurs.cons_iff.mpr ⟨h, .nil⟩

theorem sound_value (hlen : data.length < 2 ^ 63) {fuel : ℕ} (ih : Sound b data fuel)
    {pos depth next : ℕ} {v : BencodeValue}
    (h : parseValueFuel b data (fuel + 1) pos depth = .ok (v, next)) :
    ∃ s, Spells .lenient depth (.value v) s ∧ Occurs data pos s ∧ next = pos + s.length := by
  rw [parseValueFuel] at h
  split at h
  · simp at h
  next hdepth =>
  have hd : depth ≤ maxParseDepth := Nat.le_of_not_lt hdepth
  have hd' : depth ≤ 128 := hd
  split at h
  · simp at h
  next c hc =>
  have hpos := lt_length_of_getElem? hc
  split at h
  · next hi =>
    subst hi
    obtain ⟨num, i, hnum, hmin, hmax, hocc, rfl, rfl⟩ := (parseInteger_eq_ok hlen hpos).mp h
    refine ⟨_, .integer hd hnum hmin hmax, Occurs.cons_iff.mpr ⟨hc, hocc⟩, ?_⟩
    simp only [List.length_cons, List.length_append, List.length_nil]
    omega
  split at h
  · next hl =>
    subst hl
    rw [Build.addUsize_of_lt b (by omega), Outcome.ok_bind] at h
    obtain ⟨l, s, rfl, hs, hocc, rfl⟩ := ih.list (by omega) hpos h
    refine ⟨_, .list hd hs, Occurs.cons_iff.mpr ⟨hc, hocc⟩, ?_⟩
    simp only [List.length_cons, List.length_append, List.length_nil]
    omega
  split at h
  · next hdict =>
    subst hdict
    rw [Build.addUsize_of_lt b (by omega), Outcome.ok_bind] at h
    obtain ⟨es, s, rfl, hs, hocc, rfl⟩ := ih.dict (by omega) hpos h
    refine ⟨_, .dict hd trivial hs, Occurs.cons_iff.mpr ⟨hc, hocc⟩, ?_⟩
    simp only [List.length_cons, List.length_append, List.length_nil]
    omega
  split at h
  · next hdig =>
    obtain ⟨s, body, ht, hocc, rfl, rfl⟩ := (parseByteString_eq_ok hlen hpos.le).mp h
    obtain ⟨c', t, rfl, _⟩ := ht.head
    obtain rfl : c = c' := Option.some.inj (hc.symm.trans (Occurs.cons_iff.mp hocc).1)
    exact ⟨_, .byteString hd hdig ht, hocc, rfl⟩
  · simp at h

theorem sound_items {fuel : ℕ} (ih : Sound b data fuel) (hlen : data.length < 2 ^ 63)
    {cur depth next : ℕ} {acc : List BencodeValue} {v : BencodeValue}
    (h : parseListLoop b data (fuel + 1) cur depth acc = .ok (v, next)) :
    ∃ l s, v = .list (acc ++ l) ∧ Spells .lenient depth (.items l) s ∧
      Occurs data cur (s ++ [0x65]) ∧ next = cur + s.length + 1 := by
  rw [parseListLoop] at h
  split at h
  · simp at h
  next c hc =>
  have hcur := lt_length_of_getElem? hc
  split at h
  · next he =>
    subst he
    rw [Build.addUsize_of_lt b (by omega)] at h
    simp only [Outcome.ok_bind, Outcome.pure_eq, Outcome.ok.injEq, Prod.mk.injEq] at h
    exact ⟨[], [], by simp [h.1], .noItems, occurs_single hc, by simpa using h.2.symm⟩
  · simp only [Outcome.bind_eq_ok, Prod.exists] at h
    obtain ⟨v', mid, hv, h⟩ := h
    obtain ⟨s, hs, hocc, rfl⟩ := ih.value hv
    obtain ⟨l, t, rfl, ht, hocc', rfl⟩ := ih.items h
    refine ⟨v' :: l, s ++ t, by simp, .item hs ht, ?_, by simp only [List.length_append]; omega⟩
    rw [List.append_assoc, Occurs.append_iff]
    exact ⟨hocc, hocc'⟩

theorem sound_entries {fuel : ℕ} (ih : Sound b data fuel) (hlen : data.length < 2 ^ 63)
    {cur depth next : ℕ} {map : BTreeMap Str BencodeValue} {v : BencodeValue}
    (h : parseDictLoop b data (fuel + 1) cur depth map = .ok (v, next)) :
    ∃ es s, v = .dict (BTreeMap.extend map (decodeKeys es)) ∧
      Spells .lenient depth (.entries es) s ∧
      Occurs data cur (s ++ [0x65]) ∧ next = cur + s.length + 1 := by
  rw [parseDictLoop] at h
  split at h
  · simp at h
  next c hc =>
  have hcur := lt_length_of_getElem? hc
  split at h
  · next he =>
    subst he
    rw [Build.addUsize_of_lt b (by omega)] at h
    simp only [Outcome.ok_bind, Outcome.pure_eq, Outcome.ok.injEq, Prod.mk.injEq] at h
    exact ⟨[], [], h.1.symm, .noEntries, occurs_single hc, by simpa using h.2.symm⟩
  · simp only [Outcome.bind_eq_ok, Prod.exists] at h
    obtain ⟨kv, mid, hk, h⟩ := h
    obtain ⟨k, key, hkt, hkocc, rfl, rfl⟩ := (parseByteString_eq_ok hlen hcur.le).mp hk
    simp only [Outcome.bind_eq_ok, Prod.exists] at h
    obtain ⟨v', mid', hv, h⟩ := h
    obtain ⟨s, hs, hocc, rfl⟩ := ih.value hv
    obtain ⟨es, t, rfl, ht, hocc', rfl⟩ := ih.entries h
    refine ⟨(key, v') :: es, k ++ (s ++ t), rfl, .entry hkt hs ht, ?_,
      by simp only [List.length_append]; omega⟩
    rw [List.append_assoc, Occurs.append_iff, List.append_assoc, Occurs.append_iff]
    exact ⟨hkocc, hocc, hocc'⟩

/-- Every successful run reads a lenient spelling. -/
theorem sound (b : Build) (hlen : data.length < 2 ^ 63) (fuel : ℕ) : Sound b data fuel := by
  induction fuel with
  | zero =>
    constructor <;> intros <;>
      simp_all [parseValueFuel, parseList, parseListLoop, parseDict, parseDictLoop]
  | succ fuel ih =>
    refine ⟨sound_value hlen ih, ?_, sound_items ih hlen, ?_, sound_entries ih hlen⟩
    · intro pos depth v next _ hpos h
      rw [parseList, Build.addUsize_of_lt b (by omega), Outcome.ok_bind] at h
      obtain ⟨l, s, rfl, hs, hocc, hnext⟩ := ih.items h
      exact ⟨l, s, rfl, hs, hocc, hnext⟩
    · intro pos depth v next _ hpos h
      rw [parseDict, Build.addUsize_of_lt b (by omega), Outcome.ok_bind] at h
      obtain ⟨es, s, rfl, hs, hocc, hnext⟩ := ih.entries h
      exact ⟨es, s, rfl, hs, hocc, hnext⟩

/-- Where a spelling of the node stands, the parser reads it. -/
def Complete (b : Build) (data : List UInt8) (d : ℕ) (s : List UInt8) : Node → Prop
  | .value v => ∀ pos fuel, Occurs data pos s → 3 * s.length + 1 ≤ fuel →
      parseValueFuel b data fuel pos d = .ok (v, pos + s.length)
  | .items l => ∀ cur fuel acc, Occurs data cur (s ++ [0x65]) → 3 * s.length + 2 ≤ fuel →
      parseListLoop b data fuel cur d acc = .ok (.list (acc ++ l), cur + s.length + 1)
  | .entries es => ∀ cur fuel map, Occurs data cur (s ++ [0x65]) → 3 * s.length + 2 ≤ fuel →
      parseDictLoop b data fuel cur d map =
        .ok (.dict (BTreeMap.extend map (decodeKeys es)), cur + s.length + 1)

/-- The closing byte ends both loops. -/
theorem occurs_end {cur : ℕ} (h : Occurs data cur ([] ++ [0x65])) :
    data[cur]? = some 0x65 ∧ cur < data.length := by
  have hc := (Occurs.cons_iff.mp h).1
  exact ⟨hc, lt_length_of_getElem? hc⟩

theorem complete (b : Build) (hlen : data.length < 2 ^ 63) {d : ℕ} {n : Node} {s : List UInt8}
    (h : Spells .lenient d n s) : Complete b data d s n := by
  -- one case for each rule of the grammar; `acc` and `map` are what the loops have read
  induction h with
  | @integer d i num hd hnum hmin hmax =>
    intro pos fuel hocc hfuel
    obtain ⟨fuel, rfl⟩ := Nat.exists_eq_add_of_le' hfuel
    obtain ⟨hc, hocc⟩ := Occurs.cons_iff.mp hocc
    have hpos := lt_length_of_getElem? hc
    rw [← Nat.add_assoc, parseValueFuel, if_neg (Nat.not_lt.mpr hd), hc]
    refine (parseInteger_eq_ok hlen hpos).mpr
      ⟨num, i, hnum, hmin, hmax, hocc, rfl, ?_⟩
    simp only [List.length_cons, List.length_append, List.length_nil]
    omega
  | @byteString d c s body hd hc ht =>
    intro pos fuel hocc hfuel
    obtain ⟨fuel, rfl⟩ := Nat.exists_eq_add_of_le' hfuel
    have hget := (Occurs.cons_iff.mp hocc).1
    have hpos := lt_length_of_getElem? hget
    have hi : c ≠ 0x69 := by rintro rfl; exact absurd hc (by decide)
    have hl : c ≠ 0x6C := by rintro rfl; exact absurd hc (by decide)
    have hdict : c ≠ 0x64 := by rintro rfl; exact absurd hc (by decide)
    rw [← Nat.add_assoc, parseValueFuel, if_neg (Nat.not_lt.mpr hd), hget]
    simp only [if_neg hi, if_neg hl, if_neg hdict, if_pos hc]
    exact (parseByteString_eq_ok hlen hpos.le).mpr ⟨_, body, ht, hocc, rfl, rfl⟩
  | @list d l s hd _ ih =>
    intro pos fuel hocc hfuel
    simp only [List.length_cons, List.length_append, List.length_nil] at hfuel
    -- one round for the value and one for its loop
    obtain ⟨fuel, rfl⟩ := Nat.exists_eq_add_of_le' (show 2 ≤ fuel by omega)
    obtain ⟨hc, hocc⟩ := Occurs.cons_iff.mp hocc
    have hpos := lt_length_of_getElem? hc
    have hd' : d ≤ 128 := hd
    rw [parseValueFuel, if_neg (Nat.not_lt.mpr hd), hc]
    simp only [show (0x6C : UInt8) ≠ 0x69 by decide, if_false, if_true]
    rw [Build.addUsize_of_lt b (by omega), Outcome.ok_bind, parseList,
      Build.addUsize_of_lt b (by omega), Outcome.ok_bind, ih (pos + 1) fuel [] hocc (by omega)]
    simp only [List.nil_append, List.length_cons, List.length_append, List.length_nil]
    congr 2
    omega
  | @dict d es s hd _ _ ih =>
    intro pos fuel hocc hfuel
    simp only [List.length_cons, List.length_append, List.length_nil] at hfuel
    obtain ⟨fuel, rfl⟩ := Nat.exists_eq_add_of_le' (show 2 ≤ fuel by omega)
    obtain ⟨hc, hocc⟩ := Occurs.cons_iff.mp hocc
    have hpos := lt_length_of_getElem? hc
    have hd' : d ≤ 128 := hd
    rw [parseValueFuel, if_neg (Nat.not_lt.mpr hd), hc]
    simp only [show (0x64 : UInt8) ≠ 0x69 by decide, show (0x64 : UInt8) ≠ 0x6C by decide,
      if_false, if_true]
    rw [Build.addUsize_of_lt b (by omega), Outcome.ok_bind, parseDict,
      Build.addUsize_of_lt b (by omega), Outcome.ok_bind, ih (pos + 1) fuel [] hocc (by omega)]
    simp only [List.length_cons, List.length_append, List.length_nil]
    congr 2
    omega
  | noItems =>
    intro cur fuel acc hocc hfuel
    obtain ⟨fuel, rfl⟩ := Nat.exists_eq_add_of_le' (show 1 ≤ fuel by omega)
    obtain ⟨hc, hcur⟩ := occurs_end hocc
    rw [parseListLoop, hc]
    simp only [if_true]
    rw [Build.addUsize_of_lt b (by omega)]
    simp
  | @item d v l s t hs _ ihs iht =>
    intro cur fuel acc hocc hfuel
    -- no value begins with the byte that ends the list
    obtain ⟨c, s', rfl, hne⟩ := hs.head
    rw [List.append_assoc, Occurs.append_iff] at hocc
    simp only [List.length_append, List.length_cons] at hfuel
    obtain ⟨fuel, rfl⟩ := Nat.exists_eq_add_of_le' (show 1 ≤ fuel by omega)
    have hget := (Occurs.cons_iff.mp hocc.1).1
    rw [parseListLoop, hget]
    simp only [if_neg hne]
    rw [ihs cur fuel hocc.1 (by simp only [List.length_cons]; omega), Outcome.ok_bind]
    simp only
    rw [iht _ fuel _ hocc.2 (by omega)]
    simp only [List.append_assoc, List.singleton_append, List.length_append, List.length_cons]
    congr 2
    omega
  | noEntries =>
    intro cur fuel map hocc hfuel
    obtain ⟨fuel, rfl⟩ := Nat.exists_eq_add_of_le' (show 1 ≤ fuel by omega)
    obtain ⟨hc, hcur⟩ := occurs_end hocc
    rw [parseDictLoop, hc]
    simp only [if_true]
    rw [Build.addUsize_of_lt b (by omega)]
    simp [decodeKeys]
  | @entry d key v es k s t hk hs _ ihs iht =>
    intro cur fuel map hocc hfuel
    -- no key begins with the byte that ends the dictionary
    obtain ⟨c, k', rfl, hne⟩ := hk.head
    rw [List.append_assoc, Occurs.append_iff, List.append_assoc, Occurs.append_iff] at hocc
    obtain ⟨hkocc, hsocc, htocc⟩ := hocc
    have hpos := hs.length_pos
    simp only [List.length_append, List.length_cons] at hfuel
    obtain ⟨fuel, rfl⟩ := Nat.exists_eq_add_of_le' (show 1 ≤ fuel by omega)
    have hget := (Occurs.cons_iff.mp hkocc).1
    have hcur := lt_length_of_getElem? hget
    have hkey : parseByteString b data cur = .ok (.byteString key, cur + (c :: k').length) :=
      (parseByteString_eq_ok hlen hcur.le).mpr ⟨_, key, hk, hkocc, rfl, rfl⟩
    rw [parseDictLoop, hget]
    simp only [if_neg hne]
    rw [hkey, Outcome.ok_bind]
    simp only
    rw [ihs _ fuel hsocc (by omega), Outcome.ok_bind]
    simp only
    rw [iht _ fuel _ htocc (by omega)]
    simp only [decodeKeys, List.map_cons, BTreeMap.extend_cons, List.length_append,
      List.length_cons]
    congr 2
    omega

/-- `parse_value` returns a value exactly where the value is spelled. -/
theorem parseValue_eq_ok (hlen : data.length < 2 ^ 63) {pos depth next : ℕ} {v : BencodeValue} :
    parseValue b data pos depth = .ok (v, next) ↔
      ∃ s, Spells .lenient depth (.value v) s ∧ Occurs data pos s ∧ next = pos + s.length := by
  constructor
  · exact (sound b hlen _).value
  · rintro ⟨s, hs, hocc, rfl⟩
    have hle := hocc.length_le
    exact complete b hlen hs pos _ hocc (by unfold parseFuel; omega)

/-- A position starts at most one value. -/
theorem Spells.unique {d : ℕ} {v w : BencodeValue} {s t r q : List UInt8}
    (hs : Spells .lenient d (.value v) s) (ht : Spells .lenient d (.value w) t)
    (hlen : (s ++ r).length < 2 ^ 63) (h : s ++ r = t ++ q) : v = w ∧ s = t := by
  have hsocc : Occurs (s ++ r) 0 s := ⟨r, rfl⟩
  have htocc : Occurs (s ++ r) 0 t := ⟨q, h.symm⟩
  have hv := (parseValue_eq_ok (b := .release) hlen).mpr ⟨s, hs, hsocc, rfl⟩
  have hw := (parseValue_eq_ok (b := .release) hlen).mpr ⟨t, ht, htocc, rfl⟩
  rw [hv, Outcome.ok.injEq, Prod.mk.injEq] at hw
  exact ⟨hw.1, hsocc.eq_of_length_eq htocc (by omega)⟩

theorem parse_eq_ok {d : Bytes} {v : BencodeValue} :
    parse b d = .ok v ↔ ∃ s, Spells .lenient 0 (.value v) s ∧ s <+: d.bytes := by
  rw [parse]
  simp only [Outcome.bind_eq_ok, Prod.exists, Outcome.pure_eq, Outcome.ok.injEq]
  constructor
  · rintro ⟨v', next, hv, rfl⟩
    obtain ⟨s, hs, hocc, _⟩ := (parseValue_eq_ok d.length_lt).mp hv
    exact ⟨s, hs, hocc⟩
  · rintro ⟨s, hs, hocc⟩
    exact ⟨v, _, (parseValue_eq_ok d.length_lt).mpr ⟨s, hs, hocc, rfl⟩, rfl⟩

end Retorrent

import Retorrent.Bencode.Correct

/-!
# The info dictionary of a torrent

What the scan of `extract_info_raw` selects: the text of the value behind the
first key `info` of the root dictionary.
-/

namespace Retorrent

open Rust

/-- A value may be read at any smaller depth. -/
theorem Spells.depth_mono {m : Style} {d d' : ℕ} {n : Node} {s : List UInt8}
    (h : Spells m d n s) (hd : d' ≤ d) : Spells m d' n s := by
  induction h generalizing d' with
  | integer hmax hnum hlo hhi => exact .integer (hd.trans hmax) hnum hlo hhi
  | byteString hmax hc ht => exact .byteString (hd.trans hmax) hc ht
  | list hmax _ ih => exact .list (hd.trans hmax) (ih (Nat.succ_le_succ hd))
  | dict hmax hk _ ih => exact .dict (hd.trans hmax) hk (ih (Nat.succ_le_succ hd))
  | noItems => exact .noItems
  | item _ _ ihs iht => exact .item (ihs hd) (iht hd)
  | noEntries => exact .noEntries
  | entry hk _ _ ihs iht => exact .entry hk (ihs hd) (iht hd)

/-- The text of a sequence of pairs splits where the sequence does. -/
theorem Spells.entries_append {m : Style} {d : ℕ} {es fs : RawEntries} {s : List UInt8} :
    Spells m d (.entries (es ++ fs)) s ↔
      ∃ t u, s = t ++ u ∧ Spells m d (.entries es) t ∧ Spells m d (.entries fs) u := by
  constructor
  · intro h
    induction es generalizing s with
    | nil => exact ⟨[], s, rfl, .noEntries, h⟩
    | cons e es ih =>
      obtain ⟨key, v⟩ := e
      rw [List.cons_append] at h
      cases h with
      | entry hk hv hes =>
        obtain ⟨t, u, rfl, ht, hu⟩ := ih hes
        exact ⟨_, u, by simp only [List.append_assoc], .entry hk hv ht, hu⟩
  · intro h
    obtain ⟨t, u, rfl, ht, hu⟩ := h
    induction es generalizing t with
    | nil =>
      cases ht with
      | noEntries => exact hu
    | cons e es ih =>
      obtain ⟨key, v⟩ := e
      cases ht with
      | entry hk hv hes =>
        have hrest := ih _ hes
        rw [List.append_assoc, List.append_assoc]
        exact .entry hk hv hrest

theorem Spells.entries_cons {m : Style} {d : ℕ} {key : List UInt8} {v : BencodeValue}
    {es : RawEntries} {s : List UInt8} :
    Spells m d (.entries ((key, v) :: es)) s ↔
      ∃ k t u, s = k ++ (t ++ u) ∧ m.Text k key ∧ Spells m d (.value v) t ∧
        Spells m d (.entries es) u := by
  constructor
  · intro h
    cases h with
    | entry hk hv hes => exact ⟨_, _, _, rfl, hk, hv, hes⟩
  · intro h
    obtain ⟨k, t, u, rfl, hk, hv, hes⟩ := h
    exact .entry hk hv hes

def infoKey : List UInt8 := Str.asciiBytes "info"

variable {b : Build} {data raw : List UInt8}

/-- `raw` stands behind the first key `info` among the pairs from `pos` on. -/
def FirstInfo (data : List UInt8) (pos : ℕ) (raw : List UInt8) : Prop :=
  ∃ es s k v, Spells .lenient 0 (.entries es) s ∧ (∀ e ∈ es, e.1 ≠ infoKey) ∧
    Style.lenient.Text k infoKey ∧ Spells .lenient 0 (.value v) raw ∧
    Occurs data pos (s ++ (k ++ raw))

/-- No pair is read behind the closing byte or the end of the data. -/
theorem FirstInfo.head {pos : ℕ} (h : FirstInfo data pos raw) :
    ∃ c, data[pos]? = some c ∧ c ≠ 0x65 := by
  obtain ⟨es, s, k, v, hs, _, hk, _, hocc⟩ := h
  cases hs with
  | noEntries =>
    obtain ⟨c, t, rfl, hne⟩ := hk.head
    exact ⟨c, (Occurs.cons_iff.mp hocc).1, hne⟩
  | entry hk' =>
    obtain ⟨c, t, rfl, hne⟩ := hk'.head
    exact ⟨c, (Occurs.cons_iff.mp hocc).1, hne⟩

/-- One step of the scan: the pair at `pos` is the one, or it is passed over. -/
theorem firstInfo_step {pos : ℕ} {k key s : List UInt8} {v : BencodeValue}
    (hlen : data.length < 2 ^ 63) (hk : Style.lenient.Text k key) (hkocc : Occurs data pos k)
    (hs : Spells .lenient 0 (.value v) s) (hsocc : Occurs data (pos + k.length) s) :
    FirstInfo data pos raw ↔
      if key = infoKey then raw = s else FirstInfo data (pos + k.length + s.length) raw := by
  have hpos : pos ≤ data.length := by
    have := hkocc.add_le (List.length_pos_iff.mp hk.length_pos)
    omega
  -- the key and the value at a position are unique, as the parser finds them
  have hkey : ∀ {k' key'}, Style.lenient.Text k' key' → Occurs data pos k' →
      k' = k ∧ key' = key := by
    intro k' key' hk' hocc'
    have h := (parseByteString_eq_ok (b := .release) hlen hpos).mpr ⟨k, key, hk, hkocc, rfl, rfl⟩
    have h' := (parseByteString_eq_ok (b := .release) hlen hpos).mpr
      ⟨k', key', hk', hocc', rfl, rfl⟩
    rw [h, Outcome.ok.injEq, Prod.mk.injEq, BencodeValue.byteString.injEq] at h'
    exact ⟨hocc'.eq_of_length_eq hkocc (by omega), h'.1.symm⟩
  have hval : ∀ {v' s'}, Spells .lenient 0 (.value v') s' → Occurs data (pos + k.length) s' →
      s' = s := by
    intro v' s' hs' hocc'
    have h := (parseValue_eq_ok (b := .release) hlen).mpr ⟨s, hs, hsocc, rfl⟩
    have h' := (parseValue_eq_ok (b := .release) hlen).mpr ⟨s', hs', hocc', rfl⟩
    rw [h, Outcome.ok.injEq, Prod.mk.injEq] at h'
    exact hocc'.eq_of_length_eq hsocc (by omega)
  constructor
  · intro h
    obtain ⟨es, t, k', v', ht, hne, hk', hraw, hocc⟩ := h
    cases ht with
    | noEntries =>
      rw [List.nil_append, Occurs.append_iff] at hocc
      obtain ⟨rfl, rfl⟩ := hkey hk' hocc.1
      rw [if_pos rfl]
      exact hval hraw hocc.2
    | entry hk'' hs'' ht =>
      rw [List.append_assoc, List.append_assoc, Occurs.append_iff, Occurs.append_iff] at hocc
      obtain ⟨rfl, rfl⟩ := hkey hk'' hocc.1
      obtain rfl := hval hs'' hocc.2.1
      rw [if_neg (hne (_, _) List.mem_cons_self)]
      exact ⟨_, _, k', v', ht, fun e he => hne e (by simp [he]), hk', hraw, hocc.2.2⟩
  · intro h
    split at h
    · next hinfo =>
      subst h
      have hocc : Occurs data pos (k ++ raw) := Occurs.append_iff.mpr ⟨hkocc, hsocc⟩
      exact ⟨[], [], k, v, .noEntries, by simp, hinfo ▸ hk, hs, hocc⟩
    · next hinfo =>
      obtain ⟨es, t, k', v', ht, hne, hk', hraw, hocc⟩ := h
      refine ⟨(key, v) :: es, _, k', v', .entry hk hs ht, ?_, hk', hraw, ?_⟩
      · intro e he
        rcases List.mem_cons.mp he with rfl | he
        · exact hinfo
        · exact hne e he
      · rw [List.append_assoc, List.append_assoc]
        exact Occurs.append_iff.mpr ⟨hkocc, Occurs.append_iff.mpr ⟨hsocc, hocc⟩⟩

theorem extractInfoLoop_eq_ok (b : Build) (hlen : data.length < 2 ^ 63) {fuel pos : ℕ}
    (hfuel : data.length - pos + 1 ≤ fuel) :
    extractInfoLoop b data fuel pos = .ok raw ↔ FirstInfo data pos raw := by
  induction fuel generalizing pos with
  | zero => omega
  | succ fuel ih =>
    rw [extractInfoLoop]
    split
    · next hnone =>
      simp only [reduceCtorEq, false_iff]
      intro h
      obtain ⟨c, hc, _⟩ := h.head
      simp [hnone] at hc
    next c hc =>
    have hpos := lt_length_of_getElem? hc
    split
    · next he =>
      simp only [reduceCtorEq, false_iff]
      intro h
      obtain ⟨c', hc', hne⟩ := h.head
      exact hne (Option.some.inj (hc'.symm.trans hc) ▸ he)
    simp only [Outcome.bind_eq_ok, Prod.exists]
    -- a step that both halves of the pair allow
    have hstep : ∀ {k key s v}, Style.lenient.Text k key → Occurs data pos k →
        Spells .lenient 0 (.value v) s → Occurs data (pos + k.length) s →
        ((if (BencodeValue.byteString key).asBytes = some infoKey then
            slice data (pos + k.length) (pos + k.length + s.length)
          else extractInfoLoop b data fuel (pos + k.length + s.length)) = .ok raw ↔
          FirstInfo data pos raw) := by
      intro k key s v hk hkocc hs hsocc
      have hkpos := hk.length_pos
      have hspos := hs.length_pos
      have hle := hsocc.add_le (List.length_pos_iff.mp hspos)
      rw [firstInfo_step hlen hk hkocc hs hsocc]
      simp only [BencodeValue.asBytes, Option.some.injEq]
      by_cases hinfo : key = infoKey
      · rw [if_pos hinfo, if_pos hinfo, slice_of_occurs (by omega) hsocc, Outcome.ok.injEq,
          eq_comm]
      · rw [if_neg hinfo, if_neg hinfo, ih (by omega)]
    constructor
    · intro h
      obtain ⟨kv, mid, hkv, v, next, hv, h⟩ := h
      obtain ⟨k, key, hk, hkocc, rfl, rfl⟩ := (parseByteString_eq_ok hlen hpos.le).mp hkv
      obtain ⟨s, hs, hsocc, rfl⟩ := (parseValue_eq_ok hlen).mp hv
      exact (hstep hk hkocc hs hsocc).mp h
    · intro h
      obtain ⟨k, key, s, v, hk, hkocc, hs, hsocc⟩ : ∃ k key s v, Style.lenient.Text k key ∧
          Occurs data pos k ∧ Spells .lenient 0 (.value v) s ∧
          Occurs data (pos + k.length) s := by
        obtain ⟨es, t, k', v', ht, _, hk', hraw, hocc⟩ := h
        cases ht with
        | noEntries =>
          rw [List.nil_append, Occurs.append_iff] at hocc
          exact ⟨k', _, raw, v', hk', hocc.1, hraw, hocc.2⟩
        | entry hk'' hs'' _ =>
          rw [List.append_assoc, List.append_assoc, Occurs.append_iff, Occurs.append_iff] at hocc
          exact ⟨_, _, _, _, hk'', hocc.1, hs'', hocc.2.1⟩
      refine ⟨_, _, (parseByteString_eq_ok hlen hpos.le).mpr ⟨k, key, hk, hkocc, rfl, rfl⟩,
        _, _, (parseValue_eq_ok hlen).mpr ⟨s, hs, hsocc, rfl⟩, ?_⟩
      exact (hstep hk hkocc hs hsocc).mpr h

/-- `extract_info_raw` returns the text of the first `info` value. -/
theorem extractInfoRaw_eq_ok {d : Bytes} :
    extractInfoRaw b d = .ok raw ↔ d.bytes.head? = some 0x64 ∧ FirstInfo d.bytes 1 raw := by
  rw [extractInfoRaw]
  split
  · next hd =>
    have hne : d.bytes ≠ [] := by
      intro h
      simp [h] at hd
    have hpos := List.length_pos_iff.mpr hne
    rw [extractInfoLoop_eq_ok b d.length_lt (by omega)]
    exact (and_iff_right hd).symm
  · next hd => simp [hd]

/-- `data` begins with a dictionary of these pairs. -/
def RootEntries (data : List UInt8) (es : RawEntries) : Prop :=
  ∃ s, Spells .lenient 1 (.entries es) s ∧ 0x64 :: (s ++ [0x65]) <+: data

/-- The parser reads a dictionary exactly from the pairs that the text begins with. -/
theorem parse_eq_dict {d : Bytes} {m : BTreeMap Str BencodeValue} :
    parse b d = .ok (.dict m) ↔ ∃ es, RootEntries d.bytes es ∧ m = dictOf es := by
  rw [parse_eq_ok]
  constructor
  · intro h
    obtain ⟨s, hs, hpre⟩ := h
    cases hs with
    | @dict _ es t _ _ ht => exact ⟨es, ⟨t, ht, hpre⟩, rfl⟩
  · intro h
    obtain ⟨es, ⟨t, ht, hpre⟩, rfl⟩ := h
    exact ⟨_, .dict (by decide) trivial ht, hpre⟩

/-- Of several `info` pairs the scan takes the first. -/
theorem extractInfoRaw_of_rootEntries {d : Bytes} {es fs : RawEntries} {v : BencodeValue}
    (h : RootEntries d.bytes (es ++ (infoKey, v) :: fs)) (hne : ∀ e ∈ es, e.1 ≠ infoKey) :
    ∃ raw, extractInfoRaw b d = .ok raw ∧ Spells .lenient 0 (.value v) raw := by
  obtain ⟨s, hs, r, hr⟩ := h
  obtain ⟨t, u, rfl, ht, hu⟩ := Spells.entries_append.mp hs
  obtain ⟨k, raw, w, rfl, hk, hv, _⟩ := Spells.entries_cons.mp hu
  have hraw := hv.depth_mono (Nat.zero_le 1)
  refine ⟨raw, extractInfoRaw_eq_ok.mpr ⟨by simp [← hr], ?_⟩, hraw⟩
  refine ⟨es, t, k, v, ht.depth_mono (Nat.zero_le 1), hne, hk, hraw, w ++ [0x65] ++ r, ?_⟩
  simp [← hr]

end Retorrent

import Retorrent.Peer.Extended

/-!
# The end of a metadata message's dictionary

`find_dict_end` steps over the entries of a dictionary that holds integers, whatever bytes
follow it. So a metadata message that is built is split where its dictionary ends.
-/

namespace Retorrent

open Rust BencodeValue

variable {b : Build} {data : List UInt8} {i fuel : ℕ} {depth : ℤ}

theorem indexOfFrom_of_occurs {s : List UInt8} {c : UInt8} (h : Occurs data i (s ++ [c]))
    (hs : c ∉ s) : indexOfFrom data c i = i + s.length := by
  rw [indexOfFrom, findIdx?_eq_some.mpr ⟨s, rfl, hs, h⟩, Option.getD_some]

theorem findDictEndLoop_next {j : ℕ} {deeper : ℤ}
    (h : findDictEndRound b data i depth = .ok (.next j deeper)) :
    findDictEndLoop b data (fuel + 1) i depth = findDictEndLoop b data fuel j deeper := by
  rw [findDictEndLoop, h]
  rfl

theorem findDictEndLoop_stop {result : Option ℕ}
    (h : findDictEndRound b data i depth = .ok (.stop result)) :
    findDictEndLoop b data (fuel + 1) i depth = .ok result := by
  rw [findDictEndLoop, h]
  rfl

theorem le_indexOfFrom (data : List UInt8) (c : UInt8) (i : ℕ) : i ≤ indexOfFrom data c i :=
  Nat.le_add_right _ _

theorem indexOfFrom_le (c : UInt8) (hi : i ≤ data.length) : indexOfFrom data c i ≤ data.length := by
  rw [indexOfFrom]
  cases hfind : (data.drop i).findIdx? (· == c) with
  | none =>
    rw [Option.getD_none]
    omega
  | some n =>
    obtain ⟨s, rfl, _, hs⟩ := findIdx?_eq_some.mp hfind
    have hle := hs.length_le
    rw [List.length_append] at hle
    rw [Option.getD_some]
    omega

/-- From `i` up to a colon or the end of the data stand digits that denote a `usize`. -/
structure LengthAt (data : List UInt8) (i : ℕ) (num : List UInt8) (n : ℕ) : Prop where
  text : (data.drop i).take (indexOfFrom data 0x3A i - i) = num
  digits : Num.Digits num n
  range : n < 2 ^ 64

namespace LengthAt

variable {num : List UInt8} {n : ℕ}

theorem occurs (h : LengthAt data i num n) : Occurs data i num := h.text ▸ .of_take

theorem index_eq (h : LengthAt data i num n) : indexOfFrom data 0x3A i = i + num.length := by
  have hle := h.occurs.add_le h.digits.1
  have hpos := List.length_pos_iff.mpr h.digits.1
  have hi : i ≤ data.length := by omega
  have hindex := indexOfFrom_le 0x3A hi
  have hfrom := le_indexOfFrom data 0x3A i
  have hlen := congrArg List.length h.text
  rw [List.length_take, List.length_drop] at hlen
  omega

/-- The length of a string that is announced. -/
theorem of_lengthPrefix (hdigits : Num.Digits num n) (h : LengthPrefix data i num n) :
    LengthAt data i num n where
  text := by
    rw [indexOfFrom_of_occurs h.2.2 (not_mem_of_unsignedNumeral h.1 (by decide) (by decide)),
      Nat.add_sub_cancel_left]
    exact (Occurs.append_iff.mp h.2.2).1.take_eq
  digits := hdigits
  range := h.2.1

end LengthAt

/-- What is done at a length: two additions to the cursor. -/
theorem findDictEndRound_length {num : List UInt8} {n : ℕ} (h : LengthAt data i num n) :
    findDictEndRound b data i depth = (do
      let skip ← b.addUsize 1 n
      let next ← b.addUsize (i + num.length) skip
      return .next next depth) := by
  obtain ⟨c, rest, rfl⟩ := List.exists_cons_of_ne_nil h.digits.1
  have hhead : data[i]? = some c := (Occurs.cons_iff.mp h.occurs).1
  have hdigit : Num.isDigit c = true := h.digits.2.1 c List.mem_cons_self
  have hnot : ∀ x, Num.isDigit x = false → c ≠ x := by
    rintro x hx rfl
    rw [hdigit] at hx
    simp at hx
  have hnumeral : Num.UnsignedNumeral (c :: rest) n := ⟨_, h.digits, .inl rfl⟩
  obtain ⟨s, hs, hbytes⟩ := strOf_signedNumeral (signedNumeral_of_unsigned hnumeral)
  have hutf8 : Str.fromUtf8 (c :: rest) = .ok s := by
    rw [Str.fromUtf8_eq_ok]
    exact hbytes
  have hparse : Num.parseUnsigned (2 ^ 64 - 1) s.bytes = .ok n := by
    rw [hbytes]
    exact Num.parseUnsigned_eq_ok.mpr ⟨hnumeral, Nat.le_sub_one_of_lt h.range⟩
  have htext := h.text
  rw [h.index_eq] at htext
  rw [findDictEndRound]
  simp only [hhead, hnot 0x64 (by decide), hnot 0x65 (by decide), hnot 0x69 (by decide), if_false,
    hdigit, if_true, h.index_eq, htext, hutf8, hparse]

/-- A string is stepped over by its length. -/
theorem findDictEndRound_text {num : List UInt8} {n : ℕ} (hdigits : Num.Digits num n)
    (h : LengthPrefix data i num n) (hfit : i + num.length + 1 + n < 2 ^ 64) :
    findDictEndRound b data i depth = .ok (.next (i + num.length + 1 + n) depth) := by
  rw [findDictEndRound_length (.of_lengthPrefix hdigits h), Build.addUsize_of_lt b (by omega),
    Outcome.ok_bind, Build.addUsize_of_lt b (by omega), Outcome.ok_bind,
    Nat.add_assoc (i + num.length)]
  rfl

/-- An integer is stepped over up to its end. -/
theorem findDictEndRound_integer {num : List UInt8} (h : Occurs data i (0x69 :: num ++ [0x65]))
    (hnum : (0x65 : UInt8) ∉ num) :
    findDictEndRound b data i depth = .ok (.next (i + num.length + 2) depth) := by
  have hindex : indexOfFrom data 0x65 i = i + (num.length + 1) := by
    refine indexOfFrom_of_occurs h ?_
    intro hmem
    rcases List.mem_cons.mp hmem with heq | hmem
    · exact absurd heq (by decide)
    · exact hnum hmem
  have hhead : data[i]? = some 0x69 := (Occurs.cons_iff.mp h).1
  rw [findDictEndRound]
  simp only [hhead, hindex]
  rfl

/-- A dictionary that opens leads one deeper. -/
theorem findDictEndRound_open (h : data[i]? = some 0x64) (hmin : -2 ^ 31 ≤ depth + 1)
    (hmax : depth + 1 < 2 ^ 31) :
    findDictEndRound b data i depth = .ok (.next (i + 1) (depth + 1)) := by
  rw [findDictEndRound, h]
  simp only [if_true]
  rw [Build.addI32_of_lt b hmin hmax]
  rfl

/-- One that closes leads back, and ends the scan at the outermost. -/
theorem findDictEndRound_close (h : data[i]? = some 0x65) (hmin : -2 ^ 31 ≤ depth - 1)
    (hmax : depth - 1 < 2 ^ 31) :
    findDictEndRound b data i depth =
      .ok (if depth - 1 = 0 then .stop (some (i + 1)) else .next (i + 1) (depth - 1)) := by
  rw [findDictEndRound, h]
  simp only [show (0x65 : UInt8) ≠ 0x64 by decide, if_false, if_true]
  rw [Build.subI32_of_lt b hmin hmax]
  rfl

/-- The entries of a dictionary of integers take two rounds each. -/
theorem findDictEndLoop_entries (hlen : data.length < 2 ^ 63) (m : Dict)
    (hm : ∀ e ∈ m, ∃ n, e.2 = .integer n) (h : Occurs data i (encodeEntries m))
    (hi : i ≤ data.length) :
    findDictEndLoop b data (fuel + 2 * m.length) i depth =
      findDictEndLoop b data fuel (i + (encodeEntries m).length) depth := by
  induction m generalizing i with
  | nil => rfl
  | cons e m ih =>
    obtain ⟨k, v⟩ := e
    obtain ⟨⟨n, hn⟩, hrest⟩ := List.forall_mem_cons.mp hm
    obtain rfl : v = .integer n := hn
    rw [encodeEntries, encodeValue] at h
    have htotal := h.length_le
    simp only [List.length_append, List.length_cons, List.length_nil] at htotal
    obtain ⟨hentry, hmore⟩ := Occurs.append_iff.mp h
    obtain ⟨hkey, hval⟩ := Occurs.append_iff.mp hentry
    have hdigits := Num.decimal_digits k.bytes.length
    -- the scan reads the length of the key and jumps over it
    have hprefix : LengthPrefix data i (Num.decimal k.bytes.length) k.bytes.length := by
      refine ⟨⟨_, hdigits, .inl rfl⟩, by omega, ?_⟩
      rw [List.append_cons] at hkey
      exact (Occurs.append_iff.mp hkey).1
    have hnumeral : (0x65 : UInt8) ∉ Num.decimalInt n :=
      not_mem_of_signedNumeral (signedNumeral_decimalInt n) (by decide) (by decide) (by decide)
    have hstart : i + (Num.decimal k.bytes.length ++ 0x3A :: k.bytes).length =
        i + (Num.decimal k.bytes.length).length + 1 + k.bytes.length := by
      simp only [List.length_append, List.length_cons]
      omega
    have hnext : i + (Num.decimal k.bytes.length ++ 0x3A :: k.bytes ++
          0x69 :: (Num.decimalInt n ++ [0x65])).length =
        i + (Num.decimal k.bytes.length).length + 1 + k.bytes.length +
          (Num.decimalInt n).length + 2 := by
      simp only [List.length_append, List.length_cons, List.length_nil]
      omega
    rw [hstart] at hval
    rw [hnext] at hmore
    -- the key takes one round, the integer another, and the rest those of the induction
    calc findDictEndLoop b data (fuel + 2 * (m.length + 1)) i depth
      _ = findDictEndLoop b data (fuel + 2 * m.length + 1)
            (i + (Num.decimal k.bytes.length).length + 1 + k.bytes.length) depth :=
          findDictEndLoop_next (findDictEndRound_text hdigits hprefix (by omega))
      _ = findDictEndLoop b data (fuel + 2 * m.length)
            (i + (Num.decimal k.bytes.length).length + 1 + k.bytes.length +
              (Num.decimalInt n).length + 2) depth :=
          findDictEndLoop_next (findDictEndRound_integer hval hnumeral)
      _ = findDictEndLoop b data fuel (i + (Num.decimal k.bytes.length).length + 1 +
            k.bytes.length + (Num.decimalInt n).length + 2 + (encodeEntries m).length) depth :=
          ih hrest hmore (by omega)
      _ = findDictEndLoop b data fuel
            (i + (encodeEntries ((k, .integer n) :: m)).length) depth := by
          rw [← hnext, Nat.add_assoc i, ← List.length_append]
          rfl

theorem count_le_encodeEntries (m : Dict) : 2 * m.length ≤ (encodeEntries m).length := by
  induction m with
  | nil => rfl
  | cons e m ih =>
    obtain ⟨k, v⟩ := e
    have hne := List.length_pos_iff.mpr (decimal_ne_nil k.bytes.length)
    simp only [encodeEntries, List.length_append, List.length_cons]
    omega

/-- The end of a dictionary of integers is found, whatever follows it. -/
theorem findDictEnd_integers (hlen : data.length < 2 ^ 63) {m : Dict}
    (hm : ∀ e ∈ m, ∃ n, e.2 = .integer n) (h : Occurs data 0 (encodeValue (.dict m))) :
    findDictEnd b data = .ok (some (encodeValue (.dict m)).length) := by
  rw [encodeValue] at h ⊢
  have htotal := h.length_le
  obtain ⟨hhead, hbody⟩ := Occurs.cons_iff.mp h
  obtain ⟨hentries, hend⟩ := Occurs.append_iff.mp hbody
  have hlast := (Occurs.cons_iff.mp hend).1
  simp only [List.length_cons, List.length_append, List.length_nil] at htotal ⊢
  have hcount := count_le_encodeEntries m
  obtain ⟨fuel, hfuel⟩ : ∃ fuel, data.length * 2 ^ 32 + 1 = fuel + 1 + 2 * m.length + 1 :=
    ⟨data.length * 2 ^ 32 - (2 * m.length + 1), by omega⟩
  rw [findDictEnd, if_pos (by rw [List.head?_eq_getElem?, hhead]), hfuel]
  calc findDictEndLoop b data (fuel + 1 + 2 * m.length + 1) 0 0
    _ = findDictEndLoop b data (fuel + 1 + 2 * m.length) 1 1 := by
        exact findDictEndLoop_next (findDictEndRound_open hhead (by decide) (by decide))
    _ = findDictEndLoop b data (fuel + 1) (1 + (encodeEntries m).length) 1 :=
        findDictEndLoop_entries hlen m hm hentries (by omega)
    _ = .ok (some ((encodeEntries m).length + 1 + 1)) := by
        rw [Nat.zero_add] at hlast
        rw [Nat.add_comm (encodeEntries m).length 1]
        exact findDictEndLoop_stop (findDictEndRound_close hlast (by decide) (by decide))

/-- A message is read as its dictionary and the bytes behind it. -/
theorem parseMetadataMessage_of_dict {payload : Bytes} {m : Dict}
    (hm : ∀ e ∈ m, ∃ n, e.2 = .integer n) (hfits : Fits maxParseDepth (.dict m))
    (h : payload.bytes = encodeValue (.dict m) ++ data) :
    parseMetadataMessage b payload = .ok (.ofDict m data) := by
  have hlen : (encodeValue (.dict m)).length ≤ payload.bytes.length := by
    rw [h, List.length_append]
    exact Nat.le_add_right _ _
  have hend : findDictEnd b payload.bytes = .ok (some (encodeValue (.dict m)).length) :=
    findDictEnd_integers payload.length_lt hm ⟨data, h.symm⟩
  have hparse : parse b (upTo payload (encodeValue (.dict m)).length) = .ok (.dict m) := by
    refine parse_encode_of_fits hfits (Bytes.ofList_eq_ok.mpr ?_)
    show payload.bytes.take _ = _
    rw [h, List.take_left]
  have htail : sliceFrom payload.bytes (encodeValue (.dict m)).length = (.ok data : Res _) := by
    rw [sliceFrom_of_le hlen, h, List.drop_left]
  rw [parseMetadataMessage, hend, Outcome.ok_bind]
  simp only [htail, Outcome.ok_bind, hparse, asDict]
  rfl

theorem asU64_asI64 {n : ℕ} (hn : n < 2 ^ 64) : asU64 (asI64 n) = n := by
  rw [asU64, asI64]
  split <;> omega

theorem fits_asI64 (n : ℕ) (k : ℕ) (hk : k < 2 ^ 64) : Fits n (.integer (asI64 k)) := by
  rw [asI64]
  split
  · exact fits_integer _ (by omega) (by omega)
  · exact fits_integer _ (by omega) (by omega)

/-- What a message about a piece holds. -/
theorem metadataValue_eq {msgType piece : ℕ} {size : Option ℕ} (htype : msgType < 256)
    (hpiece : piece < 2 ^ 64) (hsize : ∀ n ∈ size, n < 2 ^ 64) :
    ∃ m : Dict, metadataValue msgType piece size = .dict m ∧
      (∀ e ∈ m, ∃ n, e.2 = .integer n) ∧ FitsMap 127 m ∧
      integerAt m "msg_type" = some (msgType : ℤ) ∧ integerAt m "piece" = some (asI64 piece) ∧
      integerAt m "total_size" = size.map asI64 := by
  have hentries : ∀ e ∈ [((.ascii "msg_type" : Str), BencodeValue.integer msgType),
      (.ascii "piece", .integer (asI64 piece))], (∃ n, e.2 = .integer n) ∧ Fits 127 e.2 := by
    intro e he
    simp only [List.mem_cons, List.not_mem_nil, or_false] at he
    rcases he with rfl | rfl
    · exact ⟨⟨_, rfl⟩, fits_integer _ (by omega) (by omega)⟩
    · exact ⟨⟨_, rfl⟩, fits_asI64 _ _ hpiece⟩
  have hfits := fitsMap_ofEntries fun e he => (hentries e he).2
  cases size with
  | none =>
    refine ⟨_, rfl, fun e he => (hentries e (BTreeMap.mem_ofEntries he)).1, hfits, ?_, ?_, ?_⟩
    all_goals simp only [integerAt, BTreeMap.ofEntries, BTreeMap.extend_cons, BTreeMap.extend_nil,
      BTreeMap.get_insert]
    · rw [if_neg (by decide), if_pos trivial]
      rfl
    · rw [if_pos trivial]
      rfl
    · rw [if_neg (by decide), if_neg (by decide)]
      rfl
  | some n =>
    refine ⟨_, rfl, ?_, hfits.insert _ (fits_asI64 _ _ (hsize n rfl)), ?_, ?_, ?_⟩
    · intro e he
      rcases BTreeMap.mem_insert he with rfl | he
      · exact ⟨_, rfl⟩
      · exact (hentries e (BTreeMap.mem_ofEntries he)).1
    all_goals simp only [integerAt, BTreeMap.ofEntries, BTreeMap.extend_cons, BTreeMap.extend_nil,
      BTreeMap.get_insert]
    · rw [if_neg (by decide), if_neg (by decide), if_pos trivial]
      rfl
    · rw [if_neg (by decide), if_pos trivial]
      rfl
    · rw [if_pos trivial]
      rfl

/-- A piece of metadata that is built is read back, whatever bytes it holds. -/
theorem parseMetadataMessage_data {piece : ℕ} {size : Option ℕ} (hpiece : piece < 2 ^ 64)
    (hsize : ∀ n ∈ size, n < 2 ^ 64) {payload : Bytes}
    (h : buildMetadataData piece size data = .ok payload) :
    parseMetadataMessage b payload = .ok ⟨1, piece, size.getD 0, data⟩ := by
  obtain ⟨m, hm, hints, hfits, htype, hindex, htotal⟩ :=
    metadataValue_eq (show 1 < 256 by decide) hpiece hsize
  obtain ⟨header, hheader, h⟩ := Outcome.bind_eq_ok.mp h
  rw [hm] at hheader
  have hbytes : payload.bytes = encodeValue (.dict m) ++ data := by
    rw [Bytes.ofList_eq_ok.mp h, Bytes.ofList_eq_ok.mp hheader]
  rw [parseMetadataMessage_of_dict hints (fits_dict hfits) hbytes, MetadataMessage.ofDict, htype,
    hindex, htotal]
  have hsize' : asU64 ((size.map asI64).getD 0) = size.getD 0 := by
    cases size with
    | none => rfl
    | some n => exact asU64_asI64 (hsize n rfl)
  simp only [Option.getD_some, asU64_asI64 hpiece, hsize']
  rfl

end Retorrent

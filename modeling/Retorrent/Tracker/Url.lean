import Mathlib.Data.List.TakeWhile
import Retorrent.Tracker

/-!
# The URL of an announce

A server reads the parameters of a URL between the first `?` and the fragment. Those of an announce
come behind the ones that the tracker's own URL has.
-/

namespace Retorrent

open Rust

/-- What stands between the first `?` of a URL and its fragment. -/
def urlQuery (url : List UInt8) : Option (List UInt8) :=
  match (url.takeWhile (· != 0x23)).dropWhile (· != 0x3F) with
  | [] => none
  | _ :: query => some query

/-- A parameter: its key, and its value in percent-decoding. -/
def readParam (part : List UInt8) : List UInt8 × List UInt8 :=
  (part.takeWhile (· != 0x3D), percentDecode (part.dropWhile (· != 0x3D)).tail)

/-- The parameters of a URL in their order. -/
def urlParams (url : List UInt8) : List (List UInt8 × List UInt8) :=
  match urlQuery url with
  | none => []
  | some query => (query.splitOn 0x26).map readParam

/-- The parameters that an announce tells the tracker. -/
def announceParams (infoHash peerId : Hash) (a : Announce) : List (List UInt8 × List UInt8) :=
  [(Str.asciiBytes "info_hash", infoHash.1), (Str.asciiBytes "peer_id", peerId.1),
    (Str.asciiBytes "port", Num.decimal a.port.toNat),
    (Str.asciiBytes "uploaded", Num.decimal a.uploaded.toNat),
    (Str.asciiBytes "downloaded", Num.decimal a.downloaded.toNat),
    (Str.asciiBytes "left", Num.decimal a.left.toNat),
    (Str.asciiBytes "compact", Str.asciiBytes "1"),
    (Str.asciiBytes "numwant", Str.asciiBytes "100")] ++
  a.event.toList.map fun ev => (Str.asciiBytes "event", ev.text.bytes)

section Written

/-- A byte that ends no part of a query. -/
def Inner (x : UInt8) : Prop := x ≠ 0x23 ∧ x ≠ 0x26

instance (x : UInt8) : Decidable (Inner x) := inferInstanceAs (Decidable (_ ∧ _))

/-- A parameter as the client writes it. -/
structure WrittenParam (p : List UInt8 × List UInt8) (part : List UInt8) : Prop where
  split : ∃ text, part = p.1 ++ 0x3D :: text ∧ PercentEncodes p.2 text
  key : 0x3D ∉ p.1
  inner : ∀ x ∈ part, Inner x

variable {p : List UInt8 × List UInt8} {part : List UInt8}

theorem takeWhile_append_cons {c : UInt8} {s : List UInt8} (h : c ∉ s) (t : List UInt8) :
    (s ++ c :: t).takeWhile (· != c) = s ∧ (s ++ c :: t).dropWhile (· != c) = c :: t := by
  have hall : ∀ x ∈ s, (x != c) = true := by
    intro x hx
    rw [bne_iff_ne]
    rintro rfl
    exact h hx
  constructor
  · rw [List.takeWhile_append_of_pos hall, List.takeWhile_cons_of_neg (by simp), List.append_nil]
  · rw [List.dropWhile_append_of_pos hall, List.dropWhile_cons_of_neg (by simp)]

theorem takeWhile_ne_eq_self {c : UInt8} {s : List UInt8} (h : c ∉ s) :
    s.takeWhile (· != c) = s := by
  refine List.takeWhile_eq_self_iff.mpr fun x hx => ?_
  rw [bne_iff_ne]
  rintro rfl
  exact h hx

theorem readParam_written (h : WrittenParam p part) : readParam part = p := by
  obtain ⟨text, rfl, htext⟩ := h.split
  obtain ⟨hkey, hvalue⟩ := takeWhile_append_cons h.key text
  rw [readParam, hkey, hvalue, List.tail_cons, percentDecode_of_encodes htext]

theorem map_readParam_written {ps : List (List UInt8 × List UInt8)} {parts : List (List UInt8)}
    (h : List.Forall₂ WrittenParam ps parts) : parts.map readParam = ps := by
  induction h with
  | nil => rfl
  | cons hp _ ih => rw [List.map_cons, readParam_written hp, ih]

/-- Nothing that a server cuts at stands in the parts. -/
theorem inner_written {ps : List (List UInt8 × List UInt8)} {parts : List (List UInt8)}
    (h : List.Forall₂ WrittenParam ps parts) : ∀ part ∈ parts, ∀ x ∈ part, Inner x := by
  induction h with
  | nil => simp
  | cons hp _ ih => exact List.forall_mem_cons.mpr ⟨hp.inner, ih⟩

/-- What is joined stands in a part or is the separator. -/
theorem mem_intercalate {c x : UInt8} {parts : List (List UInt8)}
    (h : x ∈ [c].intercalate parts) : x = c ∨ ∃ part ∈ parts, x ∈ part := by
  induction parts with
  | nil => simp at h
  | cons part parts ih =>
    cases parts with
    | nil =>
      rw [List.intercalate_singleton] at h
      exact .inr ⟨part, List.mem_cons_self, h⟩
    | cons next parts =>
      rw [List.intercalate_cons_cons, List.append_assoc] at h
      rcases List.mem_append.mp h with h | h
      · exact .inr ⟨part, List.mem_cons_self, h⟩
      · rcases List.mem_cons.mp h with rfl | h
        · exact .inl rfl
        · rcases ih h with rfl | ⟨other, hother, hx⟩
          · exact .inl rfl
          · exact .inr ⟨other, List.mem_cons_of_mem part hother, hx⟩

end Written

section Encoding

theorem percentEncodes_urlencodingByte (c : UInt8) {plain text : List UInt8}
    (h : PercentEncodes plain text) :
    PercentEncodes (c :: plain) (urlencodingByte c ++ text) := by
  have hliteral : ∀ c : UInt8, isUnreserved c = true → c ≠ percent :=
    forall_byte (p := fun c => isUnreserved c = true → c ≠ percent) (by decide +kernel)
  have hlower : ∀ c : UInt8, ((hexEncode [c]).map toAsciiUppercase).map toAsciiLowercase =
      hexEncode [c] :=
    forall_byte (p := fun c => ((hexEncode [c]).map toAsciiUppercase).map toAsciiLowercase =
      hexEncode [c]) (by decide +kernel)
  rw [urlencodingByte]
  split
  · next hc => exact .literal (hliteral c hc) h
  · exact .escaped (hlower c) h

/-- The encoding of `urlencoding_bytes` is a percent-encoding. -/
theorem percentEncodes_urlencodingBytes (bytes : List UInt8) :
    PercentEncodes bytes (urlencodingBytes bytes).bytes := by
  induction bytes with
  | nil => exact .nil
  | cons c bytes ih => exact percentEncodes_urlencodingByte c ih

theorem inner_of_plain {x : UInt8} (h : isUnreserved x = true ∨ x = percent) : Inner x :=
  forall_byte (p := fun x => isUnreserved x = true ∨ x = percent → Inner x) (by decide +kernel) x h

/-- A key of digits and letters before a text that has no separator in it. -/
theorem written_of_encodes {key plain text : List UInt8} (hkey : key.all isUnreserved)
    (hencodes : PercentEncodes plain text)
    (htext : ∀ x ∈ text, isUnreserved x = true ∨ x = percent) :
    WrittenParam (key, plain) (key ++ 0x3D :: text) where
  split := ⟨text, rfl, hencodes⟩
  key hmem := absurd (List.all_eq_true.mp hkey _ hmem) (by decide)
  inner x hx := by
    rcases List.mem_append.mp hx with hx | hx
    · exact inner_of_plain (.inl (List.all_eq_true.mp hkey x hx))
    · rcases List.mem_cons.mp hx with rfl | hx
      · decide
      · exact inner_of_plain (htext x hx)

theorem written_urlencodingBytes {key : List UInt8} (hkey : key.all isUnreserved)
    (bytes : List UInt8) :
    WrittenParam (key, bytes) (key ++ 0x3D :: (urlencodingBytes bytes).bytes) :=
  written_of_encodes hkey (percentEncodes_urlencodingBytes bytes) fun _ => plain_of_mem_urlencoding

/-- Digits and letters stand for themselves. -/
theorem written_plain {key text : List UInt8} (hkey : key.all isUnreserved)
    (htext : ∀ x ∈ text, isUnreserved x = true) :
    WrittenParam (key, text) (key ++ 0x3D :: text) := by
  have hpercent : percent ∉ text := fun hmem => absurd (htext percent hmem) (by decide)
  exact written_of_encodes hkey (percentEncodes_self hpercent) fun x hx => .inl (htext x hx)

theorem unreserved_of_mem_decimal {n : ℕ} {x : UInt8} (h : x ∈ Num.decimal n) :
    isUnreserved x = true := by
  have hdigit : ∀ x : UInt8, Num.isDigit x = true → isUnreserved x = true :=
    forall_byte (p := fun x => Num.isDigit x = true → isUnreserved x = true) (by decide +kernel)
  exact hdigit x ((Num.decimal_digits n).2.1 x h)

theorem unreserved_of_mem_text {ev : TrackerEvent} {x : UInt8} (h : x ∈ ev.text.bytes) :
    isUnreserved x = true := by
  have hall : ev.text.bytes.all isUnreserved := by
    cases ev
    all_goals decide
  exact List.all_eq_true.mp hall x h

end Encoding

variable (infoHash peerId : Hash) (a : Announce)

/-- The parts of the query that `http_announce` writes. -/
def announceParts : List (List UInt8) :=
  [Str.asciiBytes "info_hash" ++ 0x3D :: (urlencodingBytes infoHash.1).bytes,
    Str.asciiBytes "peer_id" ++ 0x3D :: (urlencodingBytes peerId.1).bytes,
    Str.asciiBytes "port" ++ 0x3D :: Num.decimal a.port.toNat,
    Str.asciiBytes "uploaded" ++ 0x3D :: Num.decimal a.uploaded.toNat,
    Str.asciiBytes "downloaded" ++ 0x3D :: Num.decimal a.downloaded.toNat,
    Str.asciiBytes "left" ++ 0x3D :: Num.decimal a.left.toNat,
    Str.asciiBytes "compact" ++ 0x3D :: Str.asciiBytes "1",
    Str.asciiBytes "numwant" ++ 0x3D :: Str.asciiBytes "100"] ++
  a.event.toList.map fun ev => Str.asciiBytes "event" ++ 0x3D :: ev.text.bytes

theorem written_announceParts :
    List.Forall₂ WrittenParam (announceParams infoHash peerId a)
      (announceParts infoHash peerId a) := by
  refine List.rel_append ?_ ?_
  · refine .cons (written_urlencodingBytes (by decide) _) ?_
    refine .cons (written_urlencodingBytes (by decide) _) ?_
    refine .cons (written_plain (by decide) fun _ => unreserved_of_mem_decimal) ?_
    refine .cons (written_plain (by decide) fun _ => unreserved_of_mem_decimal) ?_
    refine .cons (written_plain (by decide) fun _ => unreserved_of_mem_decimal) ?_
    refine .cons (written_plain (by decide) fun _ => unreserved_of_mem_decimal) ?_
    refine .cons (written_plain (by decide) (List.all_eq_true.mp (by decide))) ?_
    exact .cons (written_plain (by decide) (List.all_eq_true.mp (by decide))) .nil
  · cases a.event with
    | none => exact .nil
    | some ev =>
      exact .cons (written_plain (by decide) fun _ => unreserved_of_mem_text) .nil

/-- The byte in front of the query: `&` behind a `?`, and else `?`. -/
def separator (url : List UInt8) : UInt8 := if 0x3F ∈ url then 0x26 else 0x3F

theorem contains_question (s : Str) : s.contains (.ascii "?") = true ↔ 0x3F ∈ s.bytes := by
  have hpat : (Str.ascii "?").bytes = [0x3F] := by decide
  rw [Str.contains, hpat, List.any_eq_true]
  constructor
  · rintro ⟨t, ht, hprefix⟩
    obtain ⟨rest, rfl⟩ := List.isPrefixOf_iff_prefix.mp hprefix
    exact ((List.mem_tails _ _).mp ht).subset List.mem_cons_self
  · intro hmem
    obtain ⟨pre, post, hsplit⟩ := List.append_of_mem hmem
    refine ⟨0x3F :: post, (List.mem_tails _ _).mpr ⟨pre, hsplit.symm⟩, ?_⟩
    exact List.isPrefixOf_iff_prefix.mpr ⟨post, rfl⟩

theorem httpAnnounceUrl_bytes :
    (httpAnnounceUrl infoHash peerId a).bytes = a.url.bytes ++
      separator a.url.bytes :: [0x26].intercalate (announceParts infoHash peerId a) := by
  have hsep : (if a.url.contains (.ascii "?") then Str.ascii "&" else Str.ascii "?").bytes =
      [separator a.url.bytes] := by
    rw [separator]
    by_cases hmem : 0x3F ∈ a.url.bytes
    · rw [if_pos ((contains_question a.url).mpr hmem), if_pos hmem]
      decide
    · rw [if_neg (fun h => hmem ((contains_question a.url).mp h)), if_neg hmem]
      decide
  -- the literals of the source with the `&` and the `=` of their parts
  have hinfo : Str.asciiBytes "info_hash=" = Str.asciiBytes "info_hash" ++ [0x3D] := by decide
  have hpeer : Str.asciiBytes "&peer_id=" = 0x26 :: (Str.asciiBytes "peer_id" ++ [0x3D]) := by
    decide
  have hport : Str.asciiBytes "&port=" = 0x26 :: (Str.asciiBytes "port" ++ [0x3D]) := by decide
  have hup : Str.asciiBytes "&uploaded=" = 0x26 :: (Str.asciiBytes "uploaded" ++ [0x3D]) := by
    decide
  have hdown : Str.asciiBytes "&downloaded=" = 0x26 :: (Str.asciiBytes "downloaded" ++ [0x3D]) := by
    decide
  have hleft : Str.asciiBytes "&left=" = 0x26 :: (Str.asciiBytes "left" ++ [0x3D]) := by decide
  have hend : Str.asciiBytes "&compact=1&numwant=100" =
      0x26 :: (Str.asciiBytes "compact" ++ 0x3D :: (Str.asciiBytes "1" ++
        0x26 :: (Str.asciiBytes "numwant" ++ 0x3D :: Str.asciiBytes "100"))) := by
    decide
  have hevent : Str.asciiBytes "&event=" = 0x26 :: (Str.asciiBytes "event" ++ [0x3D]) := by decide
  rw [httpAnnounceUrl, announceParts]
  cases a.event with
  | none =>
    simp only [Str.append_bytes, Str.ascii_bytes, Str.ofNat_bytes, hsep, hinfo, hpeer, hport, hup,
      hdown, hleft, hend, Option.toList_none, List.map_nil, List.append_nil,
      List.intercalate_cons_cons, List.intercalate_singleton, List.append_assoc, List.cons_append,
      List.nil_append]
  | some ev =>
    simp only [Str.append_bytes, Str.ascii_bytes, Str.ofNat_bytes, hsep, hinfo, hpeer, hport, hup,
      hdown, hleft, hend, hevent, Option.toList_some, List.map_cons, List.map_nil,
      List.intercalate_cons_cons, List.intercalate_singleton, List.append_assoc, List.cons_append,
      List.nil_append]

/-- The parts of the query are read one by one. -/
theorem map_readParam_announceParts :
    (([0x26].intercalate (announceParts infoHash peerId a)).splitOn 0x26).map readParam =
      announceParams infoHash peerId a := by
  have hwritten := written_announceParts infoHash peerId a
  have hparts : ∀ part ∈ announceParts infoHash peerId a, 0x26 ∉ part := by
    intro part hpart hmem
    exact (inner_written hwritten part hpart _ hmem).2 rfl
  rw [List.splitOn_intercalate 0x26 hparts (by simp [announceParts]),
    map_readParam_written hwritten]

/-- The client writes no fragment. -/
theorem fragment_not_mem :
    0x23 ∉ separator a.url.bytes :: [0x26].intercalate (announceParts infoHash peerId a) := by
  intro hmem
  rcases List.mem_cons.mp hmem with hsep | hmem
  · rw [separator] at hsep
    split at hsep
    · exact absurd hsep (by decide)
    · exact absurd hsep (by decide)
  · rcases mem_intercalate hmem with hsep | ⟨part, hpart, hx⟩
    · exact absurd hsep (by decide)
    · exact (inner_written (written_announceParts infoHash peerId a) part hpart _ hx).1 rfl

/-- A fragment hides what is written behind it. -/
theorem urlParams_fragment {url : List UInt8} (h : 0x23 ∈ url) (rest : List UInt8) :
    urlParams (url ++ rest) = urlParams url := by
  have hcut : (url ++ rest).takeWhile (· != 0x23) = url.takeWhile (· != 0x23) := by
    obtain ⟨pre, post, rfl, hpre⟩ := List.eq_append_cons_of_mem h
    rw [List.append_assoc, List.cons_append, (takeWhile_append_cons hpre _).1,
      (takeWhile_append_cons hpre _).1]
  rw [urlParams, urlParams, urlQuery, urlQuery, hcut]

/-- Without a fragment the query is all that follows the first `?`. -/
theorem urlQuery_append_cons {pre : List UInt8} (hpre : 0x3F ∉ pre) {query : List UInt8}
    (h : 0x23 ∉ pre ++ 0x3F :: query) : urlQuery (pre ++ 0x3F :: query) = some query := by
  have hself : (pre ++ 0x3F :: query).takeWhile (· != 0x23) = pre ++ 0x3F :: query :=
    takeWhile_ne_eq_self h
  rw [urlQuery, hself, (takeWhile_append_cons hpre query).2]

theorem urlParams_of_no_query {url : List UInt8} (h : 0x3F ∉ url) : urlParams url = [] := by
  have hnone : (url.takeWhile (· != 0x23)).dropWhile (· != 0x3F) = [] := by
    refine List.dropWhile_eq_nil_iff.mpr fun x hx => ?_
    rw [bne_iff_ne]
    rintro rfl
    exact h ((List.takeWhile_prefix _).subset hx)
  rw [urlParams, urlQuery, hnone]

/-- A server reads behind the parameters of the tracker's URL those of the announce, the two ids
among them byte for byte. Of a URL with a fragment it reads none of them. -/
theorem urlParams_httpAnnounceUrl :
    urlParams (httpAnnounceUrl infoHash peerId a).bytes = urlParams a.url.bytes ++
      if 0x23 ∈ a.url.bytes then [] else announceParams infoHash peerId a := by
  rw [httpAnnounceUrl_bytes]
  by_cases hfragment : 0x23 ∈ a.url.bytes
  · rw [urlParams_fragment hfragment, if_pos hfragment, List.append_nil]
  · have hall := fragment_not_mem infoHash peerId a
    rw [if_neg hfragment]
    by_cases hquery : 0x3F ∈ a.url.bytes
    · -- the tracker's URL has a query, which goes on behind `&`
      obtain ⟨pre, post, hurl, hpre⟩ := List.eq_append_cons_of_mem hquery
      rw [separator, if_pos hquery] at hall ⊢
      rw [hurl] at hfragment ⊢
      have hboth : 0x23 ∉ pre ++ 0x3F :: (post ++
          0x26 :: [0x26].intercalate (announceParts infoHash peerId a)) := by
        rw [← List.cons_append, ← List.append_assoc, List.mem_append, not_or]
        exact ⟨hfragment, hall⟩
      rw [List.append_assoc, List.cons_append, urlParams, urlQuery_append_cons hpre hboth,
        urlParams, urlQuery_append_cons hpre hfragment]
      simp only [List.splitOn_append_cons_self, List.map_append, map_readParam_announceParts]
    · rw [separator, if_neg hquery] at hall ⊢
      have hboth : 0x23 ∉ a.url.bytes ++
          0x3F :: [0x26].intercalate (announceParts infoHash peerId a) := by
        rw [List.mem_append, not_or]
        exact ⟨hfragment, hall⟩
      rw [urlParams_of_no_query hquery, List.nil_append, urlParams,
        urlQuery_append_cons hquery hboth]
      exact map_readParam_announceParts infoHash peerId a

end Retorrent

import Retorrent.Base32
import Retorrent.Error
import Retorrent.Percent
import Retorrent.Rustlib.Split

/-!
# Magnet links

`MagnetLink::parse`. The query of the URI is cut into parameters, and each of them adds to what the
loop has found before it.
-/

namespace Retorrent

open Rust

/-- What the parser takes from its libraries: `urlencoding::decode`, `hex::decode`, and the upper
case of characters outside ASCII. -/
structure Codecs where
  urlDecode : Str → Option Str
  hexDecode : List UInt8 → Option (List UInt8)
  upper : List UInt8 → Str

/-- The conversion of decoded bytes into an id. -/
def hashOfBytes (bytes : List UInt8) : Option Hash :=
  if h : bytes.length = 20 then some ⟨bytes, h⟩ else none

/-- `InfoHash::from_hex`. -/
def Codecs.fromHex (cs : Codecs) (s : Str) : Option Hash := do
  let bytes ← cs.hexDecode s.bytes
  hashOfBytes bytes

structure MagnetLink where
  infoHash : Hash
  displayName : Option Str
  trackers : List Str
  webSeeds : List Str
  deriving DecidableEq

abbrev ampersand : Ascii := ⟨0x26, by decide⟩

abbrev equalsSign : Ascii := ⟨0x3D, by decide⟩

/-- The id that the value of an `xt` parameter gives. -/
def xtHash (cs : Codecs) (decoded : Str) : Option Hash := do
  let hexStr ← decoded.stripPrefix (.ascii "urn:btih:")
  if hexStr.bytes.length = 40 then
    cs.fromHex hexStr
  else if hexStr.bytes.length = 32 then
    let bytes ← base32Decode cs.upper hexStr
    hashOfBytes bytes
  else none

/-- What the loop has found so far. -/
structure Found where
  infoHash : Option Hash := none
  displayName : Option Str := none
  trackers : List Str := []
  webSeeds : List Str := []

/-- The arms of the `match`. -/
def Found.add (cs : Codecs) (found : Found) (key decoded : Str) : Found :=
  if key = .ascii "xt" then { found with infoHash := (xtHash cs decoded).or found.infoHash }
  else if key = .ascii "dn" then { found with displayName := some decoded }
  else if key = .ascii "tr" then { found with trackers := found.trackers ++ [decoded] }
  else if key = .ascii "ws" then { found with webSeeds := found.webSeeds ++ [decoded] }
  else found

/-- The body of the loop. -/
def Found.addPair (cs : Codecs) (found : Found) (pair : Str) : Found :=
  let kv := pair.splitn equalsSign 2
  let key := kv[0]?.getD (.ascii "")
  let val := kv[1]?.getD (.ascii "")
  let decoded := (cs.urlDecode val).getD (.ascii "")
  found.add cs key decoded

/-- The link that is made of what was found, which must have an id. -/
def Found.finish (found : Found) : Res MagnetLink :=
  match found.infoHash with
  | none => .err (.magnetParse (.ascii "No valid info hash found"))
  | some infoHash =>
    .ok {
      infoHash
      displayName := found.displayName
      trackers := found.trackers
      webSeeds := found.webSeeds }

/-- `MagnetLink::parse`. -/
def MagnetLink.parse (cs : Codecs) (uri : Str) : Res MagnetLink :=
  match uri.stripPrefix (.ascii "magnet:?") with
  | none => .err (.magnetParse (.ascii "Not a magnet URI"))
  | some query => ((query.split ampersand).foldl (Found.addPair cs) {}).finish

/-- A parameter of a URI. -/
structure Param where
  key : Str
  value : Str

/-- The keys that the parser has an arm for. -/
def knownKeys : List Str := [.ascii "xt", .ascii "dn", .ascii "tr", .ascii "ws"]

/-- The texts of a parameter: its key and, behind `=`, the value in percent-encoding. Without `=`
the value is empty. Of a key that the parser does not know, the value may be written in any way. -/
inductive Param.Written : Param → Str → Prop
  | valued {key value text : Str} (hkey : ampersand.1 ∉ key.bytes ∧ equalsSign.1 ∉ key.bytes)
      (htext : ampersand.1 ∉ text.bytes) (h : PercentEncodes value.bytes text.bytes) :
      Written ⟨key, value⟩ (key ++ (.ofAscii equalsSign ++ text))
  | unknown {key value text : Str} (hkey : ampersand.1 ∉ key.bytes ∧ equalsSign.1 ∉ key.bytes)
      (htext : ampersand.1 ∉ text.bytes) (h : key ∉ knownKeys) :
      Written ⟨key, value⟩ (key ++ (.ofAscii equalsSign ++ text))
  | bare {key : Str} (hkey : ampersand.1 ∉ key.bytes ∧ equalsSign.1 ∉ key.bytes) :
      Written ⟨key, .ascii ""⟩ key

/-- A parameter that is meant to give an id. -/
def Param.NamesId (p : Param) : Prop :=
  p.key = .ascii "xt" ∧ (Str.ascii "urn:btih:").bytes <+: p.value.bytes

/-- The texts of an id: hexadecimal or base32, with letters of either case. -/
def SpellsHash (text : Str) (h : Hash) : Prop :=
  text.bytes.map toAsciiLowercase = hexEncode h.1 ∨
    text.bytes.map toAsciiUppercase = base32Encode h.1

/-- The values that the parameters give to a key. -/
def values (key : Str) (params : List Param) : List Str :=
  (params.filter fun p => p.key = key).map Param.value

/-- The libraries read what is written in their encodings. -/
structure Codecs.Reads (cs : Codecs) : Prop where
  url : ∀ plain text : Str, PercentEncodes plain.bytes text.bytes → cs.urlDecode text = some plain
  hex : ∀ bytes text : List UInt8, text.map toAsciiLowercase = hexEncode bytes →
    cs.hexDecode text = some bytes

/-- `urlencoding` and `hex` as they are documented. -/
def Codecs.crates (upper : List UInt8 → Str) : Codecs where
  urlDecode := Retorrent.urlDecode
  hexDecode := Retorrent.hexDecode
  upper := upper

theorem Codecs.crates_reads (upper : List UInt8 → Str) : (Codecs.crates upper).Reads where
  url := fun _ _ h => urlDecode_of_encodes h
  hex := fun _ _ h => hexDecode_of_lowercase h

theorem Codecs.crates_fromHex (upper : List UInt8 → Str) :
    (Codecs.crates upper).fromHex = Retorrent.fromHex := rfl

section Values

variable {key : Str} {params : List Param}

theorem values_append (key : Str) (params later : List Param) :
    values key (params ++ later) = values key params ++ values key later := by
  rw [values, List.filter_append, List.map_append]
  rfl

@[simp] theorem values_nil : values key [] = [] := rfl

theorem values_cons (key : Str) (p : Param) (params : List Param) :
    values key (p :: params) =
      if p.key = key then p.value :: values key params else values key params := by
  rw [values, List.filter_cons]
  simp only [decide_eq_true_eq]
  split
  · rfl
  · rfl

theorem exists_of_mem_values {v : Str} (h : v ∈ values key params) :
    ∃ p ∈ params, p.key = key ∧ p.value = v := by
  obtain ⟨p, hp, hv⟩ := List.mem_map.mp h
  obtain ⟨hmem, hkey⟩ := List.mem_filter.mp hp
  exact ⟨p, hmem, of_decide_eq_true hkey, hv⟩

end Values

section Loop

variable {cs : Codecs} {params : List Param} {texts : List Str}

/-- What parameters say: the last id, the last name, and all the others in order. -/
def Found.ofParams (cs : Codecs) (params : List Param) : Found where
  infoHash := ((values (.ascii "xt") params).filterMap (xtHash cs)).getLast?
  displayName := (values (.ascii "dn") params).getLast?
  trackers := values (.ascii "tr") params
  webSeeds := values (.ascii "ws") params

theorem add_of_unknown {found : Found} {key : Str} (h : key ∉ knownKeys) (decoded : Str) :
    found.add cs key decoded = found := by
  simp only [knownKeys, List.mem_cons, List.not_mem_nil, or_false, not_or] at h
  obtain ⟨hxt, hdn, htr, hws⟩ := h
  rw [Found.add, if_neg hxt, if_neg hdn, if_neg htr, if_neg hws]

theorem ofParams_add (cs : Codecs) (params : List Param) (p : Param) :
    (Found.ofParams cs params).add cs p.key p.value = .ofParams cs (params ++ [p]) := by
  obtain ⟨key, value⟩ := p
  simp only [Found.ofParams, values_append, values_cons, values_nil, List.filterMap_append,
    List.getLast?_append, Found.add]
  -- only the values of the key of the last parameter get longer
  by_cases hxt : key = .ascii "xt"
  · subst hxt
    simp +decide
  by_cases hdn : key = .ascii "dn"
  · subst hdn
    simp +decide
  by_cases htr : key = .ascii "tr"
  · subst htr
    simp +decide
  by_cases hws : key = .ascii "ws"
  · subst hws
    simp +decide
  · simp [hxt, hdn, htr, hws]

/-- The loop finds what the parameters say. -/
theorem foldl_add (cs : Codecs) (params : List Param) :
    params.foldl (fun found p => Found.add cs found p.key p.value) {} = .ofParams cs params := by
  induction params using List.reverseRecOn with
  | nil => rfl
  | append_singleton params p ih =>
    rw [List.foldl_append, ih, List.foldl_cons, List.foldl_nil, ofParams_add]

/-- However a parameter is written, the loop body adds its value. -/
theorem addPair_written (hcs : cs.Reads) (found : Found) {p : Param} {text : Str}
    (h : p.Written text) : found.addPair cs text = found.add cs p.key p.value := by
  cases h with
  | @valued key value text hkey _ h =>
    have hurl : cs.urlDecode text = some value := hcs.url value text h
    simp only [Found.addPair, Str.splitn_two hkey.2, List.getElem?_cons_zero,
      List.getElem?_cons_succ, Option.getD_some, hurl]
  | unknown hkey _ h =>
    simp only [Found.addPair, Str.splitn_two hkey.2, List.getElem?_cons_zero, Option.getD_some,
      add_of_unknown h]
  | bare hkey =>
    have hurl : cs.urlDecode (.ascii "") = some (.ascii "") := hcs.url _ _ .nil
    simp only [Found.addPair, Str.splitn_of_not_mem hkey.2, List.getElem?_cons_zero,
      List.getElem?_cons_succ, List.getElem?_nil, Option.getD_some, Option.getD_none, hurl]

theorem foldl_addPair (hcs : cs.Reads) (h : List.Forall₂ Param.Written params texts)
    (found : Found) : texts.foldl (Found.addPair cs) found =
      params.foldl (fun found p => Found.add cs found p.key p.value) found := by
  induction h generalizing found with
  | nil => rfl
  | cons hp _ ih =>
    rw [List.foldl_cons, List.foldl_cons, addPair_written hcs found hp, ih]

theorem not_mem_written {p : Param} {text : Str} (h : p.Written text) :
    ampersand.1 ∉ text.bytes := by
  have happend {key text : Str} (hkey : ampersand.1 ∉ key.bytes)
      (htext : ampersand.1 ∉ text.bytes) :
      ampersand.1 ∉ (key ++ (.ofAscii equalsSign ++ text)).bytes := by
    have hsep : ampersand.1 ∉ (Str.ofAscii equalsSign).bytes := by decide
    simp only [Str.append_bytes, List.mem_append, not_or]
    exact ⟨hkey, hsep, htext⟩
  cases h with
  | valued hkey htext _ => exact happend hkey.1 htext
  | unknown hkey htext _ => exact happend hkey.1 htext
  | bare hkey => exact hkey.1

theorem not_mem_texts (h : List.Forall₂ Param.Written params texts) :
    ∀ text ∈ texts, ampersand.1 ∉ text.bytes := by
  induction h with
  | nil => exact List.forall_mem_nil _
  | cons hp _ ih => exact List.forall_mem_cons.mpr ⟨not_mem_written hp, ih⟩

/-- The link is made of what the parameters say, or there is none where they give no id. -/
theorem parse_texts (hcs : cs.Reads) (h : List.Forall₂ Param.Written params texts)
    (hne : params ≠ []) :
    MagnetLink.parse cs (.ascii "magnet:?" ++ Str.join (.ofAscii ampersand) texts) =
      (Found.ofParams cs params).finish := by
  have htexts : texts ≠ [] := by
    rintro rfl
    cases h
    exact hne rfl
  rw [MagnetLink.parse, Str.stripPrefix_append]
  simp only [Str.split_join htexts (not_mem_texts h), foldl_addPair hcs h, foldl_add]

end Loop

section Hash

variable {cs : Codecs} {before after : List Param} {text : Str} {hash : Hash}

/-- The id is read from either encoding. -/
theorem xtHash_spelled (hcs : cs.Reads) (h : SpellsHash text hash) :
    xtHash cs (.ascii "urn:btih:" ++ text) = some hash := by
  have hbytes : hashOfBytes hash.1 = some hash := dif_pos hash.2
  rw [xtHash, Str.stripPrefix_append]
  cases h with
  | inl hhex =>
    have hlen : text.bytes.length = 40 := by
      have h := congrArg List.length hhex
      rwa [List.length_map, length_hexEncode, hash.2] at h
    have hdecode : cs.hexDecode text.bytes = some hash.1 := hcs.hex _ _ hhex
    rw [Option.bind_eq_bind, Option.bind_some, if_pos hlen, Codecs.fromHex, hdecode,
      Option.bind_eq_bind, Option.bind_some, hbytes]
  | inr hletters =>
    have hlen : text.bytes.length = 32 := by
      have h := congrArg List.length hletters
      rwa [List.length_map, length_base32Encode 4 hash.2] at h
    have hdecode : base32Decode cs.upper text = some hash.1 :=
      base32Decode_encode (by rw [hash.2]; decide) hletters
    rw [Option.bind_eq_bind, Option.bind_some, if_neg (by rw [hlen]; decide), if_pos hlen, hdecode,
      Option.bind_eq_bind, Option.bind_some, hbytes]

theorem xtHash_of_not_prefix {v : Str}
    (h : ¬ (Str.ascii "urn:btih:").bytes <+: v.bytes) : xtHash cs v = none := by
  rw [xtHash, Str.stripPrefix_of_not_prefix h]
  rfl

theorem filterMap_xtHash_eq_nil {params : List Param} (h : ∀ p ∈ params, ¬ p.NamesId) :
    (values (.ascii "xt") params).filterMap (xtHash cs) = [] := by
  rw [List.filterMap_eq_nil_iff]
  intro v hv
  obtain ⟨p, hp, hkey, rfl⟩ := exists_of_mem_values hv
  exact xtHash_of_not_prefix fun hprefix => h p hp ⟨hkey, hprefix⟩

/-- A magnet URI is read as what its parameters say: the id of its one `urn:btih`, in hexadecimal
or base32, and the other values around it. -/
theorem parse_magnet (hcs : cs.Reads) (hspelled : SpellsHash text hash)
    (hother : ∀ p ∈ before ++ after, ¬ p.NamesId) {texts : List Str}
    (htexts : List.Forall₂ Param.Written
      (before ++ ⟨.ascii "xt", .ascii "urn:btih:" ++ text⟩ :: after) texts) :
    MagnetLink.parse cs (.ascii "magnet:?" ++ Str.join (.ofAscii ampersand) texts) = .ok {
      infoHash := hash
      displayName := (values (.ascii "dn") (before ++ after)).getLast?
      trackers := values (.ascii "tr") (before ++ after)
      webSeeds := values (.ascii "ws") (before ++ after) } := by
  have hbefore : (values (.ascii "xt") before).filterMap (xtHash cs) = [] :=
    filterMap_xtHash_eq_nil fun p hp => hother p (List.mem_append_left after hp)
  have hafter : (values (.ascii "xt") after).filterMap (xtHash cs) = [] :=
    filterMap_xtHash_eq_nil fun p hp => hother p (List.mem_append_right before hp)
  -- the parameter with the id has nothing to say on the other keys
  have hrest {key : Str} (hkey : .ascii "xt" ≠ key) :
      values key (before ++ ⟨.ascii "xt", .ascii "urn:btih:" ++ text⟩ :: after) =
        values key (before ++ after) := by
    rw [values_append, values_cons, if_neg hkey, ← values_append]
  have hhash : ((values (.ascii "xt")
      (before ++ ⟨.ascii "xt", .ascii "urn:btih:" ++ text⟩ :: after)).filterMap
        (xtHash cs)).getLast? = some hash := by
    rw [values_append, values_cons, if_pos rfl, List.filterMap_append, hbefore,
      List.filterMap_cons_some (xtHash_spelled hcs hspelled), hafter]
    rfl
  rw [parse_texts hcs htexts (by simp)]
  simp only [Found.finish, Found.ofParams, hhash]
  rw [hrest (by decide), hrest (by decide), hrest (by decide)]

/-- The id of a sample link. -/
def sampleId : Hash := ⟨Str.asciiBytes "foobafoobafoobafooba", by decide +kernel⟩

/-- It is written in both cases. -/
def sampleBase32 : Str := .ascii "MZXW6YTBmzxw6ytbMzXw6yTbMZXW6YTB"

def sampleBefore : List Param := [⟨.ascii "dn", .ascii "x"⟩]

def sampleAfter : List Param :=
  [⟨.ascii "tr", .ascii "u:/"⟩, ⟨.ascii "dn", .ascii "A b"⟩, ⟨.ascii "tr", .ascii "v:"⟩]

def sampleTexts : List Str :=
  [(.ascii "dn", .ascii "x"), (.ascii "xt", .ascii "urn:btih:" ++ sampleBase32),
    (.ascii "tr", .ascii "u:%2F"), (.ascii "dn", .ascii "A%20b"),
    (.ascii "tr", .ascii "v%3a")].map fun kv => kv.1 ++ (.ofAscii equalsSign ++ kv.2)

theorem spellsHash_sample : SpellsHash sampleBase32 sampleId := by
  right
  decide +kernel

theorem written_sample : List.Forall₂ Param.Written
    (sampleBefore ++ ⟨.ascii "xt", .ascii "urn:btih:" ++ sampleBase32⟩ :: sampleAfter)
    sampleTexts := by
  refine .cons (.valued (by decide) (by decide) (percentEncodes_self (by decide)))
    (.cons (.valued (by decide) (by decide +kernel) (percentEncodes_self (by decide +kernel)))
    (.cons (.valued (by decide) (by decide) ?_)
    (.cons (.valued (by decide) (by decide) ?_)
    (.cons (.valued (by decide) (by decide) ?_) .nil))))
  · exact .literal (by decide) (.literal (by decide) (.escaped (by decide) .nil))
  · exact .literal (by decide) (.escaped (by decide) (.literal (by decide) .nil))
  · exact .literal (by decide) (.escaped (by decide) .nil)

theorem parse_magnet_sample :
    MagnetLink.parse (.crates fun _ => .ascii "") (.ascii
      "magnet:?dn=x&xt=urn:btih:MZXW6YTBmzxw6ytbMzXw6yTbMZXW6YTB&tr=u:%2F&dn=A%20b&tr=v%3a") =
    .ok {
      infoHash := sampleId
      displayName := some (.ascii "A b")
      trackers := [.ascii "u:/", .ascii "v:"]
      webSeeds := [] } := by
  have hother : ∀ p ∈ sampleBefore ++ sampleAfter, ¬ p.NamesId := by
    have hkeys : ∀ p ∈ sampleBefore ++ sampleAfter, p.key ≠ .ascii "xt" := by decide
    exact fun p hp hnames => hkeys p hp hnames.1
  have huri : Str.ascii
      "magnet:?dn=x&xt=urn:btih:MZXW6YTBmzxw6ytbMzXw6yTbMZXW6YTB&tr=u:%2F&dn=A%20b&tr=v%3a" =
        .ascii "magnet:?" ++ Str.join (.ofAscii ampersand) sampleTexts :=
    Str.ext (by decide +kernel)
  rw [huri, parse_magnet (Codecs.crates_reads _) spellsHash_sample hother written_sample]
  rfl

end Hash

end Retorrent

import Retorrent.Resume
import Retorrent.Rustlib.Num

/-!
# The text of a resume file

What `serde_json::to_string_pretty` writes for a record: an object with a field on each line, and
an array with an item on each line. The variants of `PrevState` are written in lower case.
-/

namespace Retorrent

open Rust

/-- The name of a variant, under `rename_all = "snake_case"`. -/
def PrevState.variant : PrevState → String
  | .running => "running"
  | .paused => "paused"

/-- The name of a variant. -/
def FilePriority.variant : FilePriority → String
  | .skip => "Skip"
  | .low => "Low"
  | .normal => "Normal"
  | .high => "High"

namespace Pretty

def hexDigit (n : ℕ) : UInt8 := .ofNat (if n < 10 then 0x30 + n else 0x57 + n)

/-- A byte of a string. -/
def escape (b : UInt8) : List UInt8 :=
  if b = 0x22 then Str.asciiBytes "\\\""
  else if b = 0x5C then Str.asciiBytes "\\\\"
  else if b = 0x08 then Str.asciiBytes "\\b"
  else if b = 0x09 then Str.asciiBytes "\\t"
  else if b = 0x0A then Str.asciiBytes "\\n"
  else if b = 0x0C then Str.asciiBytes "\\f"
  else if b = 0x0D then Str.asciiBytes "\\r"
  else if b < 0x20 then
    Str.asciiBytes "\\u00" ++ [hexDigit (b.toNat / 16), hexDigit (b.toNat % 16)]
  else [b]

def string (bs : List UInt8) : List UInt8 := 0x22 :: (bs.flatMap escape ++ [0x22])

def bool (b : Bool) : List UInt8 := Str.asciiBytes (if b then "true" else "false")

def option {α : Type} (value : α → List UInt8) : Option α → List UInt8
  | none => Str.asciiBytes "null"
  | some a => value a

/-- An array in a field. -/
def array (items : List (List UInt8)) : List UInt8 :=
  if items.isEmpty then Str.asciiBytes "[]"
  else
    Str.asciiBytes "[\n" ++
      (Str.asciiBytes ",\n").intercalate (items.map (Str.asciiBytes "    " ++ ·)) ++
      Str.asciiBytes "\n  ]"

def object (fields : List (String × List UInt8)) : List UInt8 :=
  Str.asciiBytes "\x7b\n" ++
    (Str.asciiBytes ",\n").intercalate
      (fields.map fun f => Str.asciiBytes "  " ++ string (Str.asciiBytes f.1) ++
        Str.asciiBytes ": " ++ f.2) ++
    Str.asciiBytes "\n\x7d"

end Pretty

namespace ResumeData

/-- The fields in the order of the struct. -/
def json (rd : ResumeData) : List UInt8 :=
  Pretty.object
    [("info_hash", Pretty.string rd.infoHash.bytes),
      ("have_pieces", Pretty.array (rd.havePieces.map Pretty.bool)),
      ("downloaded", Num.decimal rd.downloaded),
      ("uploaded", Num.decimal rd.uploaded),
      ("file_priorities", Pretty.array
        (rd.filePriorities.map fun p => Pretty.string (Str.asciiBytes p.variant))),
      ("added_time", Num.decimalInt rd.addedTime),
      ("completed_time", Pretty.option Num.decimalInt rd.completedTime),
      ("torrent_bytes", Pretty.option
        (fun bs => Pretty.array (bs.bytes.map fun b => Num.decimal b.toNat)) rd.torrentBytes),
      ("prev_state", Pretty.string (Str.asciiBytes rd.prevState.variant))]

/-- `to_string_pretty`. -/
def toStringPretty (rd : ResumeData) : Str := .fromUtf8Lossy rd.json

theorem toStringPretty_bytes {rd : ResumeData}
    (h : rd.json.all (fun b => decide (b < 0x80)) = true) : rd.toStringPretty.bytes = rd.json :=
  Utf8.lossy_of_valid (.of_ascii fun b hb => of_decide_eq_true (List.all_eq_true.mp h b hb))

/-- Records with different texts, neither of which has a character outside ASCII. -/
theorem toStringPretty_ne {rd rd' : ResumeData}
    (h : rd.json.all (fun b => decide (b < 0x80)) = true)
    (h' : rd'.json.all (fun b => decide (b < 0x80)) = true) (hne : rd.json ≠ rd'.json) :
    rd.toStringPretty ≠ rd'.toStringPretty := by
  intro heq
  apply hne
  calc
    rd.json = rd.toStringPretty.bytes := (toStringPretty_bytes h).symm
    _ = rd'.toStringPretty.bytes := congrArg Str.bytes heq
    _ = rd'.json := toStringPretty_bytes h'

end ResumeData

/-- Keys that differ find their entries. -/
theorem find?_of_pairwise {α β : Type} [DecidableEq β] {key : α → β} {table : List α}
    (h : table.Pairwise fun x y => key x ≠ key y) {x : α} (hx : x ∈ table) :
    table.find? (fun y => key y = key x) = some x := by
  induction table with
  | nil => cases hx
  | cons y table ih =>
    rw [List.pairwise_cons] at h
    rcases List.mem_cons.mp hx with rfl | hx
    · exact List.find?_cons_of_pos (decide_eq_true rfl)
    · rw [List.find?_cons_of_neg (by simpa using h.1 x hx)]
      exact ih h.2 hx

/-- The serializer, with a reader for the texts of some records. -/
def Serde.reading (known : List ResumeData) : Serde where
  toJson := ResumeData.toStringPretty
  fromJson s := known.find? fun rd => rd.toStringPretty = s

theorem Serde.reading_roundTrips {known : List ResumeData}
    (h : known.Pairwise fun x y => x.toStringPretty ≠ y.toStringPretty) {rd : ResumeData}
    (hmem : rd ∈ known) : (Serde.reading known).RoundTrips rd :=
  find?_of_pairwise h hmem

end Retorrent

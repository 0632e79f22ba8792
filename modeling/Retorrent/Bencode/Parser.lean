import Retorrent.Bencode.Value

/-!
# The bencode parser

`BencodeParser::parse` and `extract_info_raw`. Positions are `usize` values, and
every addition and slice of the source is the checked one, so that an overflow
or a bad slice shows up as a panic. The recursive functions take fuel; the entry
points allow three units a byte, which the input cannot use up.
-/

namespace Retorrent

open Rust

def maxParseDepth : ℕ := 128

/-- `map_err(|e| TorrentError::BencodeParse(e.to_string()))` on a UTF-8 check. -/
def strOf (bs : List UInt8) : Res Str :=
  match Str.fromUtf8 bs with
  | .ok s => .ok s
  | .error e => .err (.bencodeParse (.ascii e.text))

/-- The same for an integer. -/
def intOf {α : Type} (r : Except Num.ParseIntError α) : Res α :=
  match r with
  | .ok n => .ok n
  | .error e => .err (.bencodeParse (.ascii e.text))

/-- The spellings that `parse_integer` turns away before parsing them. -/
def badInteger (s : List UInt8) : Bool :=
  s == [0x2D, 0x30] || (1 < s.length && s.head? == some 0x30) ||
    (2 < s.length && s.take 2 == [0x2D, 0x30])

def parseInteger (b : Build) (data : List UInt8) (pos : ℕ) : Res (BencodeValue × ℕ) := do
  let start ← b.addUsize pos 1
  let tail ← sliceFrom data start
  let off ← Outcome.ofOption (.bencodeParse (.ascii "Missing 'e' for integer"))
    (tail.findIdx? (· == 0x65))
  let stop ← b.addUsize off pos
  let stop ← b.addUsize stop 1
  let num ← slice data start stop
  let numStr ← strOf num
  if badInteger numStr.bytes then
    .err (.bencodeParse (.ascii "Invalid integer format: " ++ numStr))
  else do
    let n ← intOf (Num.parseSigned (2 ^ 63 - 1) numStr.bytes)
    let next ← b.addUsize stop 1
    return (.integer n, next)

def parseByteString (b : Build) (data : List UInt8) (pos : ℕ) : Res (BencodeValue × ℕ) := do
  let tail ← sliceFrom data pos
  let off ← Outcome.ofOption (.bencodeParse (.ascii "Missing ':' for string"))
    (tail.findIdx? (· == 0x3A))
  let colon ← b.addUsize off pos
  let num ← slice data pos colon
  let lenStr ← strOf num
  let len ← intOf (Num.parseUnsigned (2 ^ 64 - 1) lenStr.bytes)
  let start ← b.addUsize colon 1
  let stop ← b.addUsize start len
  if data.length < stop then
    .err (.bencodeParse (.ascii "String extends past end of data"))
  else do
    let body ← slice data start stop
    return (.byteString body, stop)

mutual

def parseValueFuel (b : Build) (data : List UInt8) (fuel pos depth : ℕ) :
    Res (BencodeValue × ℕ) :=
  match fuel with
  | 0 => .hang
  | fuel + 1 =>
    if maxParseDepth < depth then .err (.bencodeParse (.ascii "Max parse depth exceeded"))
    else match data[pos]? with
      | none => .err (.bencodeParse (.ascii "Unexpected end of data"))
      | some c =>
        if c = 0x69 then parseInteger b data pos
        else if c = 0x6C then do
          let depth ← b.addUsize depth 1
          parseList b data fuel pos depth
        else if c = 0x64 then do
          let depth ← b.addUsize depth 1
          parseDict b data fuel pos depth
        else if Num.isDigit c then parseByteString b data pos
        else .err (.bencodeParse (.ascii
          ("Unexpected byte: " ++ toString c ++ " at pos " ++ toString pos)))
termination_by structural fuel

def parseList (b : Build) (data : List UInt8) (fuel pos depth : ℕ) : Res (BencodeValue × ℕ) :=
  match fuel with
  | 0 => .hang
  | fuel + 1 => do
    let current ← b.addUsize pos 1
    parseListLoop b data fuel current depth []
termination_by structural fuel

def parseListLoop (b : Build) (data : List UInt8) (fuel current depth : ℕ)
    (items : List BencodeValue) : Res (BencodeValue × ℕ) :=
  match fuel with
  | 0 => .hang
  | fuel + 1 =>
    match data[current]? with
    | none => .err (.bencodeParse (.ascii "Missing 'e' for list"))
    | some c =>
      if c = 0x65 then do
        let next ← b.addUsize current 1
        return (.list items, next)
      else do
        let (value, next) ← parseValueFuel b data fuel current depth
        parseListLoop b data fuel next depth (items ++ [value])
termination_by structural fuel

def parseDict (b : Build) (data : List UInt8) (fuel pos depth : ℕ) : Res (BencodeValue × ℕ) :=
  match fuel with
  | 0 => .hang
  | fuel + 1 => do
    let current ← b.addUsize pos 1
    parseDictLoop b data fuel current depth []
termination_by structural fuel

def parseDictLoop (b : Build) (data : List UInt8) (fuel current depth : ℕ)
    (map : BTreeMap Str BencodeValue) : Res (BencodeValue × ℕ) :=
  match fuel with
  | 0 => .hang
  | fuel + 1 =>
    match data[current]? with
    | none => .err (.bencodeParse (.ascii "Missing 'e' for dict"))
    | some c =>
      if c = 0x65 then do
        let next ← b.addUsize current 1
        return (.dict map, next)
      else do
        let (keyVal, next) ← parseByteString b data current
        match keyVal with
        | .byteString k => do
          let (value, next2) ← parseValueFuel b data fuel next depth
          parseDictLoop b data fuel next2 depth (map.insert (Str.fromUtf8Lossy k) value)
        | _ => .err (.bencodeParse (.ascii "Dict key must be string"))
termination_by structural fuel

end

/-- Enough fuel for a walk over `data`. -/
def parseFuel (data : List UInt8) : ℕ := 3 * data.length + 1

/-- `BencodeParser::parse_value`. -/
def parseValue (b : Build) (data : List UInt8) (pos depth : ℕ) : Res (BencodeValue × ℕ) :=
  parseValueFuel b data (parseFuel data) pos depth

/-- `BencodeParser::parse`. -/
def parse (b : Build) (data : Bytes) : Res BencodeValue := do
  let (value, _) ← parseValue b data.bytes 0 0
  return value

/-- The loop of `extract_info_raw`, from the key at `pos`. -/
def extractInfoLoop (b : Build) (data : List UInt8) (fuel pos : ℕ) : Res (List UInt8) :=
  match fuel with
  | 0 => .hang
  | fuel + 1 =>
    match data[pos]? with
    | none => .err (.bencodeParse (.ascii "No info dict found"))
    | some c =>
      if c = 0x65 then .err (.bencodeParse (.ascii "No info dict found"))
      else do
        let (keyVal, next) ← parseByteString b data pos
        let (_, valEnd) ← parseValue b data next 0
        if keyVal.asBytes = some (Str.asciiBytes "info") then slice data next valEnd
        else extractInfoLoop b data fuel valEnd

/-- `extract_info_raw`. -/
def extractInfoRaw (b : Build) (data : Bytes) : Res (List UInt8) :=
  if data.bytes.head? = some 0x64 then extractInfoLoop b data.bytes data.bytes.length 1
  else .err (.bencodeParse (.ascii "Root not a dict"))

end Retorrent

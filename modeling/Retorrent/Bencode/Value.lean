import Retorrent.Rustlib.BTreeMap
import Retorrent.Rustlib.Num
import Retorrent.Error

/-!
# Bencode values

`BencodeValue`, its accessors and `BencodeParser::encode`.
-/

namespace Retorrent

open Rust

inductive BencodeValue where
  | integer (i : ℤ)
  | byteString (s : List UInt8)
  | list (l : List BencodeValue)
  | dict (d : List (Str × BencodeValue))

namespace BencodeValue

def asInteger : BencodeValue → Option ℤ
  | integer i => some i
  | _ => none

def asBytes : BencodeValue → Option (List UInt8)
  | byteString s => some s
  | _ => none

def asString : BencodeValue → Option Str
  | byteString s => (Str.fromUtf8 s).toOption
  | _ => none

def asList : BencodeValue → Option (List BencodeValue)
  | list l => some l
  | _ => none

def asDict : BencodeValue → Option (BTreeMap Str BencodeValue)
  | dict d => some d
  | _ => none

def dictGet (v : BencodeValue) (key : Str) : Option BencodeValue := v.asDict.bind (·.get key)

mutual

/-- `BencodeParser::encode_value`, as the bytes it appends to its buffer. -/
def encodeValue : BencodeValue → List UInt8
  | integer i => 0x69 :: (Num.decimalInt i ++ [0x65])
  | byteString s => Num.decimal s.length ++ 0x3A :: s
  | list l => 0x6C :: (encodeItems l ++ [0x65])
  | dict d => 0x64 :: (encodeEntries d ++ [0x65])

def encodeItems : List BencodeValue → List UInt8
  | [] => []
  | v :: l => encodeValue v ++ encodeItems l

def encodeEntries : List (Str × BencodeValue) → List UInt8
  | [] => []
  | (key, v) :: d =>
    Num.decimal key.bytes.length ++ 0x3A :: key.bytes ++ encodeValue v ++ encodeEntries d

end

/-- `BencodeParser::encode`. -/
def encode (v : BencodeValue) : Res Bytes := Bytes.ofList (encodeValue v)

end BencodeValue

end Retorrent

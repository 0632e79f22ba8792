import Retorrent.Hex

/-!
# Percent-encoding

How the values of a URI are written, and the decoder of `urlencoding`.
-/

namespace Retorrent

open Rust

/-- The character `%`. -/
abbrev percent : UInt8 := 0x25

/-- The texts that stand for bytes: a byte is written as it is, or as `%` and its two digits in
either case. -/
inductive PercentEncodes : List UInt8 → List UInt8 → Prop
  | nil : PercentEncodes [] []
  | literal {c : UInt8} {plain text : List UInt8} (hc : c ≠ percent)
      (h : PercentEncodes plain text) : PercentEncodes (c :: plain) (c :: text)
  | escaped {c hi lo : UInt8} {plain text : List UInt8}
      (hc : [hi, lo].map toAsciiLowercase = hexEncode [c])
      (h : PercentEncodes plain text) : PercentEncodes (c :: plain) (percent :: hi :: lo :: text)

/-- A text without `%` stands for itself. -/
theorem percentEncodes_self {text : List UInt8} (h : percent ∉ text) :
    PercentEncodes text text := by
  induction text with
  | nil => exact .nil
  | cons c text ih =>
    rw [List.mem_cons, not_or] at h
    exact .literal (Ne.symm h.1) (ih h.2)

/-- `urlencoding::decode_binary`. A `%` without two digits behind it stays. -/
def percentDecode : List UInt8 → List UInt8
  | [] => []
  | c :: hi :: lo :: rest =>
    match c == percent, hexDecode [hi, lo] with
    | true, some bytes => bytes ++ percentDecode rest
    | _, _ => c :: percentDecode (hi :: lo :: rest)
  | c :: rest => c :: percentDecode rest

/-- `urlencoding::decode`. -/
def urlDecode (text : Str) : Option Str := (Str.fromUtf8 (percentDecode text.bytes)).toOption

theorem percentDecode_literal {c : UInt8} (hc : c ≠ percent) (rest : List UInt8) :
    percentDecode (c :: rest) = c :: percentDecode rest := by
  have hne : (c == percent) = false := beq_eq_false_iff_ne.mpr hc
  cases rest with
  | nil => rfl
  | cons hi rest =>
    cases rest with
    | nil => rfl
    | cons lo rest =>
      rw [percentDecode, hne]

theorem percentDecode_of_encodes {plain text : List UInt8} (h : PercentEncodes plain text) :
    percentDecode text = plain := by
  induction h with
  | nil => rfl
  | literal hc _ ih => rw [percentDecode_literal hc, ih]
  | escaped hc _ ih =>
    rw [percentDecode, hexDecode_of_lowercase hc, ih]
    rfl

/-- The decoder reads every percent-encoding of a string. -/
theorem urlDecode_of_encodes {plain text : Str} (h : PercentEncodes plain.bytes text.bytes) :
    urlDecode text = some plain := by
  have hplain : Str.fromUtf8 (percentDecode text.bytes) = .ok plain :=
    Str.fromUtf8_eq_ok.mpr (percentDecode_of_encodes h).symm
  rw [urlDecode, hplain]
  rfl

end Retorrent

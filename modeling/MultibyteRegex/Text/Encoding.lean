import MultibyteRegex.Error

/-! 文字符号化。文字の長さは先頭バイトだけで決まり、末尾で切れた文字は残りのバイトで数える。 -/
namespace MultibyteRegex

/-- 照合される本文。 -/
abbrev Text := Array UInt8

/-- バイトと同じ番号の文字。 -/
def latin1 (b : UInt8) : Char := Char.ofNat b.toNat

inductive Encoding
  | ascii
  | eucJp
  | sjis
  | utf8
  deriving DecidableEq

namespace Encoding

/-- 先頭バイトが求める文字の長さ。 -/
def width : Encoding → UInt8 → Nat
  | .ascii, _ => 1
  | .eucJp, b =>
    if b = 0x8e then 2
    else if b = 0x8f then 3
    else if 0xa1 ≤ b ∧ b ≤ 0xfe then 2
    else 1
  | .sjis, b => if (0x81 ≤ b ∧ b ≤ 0x9f) ∨ (0xe0 ≤ b ∧ b ≤ 0xfc) then 2 else 1
  | .utf8, b =>
    if b < 0xc0 then 1
    else if b < 0xe0 then 2
    else if b < 0xf0 then 3
    else if b < 0xf8 then 4
    else if b < 0xfc then 5
    else if b < 0xfe then 6
    else 1

/-- 文字の長さの最大。 -/
def maxWidth : Encoding → Nat
  | .ascii => 1
  | .eucJp => 3
  | .sjis => 2
  | .utf8 => 6

def isSingleByte (e : Encoding) : Bool := e = .ascii

/-- 後続バイトが先頭バイトと紛れない。 -/
def isLeadDistinguishable (e : Encoding) : Bool := e = .ascii || e = .utf8

/-- `pos` から始まる文字の長さ。末尾で切れ、末尾では 0 になる。 -/
def lengthAt (e : Encoding) (text : Text) (pos : Nat) : Nat :=
  match text[pos]? with
  | some b => min (e.width b) (text.size - pos)
  | none => 0

/-- 先頭バイト `b` の文字と、それに続く残り。 -/
def takeChar (e : Encoding) (b : UInt8) (rest : List UInt8) : List UInt8 × List UInt8 :=
  (b :: rest.take (e.width b - 1), rest.drop (e.width b - 1))

/-- バイト列を文字に分ける。 -/
def chars (e : Encoding) : List UInt8 → List (List UInt8)
  | [] => []
  | b :: rest => (e.takeChar b rest).1 :: e.chars (e.takeChar b rest).2
termination_by bytes => bytes.length
decreasing_by exact Nat.lt_succ_of_le (List.drop_suffix ..).length_le

/-- 先頭の一文字の符号位置。後続バイトは UTF-8 では 6 ビット、他では 8 ビットを足す。 -/
def decode (e : Encoding) : List UInt8 → Nat
  | [] => 0
  | lead :: rest =>
    let trail := rest.take (e.width lead - 1)
    match e with
    | .utf8 =>
      if trail.isEmpty then lead.toNat
      else trail.foldl (fun code b => code * 64 + b.toNat % 64)
        (lead.toNat % Nat.pow 2 (6 - trail.length))
    | _ => trail.foldl (fun code b => code * 256 + b.toNat) lead.toNat

/-- 符号位置を書くのに要るバイト数。 -/
def codeLength : Encoding → Nat → Nat
  | .ascii, _ => 1
  | .eucJp, code => if 0xffff < code then 3 else if 0xff < code then 2 else 1
  | .sjis, code => if 0xff < code then 2 else 1
  | .utf8, code =>
    if code ≤ 0x7f then 1
    else if code ≤ 0x7ff then 2
    else if code ≤ 0xffff then 3
    else if code ≤ 0x1fffff then 4
    else if code ≤ 0x3ffffff then 5
    else 6

/-- 書ける符号位置の最大。 -/
def maxCode : Encoding → Nat
  | .ascii => 0xff
  | .eucJp => 0xffffff
  | .sjis => 0xffff
  | .utf8 => 0x7fffffff

/-- 下位 `n` バイトを上位から並べる。 -/
def bigEndian (code : Nat) : Nat → List UInt8
  | 0 => []
  | n + 1 => (code / Nat.pow 256 n).toUInt8 :: bigEndian code n

/-- 下位 `6 * n` ビットを上位から 6 ビットずつ後続バイトに入れる。 -/
def utf8Trail (code : Nat) : Nat → List UInt8
  | 0 => []
  | n + 1 => (0x80 + code / Nat.pow 64 n % 64).toUInt8 :: utf8Trail code n

/-- 長さ `n + 1` の UTF-8 の先頭バイトは、長さの印に残りの上位ビットを足す。 -/
def utf8Bytes (code : Nat) : Nat → List UInt8
  | 0 => [code.toUInt8]
  | n + 1 => (256 - Nat.pow 2 (6 - n) + code / Nat.pow 64 (n + 1)).toUInt8 :: utf8Trail code (n + 1)

/-- 符号位置を一文字のバイト列にする。 -/
def encode (e : Encoding) (code : Nat) : Except ParseError (List UInt8) :=
  if e.maxCode < code then .error .wideCharTooBig
  else if e = .utf8 then .ok (utf8Bytes code (e.codeLength code - 1))
  else .ok (bigEndian code (e.codeLength code))

/-- 符号位置を書いたときの先頭バイト。 -/
def encodeLead (e : Encoding) (code : Nat) : Except ParseError UInt8 :=
  match e.encode code with
  | .ok (b :: _) => .ok b
  | .ok [] => .error .wideCharTooBig
  | .error err => .error err

end Encoding
end MultibyteRegex

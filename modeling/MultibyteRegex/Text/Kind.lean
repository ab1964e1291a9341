import MultibyteRegex.Text.Encoding

/-! 文字の種類。ASCII の外の文字は、多バイトの符号化では単語、図形、印字の文字である。 -/
namespace MultibyteRegex

inductive CharKind
  | alnum
  | alpha
  | blank
  | cntrl
  | digit
  | graph
  | lower
  | print
  | punct
  | space
  | upper
  | xdigit
  | word
  deriving DecidableEq

namespace CharKind

def isLower (c : Nat) : Bool := 0x61 ≤ c && c ≤ 0x7a

def isUpper (c : Nat) : Bool := 0x41 ≤ c && c ≤ 0x5a

def isDigit (c : Nat) : Bool := 0x30 ≤ c && c ≤ 0x39

def isAlpha (c : Nat) : Bool := isLower c || isUpper c

def isAlnum (c : Nat) : Bool := isAlpha c || isDigit c

def isGraph (c : Nat) : Bool := 0x21 ≤ c && c ≤ 0x7e

/-- ASCII の文字がその種類に入るか。 -/
def hasAscii : CharKind → Nat → Bool
  | .alnum, c => isAlnum c
  | .alpha, c => isAlpha c
  | .blank, c => c == 0x20 || c == 0x09
  | .cntrl, c => c ≤ 0x1f || c == 0x7f
  | .digit, c => isDigit c
  | .graph, c => isGraph c
  | .lower, c => isLower c
  | .print, c => isGraph c || c == 0x20
  | .punct, c => isGraph c && !isAlnum c
  | .space, c => c == 0x20 || (0x09 ≤ c && c ≤ 0x0d)
  | .upper, c => isUpper c
  | .xdigit, c => isDigit c || (0x61 ≤ c && c ≤ 0x66) || (0x41 ≤ c && c ≤ 0x46)
  | .word, c => isAlnum c || c == 0x5f

/-- ASCII の外の多バイト文字が入る種類か。 -/
def hasWide (k : CharKind) : Bool := k = .word || k = .graph || k = .print

end CharKind

namespace Encoding

/-- 符号位置がその種類に入るか。一バイトの符号化では ASCII の外はどの種類にも入らない。 -/
def hasKind (e : Encoding) (code : Nat) (k : CharKind) : Bool :=
  if code < 0x80 then k.hasAscii code else !e.isSingleByte && k.hasWide

/-- 先頭バイト `b` の文字が単語の文字か。 -/
def isWordLead (e : Encoding) (b : UInt8) : Bool := 1 < e.width b || e.hasKind b.toNat .word

/-- `pos` から始まる文字が単語の文字か。 -/
def isWordAt (e : Encoding) (text : Text) (pos : Nat) : Bool :=
  match text[pos]? with
  | some b => e.isWordLead b
  | none => false

end Encoding
end MultibyteRegex

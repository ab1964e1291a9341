import MultibyteRegex.Class.Basic

/-! 仮想機械の命令。飛び先は次の命令からの相対位置で表す。 -/
namespace MultibyteRegex

/-- 文字列の命令の形。一文字の幅と個数ごとに分かれる。 -/
inductive LiteralForm
  | one
  | two
  | three
  | four
  | five
  | many
  | wide2One
  | wide2Two
  | wide2Three
  | wide2Many
  | wide3Many
  /-- 幅が 4 以上の文字。 -/
  | wideMany (width : Nat)
  deriving DecidableEq

inductive Instruction
  /-- 照合の成功。 -/
  | accept
  | exact (form : LiteralForm) (bytes : List UInt8)
  /-- 写した後のバイト列と比べる。`single` は一バイト用の形を表す。 -/
  | exactFold (single : Bool) (bytes : List UInt8)
  | inSet (set : ByteSet) (negated : Bool)
  | inRanges (ranges : List CodeRange) (negated : Bool)
  | inEither (set : ByteSet) (ranges : List CodeRange) (negated : Bool)
  | any (newline : Bool)
  /-- 任意の文字の繰り返し。`peek` があれば、そのバイトの前でだけ分岐を積む。 -/
  | anyStar (newline : Bool) (peek : Option UInt8)
  | word (isWord : Bool)
  | wordBound (atBound : Bool)
  | wordBegin
  | wordEnd
  | beginBuf
  | endBuf
  | semiEndBuf
  | beginPosition
  | beginLine (perLine : Bool)
  | endLine (perLine : Bool)
  | backref (n : Nat) (fold : Bool)
  /-- 捕獲の始まり。`undo` は前の値を積んでおくことを表す。 -/
  | memStart (n : Nat) (undo : Bool)
  | memEnd (n : Nat) (undo : Bool)
  | fail
  | jump (addr : Int)
  | push (addr : Int)
  | pushOrJump (addr : Int) (b : UInt8)
  | pushIfPeek (addr : Int) (b : UInt8)
  | repeatStart (id : Nat) (addr : Int) (greedy : Bool)
  | repeatNext (id : Nat) (greedy : Bool)
  | nullCheckStart (id : Nat) (captures : Bool)
  | nullCheckEnd (id : Nat) (captures : Bool)
  | pushPos
  | popPos
  | pushPosNot (addr : Int)
  | failPos
  | pushAtomic
  | popAtomic
  | lookBehind (chars : Nat)
  | pushLookBehindNot (addr : Int) (chars : Nat)
  | failLookBehindNot
  deriving DecidableEq

namespace LiteralForm

def name : LiteralForm → String
  | .one => "exact1"
  | .two => "exact2"
  | .three => "exact3"
  | .four => "exact4"
  | .five => "exact5"
  | .many => "exactn"
  | .wide2One => "exactmb2-n1"
  | .wide2Two => "exactmb2-n2"
  | .wide2Three => "exactmb2-n3"
  | .wide2Many => "exactmb2-n"
  | .wide3Many => "exactmb3n"
  | .wideMany _ => "exactmbn"

end LiteralForm

namespace Instruction

/-- 図形文字はそのまま、他のバイトは `\x0a` の形で書く。 -/
def displayBytes (bytes : List UInt8) : String :=
  String.join (bytes.map fun b =>
    if CharKind.isGraph b.toNat then String.singleton (latin1 b) else "\\x" ++ ByteSet.hexByte b)

/-- 小文字の十六進。 -/
def hex (n : Nat) : String := String.ofList (Nat.toDigits 16 n)

def displayRanges (ranges : List CodeRange) : String :=
  ",".intercalate (ranges.map fun r => hex r.lo ++ "-" ++ hex r.hi)

/-- 符号も含めて少なくとも 4 桁に零を詰める。 -/
def displayAddr (addr : Int) : String :=
  let digits := (toString addr.natAbs).toList
  let width := if addr < 0 then 3 else 4
  let sign := if addr < 0 then ['-'] else []
  String.ofList (sign ++ List.replicate (width - digits.length) '0' ++ digits)

def displayByte (b : UInt8) : String := String.singleton (latin1 b)

def display : Instruction → String
  | .accept => "end"
  | .exact form bytes => form.name ++ " " ++ displayBytes bytes
  | .exactFold true bytes => "exact1-ic " ++ displayBytes bytes
  | .exactFold false bytes => "exactn-ic " ++ displayBytes bytes
  | .inSet set negated => (if negated then "cclass-not [" else "cclass [") ++ set.display ++ "]"
  | .inRanges ranges negated =>
    (if negated then "cclass-mb-not [" else "cclass-mb [") ++ displayRanges ranges ++ "]"
  | .inEither set ranges negated =>
    (if negated then "cclass-mix-not [" else "cclass-mix [") ++ set.display ++ "] [" ++
      displayRanges ranges ++ "]"
  | .any newline => if newline then "anychar-ml" else "anychar"
  | .anyStar newline none => if newline then "anychar-ml*" else "anychar*"
  | .anyStar newline (some b) =>
    (if newline then "anychar-ml*-peek-next " else "anychar*-peek-next ") ++ displayByte b
  | .word isWord => if isWord then "word" else "not-word"
  | .wordBound atBound => if atBound then "word-bound" else "not-word-bound"
  | .wordBegin => "word-begin"
  | .wordEnd => "word-end"
  | .beginBuf => "begin-buf"
  | .endBuf => "end-buf"
  | .semiEndBuf => "semi-end-buf"
  | .beginPosition => "begin-position"
  | .beginLine perLine => if perLine then "begin-line" else "begin-line-sl"
  | .endLine perLine => if perLine then "end-line" else "end-line-sl"
  | .backref n fold => (if fold then "backrefn-ic " else "backrefn ") ++ toString n
  | .memStart n undo => (if undo then "mem-start-push " else "mem-start ") ++ toString n
  | .memEnd n undo => (if undo then "mem-end-push " else "mem-end ") ++ toString n
  | .fail => "fail"
  | .jump addr => "jump " ++ displayAddr addr
  | .push addr => "push " ++ displayAddr addr
  | .pushOrJump addr b => "push-or-jump-e1 " ++ displayAddr addr ++ " " ++ displayByte b
  | .pushIfPeek addr b => "push-if-peek-next " ++ displayAddr addr ++ " " ++ displayByte b
  | .repeatStart id addr greedy =>
    (if greedy then "repeat " else "repeat-ng ") ++ toString id ++ " " ++ displayAddr addr
  | .repeatNext id greedy => (if greedy then "repeat-inc " else "repeat-inc-ng ") ++ toString id
  | .nullCheckStart id captures =>
    (if captures then "null-check-start-memst " else "null-check-start ") ++ toString id
  | .nullCheckEnd id captures =>
    (if captures then "null-check-end-memst " else "null-check-end ") ++ toString id
  | .pushPos => "push-pos"
  | .popPos => "pop-pos"
  | .pushPosNot addr => "push-pos-not " ++ displayAddr addr
  | .failPos => "fail-pos"
  | .pushAtomic => "push-stop-bt"
  | .popAtomic => "pop-stop-bt"
  | .lookBehind chars => "look-behind " ++ toString chars
  | .pushLookBehindNot addr chars =>
    "push-look-behind-not " ++ displayAddr addr ++ " " ++ toString chars
  | .failLookBehindNot => "fail-look-behind-not"

end Instruction
end MultibyteRegex

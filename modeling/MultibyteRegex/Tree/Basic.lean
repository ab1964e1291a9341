import MultibyteRegex.Class.Basic
import MultibyteRegex.Options

/-! パターンの構文木。木をたどる関数は、節とその列についての相互再帰で書く。 -/
namespace MultibyteRegex

/-- 幅のない位置の検査。 -/
inductive Anchor
  | beginBuf
  | endBuf
  | semiEndBuf
  | beginPosition
  | beginLine
  | endLine
  | wordBound
  | notWordBound
  | wordBegin
  | wordEnd
  deriving DecidableEq

/-- 捕獲、先読み、後読み、後戻りの禁止。 -/
inductive GroupKind
  /-- `n` 番の捕獲。`undo` は、後戻りのときに書き込みを取り消すことを表す。 -/
  | capture (n : Nat) (undo : Bool)
  | ahead
  | notAhead
  | atomic
  | behind
  | notBehind
  deriving DecidableEq

/-- 繰り返しの本体が空に合うときの備え。 -/
inductive EmptyBody
  | never
  | possible
  /-- 空に合っても捕獲が変わりうるので、位置だけでなく捕獲も比べる。 -/
  | possibleWithCaptures
  deriving DecidableEq

/-- 繰り返しの回数と性質。`upper` が `none` のとき上限がない。 -/
structure Loop where
  lower : Nat
  upper : Option Nat
  greedy : Bool
  emptyBody : EmptyBody := .never
  /-- 本体のどの一回も始まるバイト。 -/
  head : Option UInt8 := none
  /-- 繰り返しの後が始まるバイト。 -/
  next : Option UInt8 := none
  deriving DecidableEq

namespace Loop

def isInfinite (l : Loop) : Bool := l.upper.isNone

/-- 回数が一つに決まっている。 -/
def isFixed (l : Loop) : Bool := l.upper == some l.lower

end Loop

inductive Node
  | empty
  | list (nodes : List Node)
  | alt (nodes : List Node)
  /-- 大文字と小文字の区別が旗に従う文字列。 -/
  | str (bytes : List UInt8)
  /-- 数値で書いたバイト列。区別を常に残す。 -/
  | raw (bytes : List UInt8)
  | cclass (c : CharClass)
  /-- 単語の文字、`isWord` が偽なら単語でない文字。 -/
  | word (isWord : Bool)
  | any
  | anchor (a : Anchor)
  | backref (n : Nat)
  | loop (l : Loop) (body : Node)
  | scoped (options : Options) (body : Node)
  | group (kind : GroupKind) (body : Node)

namespace Node

/-- 並び。零個と一個は簡単な形に直す。 -/
def seq : List Node → Node
  | [] => .empty
  | [n] => n
  | ns => .list ns

/-- 選択。零個と一個は簡単な形に直す。 -/
def choice : List Node → Node
  | [] => .empty
  | [n] => n
  | ns => .alt ns

mutual
/-- 繰り返しの演算子を付けられるか。幅のない検査には付けられない。 -/
def isRepeatable : Node → Bool
  | .anchor _ => false
  | .group (.capture ..) _ => true
  | .group .atomic _ => true
  | .group .. => false
  | .scoped _ body => body.isRepeatable
  | .list nodes => anyRepeatable nodes
  | .alt nodes => allRepeatable nodes
  | _ => true

def anyRepeatable : List Node → Bool
  | [] => false
  | n :: ns => n.isRepeatable || anyRepeatable ns

def allRepeatable : List Node → Bool
  | [] => true
  | n :: ns => n.isRepeatable && allRepeatable ns
end

end Node
end MultibyteRegex

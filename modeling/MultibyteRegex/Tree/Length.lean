import MultibyteRegex.Tree.Basic

/-! 構文木から前もって分かる長さと先頭バイト。 -/
namespace MultibyteRegex

/-- 位置と長さの最大。これを越える長さの計算は、この値で止まる。 -/
def maxSize : Nat := 0xffffffffffffffff

/-- `maxSize` で頭打ちになる和。 -/
def satAdd (a b : Nat) : Nat := min (a + b) maxSize

/-- `maxSize` で頭打ちになる積。 -/
def satMul (a b : Nat) : Nat := min (a * b) maxSize

namespace Node

mutual
/-- 消費するバイト数の下限。後方参照は零と数える。 -/
def minLength : Node → Nat
  | .list nodes => sumMinLength nodes
  | .alt nodes => leastMinLength nodes
  | .str bytes => bytes.length
  | .raw bytes => bytes.length
  | .cclass _ => 1
  | .word _ => 1
  | .any => 1
  | .loop l body => satMul body.minLength l.lower
  | .scoped _ body => body.minLength
  | .group (.capture ..) body => body.minLength
  | .group .atomic body => body.minLength
  | .group .. => 0
  | .empty => 0
  | .anchor _ => 0
  | .backref _ => 0

def sumMinLength : List Node → Nat
  | [] => 0
  | n :: ns => satAdd n.minLength (sumMinLength ns)

def leastMinLength : List Node → Nat
  | [] => 0
  | [n] => n.minLength
  | n :: m :: ns => min n.minLength (leastMinLength (m :: ns))
end

mutual
/-- 捕獲を中に持つか。 -/
def hasCapture : Node → Bool
  | .list nodes => anyCapture nodes
  | .alt nodes => anyCapture nodes
  | .loop _ body => body.hasCapture
  | .scoped _ body => body.hasCapture
  | .group (.capture ..) _ => true
  | .group _ body => body.hasCapture
  | _ => false

def anyCapture : List Node → Bool
  | [] => false
  | n :: ns => n.hasCapture || anyCapture ns
end

/-- どの照合も始まるバイト。区別しない文字列には決めない。 -/
def headByte (options : Options) : Node → Option UInt8
  | .str bytes => if options.contains .ignoreCase then none else bytes.head?
  | .raw bytes => bytes.head?
  | .list (n :: _) => n.headByte options
  | .loop l body => if 0 < l.lower then body.headByte options else none
  | .scoped inner body => body.headByte inner
  | .group (.capture ..) body => body.headByte options
  | .group .atomic body => body.headByte options
  | .group .ahead body => body.headByte options
  | _ => none

end Node

/-- 後読みで戻る文字数。 -/
inductive CharCount
  | fixed (n : Nat)
  | variable
  /-- 最も外側の選択だけが、それぞれ決まった異なる長さを持つ。 -/
  | topAlternatives
  deriving DecidableEq

namespace CharCount

/-- 並びの長さ。決まらない部分があれば、最初のものが全体の答えになる。 -/
def add : CharCount → CharCount → CharCount
  | .fixed a, .fixed b => .fixed (satAdd a b)
  | .fixed _, c => c
  | c, _ => c

def isFixed : CharCount → Bool
  | .fixed _ => true
  | _ => false

/-- 選択の長さ。`top` は最も外側であることを表す。 -/
def either (top : Bool) : List CharCount → CharCount
  | [] => .fixed 0
  | c :: cs =>
    if !(c :: cs).all isFixed then .variable
    else if cs.all (· = c) then c
    else if top then .topAlternatives
    else .variable

end CharCount

namespace Node

mutual
/-- 合う文字の数。`top` は木の根でだけ真になる。 -/
def charCountAt (e : Encoding) (top : Bool) : Node → CharCount
  | .empty => .fixed 0
  | .anchor _ => .fixed 0
  | .list nodes => sumCharCount e nodes
  | .alt nodes => .either top (charCounts e nodes)
  | .str bytes => .fixed (e.chars bytes).length
  | .raw bytes => .fixed (e.chars bytes).length
  | .cclass _ => .fixed 1
  | .word _ => .fixed 1
  | .any => .fixed 1
  | .backref _ => .variable
  | .loop l body =>
    if l.isFixed then
      match body.charCountAt e false with
      | .fixed n => .fixed (satMul n l.lower)
      | c => c
    else .variable
  | .scoped _ body => body.charCountAt e false
  | .group (.capture ..) body => body.charCountAt e false
  | .group .atomic body => body.charCountAt e false
  | .group .. => .fixed 0

def sumCharCount (e : Encoding) : List Node → CharCount
  | [] => .fixed 0
  | n :: ns => .add (n.charCountAt e false) (sumCharCount e ns)

def charCounts (e : Encoding) : List Node → List CharCount
  | [] => []
  | n :: ns => n.charCountAt e false :: charCounts e ns
end

/-- 合う文字の数。 -/
def charCount (n : Node) (e : Encoding) : CharCount := n.charCountAt e true

end Node
end MultibyteRegex

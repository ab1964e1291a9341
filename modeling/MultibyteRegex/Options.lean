/-! 翻訳と照合を切り替える旗の集合と、一回の照合にかける上限。 -/
namespace MultibyteRegex

/-- 旗の集合。一ビットが一つの旗を表す。 -/
structure Options where
  bits : UInt32
  deriving DecidableEq

namespace Options

def none : Options := ⟨0⟩

/-- 大文字と小文字を同じ文字とみなす。 -/
def ignoreCase : Options := ⟨1⟩

/-- パターンの空白と `#` から行末までを読み飛ばす。 -/
def extend : Options := ⟨2⟩

/-- `.` が改行にも合う。 -/
def multiline : Options := ⟨4⟩

/-- `^` と `$` を本文の両端に限る。 -/
def singleline : Options := ⟨8⟩

/-- 最初の照合ではなく最長の照合を答える。 -/
def findLongest : Options := ⟨16⟩

/-- 空の照合を失敗とみなす。 -/
def findNotEmpty : Options := ⟨32⟩

/-- 本文の先頭を行頭とみなさない。 -/
def notBol : Options := ⟨64⟩

/-- 本文の末尾を行末とみなさない。 -/
def notEol : Options := ⟨128⟩

instance : Inhabited Options := ⟨none⟩

def union (o p : Options) : Options := ⟨o.bits ||| p.bits⟩

def inter (o p : Options) : Options := ⟨o.bits &&& p.bits⟩

def compl (o : Options) : Options := ⟨~~~o.bits⟩

/-- `p` の旗がすべて立っている。 -/
def contains (o p : Options) : Bool := o.bits &&& p.bits == p.bits

/-- `p` の旗のどれかが立っている。 -/
def intersects (o p : Options) : Bool := o.bits &&& p.bits != 0

def remove (o p : Options) : Options := o.inter p.compl

def set (o p : Options) (on : Bool) : Options := if on then o.union p else o.remove p

def isEmpty (o : Options) : Bool := o.bits == 0

/-- `^` と `$` が行ごとに合うか。`singleline` は `multiline` に勝つ。 -/
def perLine (o : Options) : Bool := o.contains multiline && !o.contains singleline

end Options

/-- 一回の照合にかける上限。`none` は上限がないことを表す。 -/
structure Limits where
  /-- 分岐へ戻れる回数。 -/
  retries : Option Nat
  /-- 積める枠の数。 -/
  depth : Option Nat
  deriving DecidableEq

namespace Limits

def unlimited : Limits := ⟨none, none⟩

end Limits
end MultibyteRegex

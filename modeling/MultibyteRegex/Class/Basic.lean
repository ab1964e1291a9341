import MultibyteRegex.Class.ByteSet
import MultibyteRegex.Class.Ranges

/-! 文字の集まり。一バイトの文字は集合で、多バイトの文字は区間の列で持つ。 -/
namespace MultibyteRegex

structure CharClass where
  bytes : ByteSet := .empty
  ranges : List CodeRange := []
  negated : Bool := false
  deriving DecidableEq

namespace CharClass

def empty : CharClass := {}

instance : Inhabited CharClass := ⟨empty⟩

/-- 区間の列ではなく集合で持つ符号位置か。 -/
def isSingle (e : Encoding) (code : Nat) : Bool :=
  match e with
  | .utf8 => code < 0x80
  | _ => code < 0x100 && e.width code.toUInt8 == 1

def addBytes (c : CharClass) (s : ByteSet) : CharClass := { c with bytes := c.bytes.union s }

/-- 多バイトの区間を足す。端の順は問わない。 -/
def addWide (c : CharClass) (a b : Nat) : CharClass :=
  { c with ranges := CodeRange.insert ⟨min a b, max a b⟩ c.ranges }

/-- 両端を含む区間を、一バイトの部分と多バイトの部分に分けて足す。 -/
def addRange (c : CharClass) (e : Encoding) (lo hi : Nat) : CharClass :=
  let c := c.addBytes (.ofPred fun b => lo ≤ b.toNat && b.toNat ≤ hi && isSingle e b.toNat)
  if !e.isSingleByte && max lo 0x80 ≤ hi then c.addWide (max lo 0x80) hi else c

def addCode (c : CharClass) (e : Encoding) (code : Nat) : CharClass := c.addRange e code code

/-- 符号位置の最大。種類の否定などで多バイトの文字をすべて足すときの端になる。 -/
def maxCode : Nat := 0xffffffff

/-- その種類の文字を、`outside` ならその種類でない文字を足す。 -/
def addKind (c : CharClass) (e : Encoding) (k : CharKind) (outside : Bool) : CharClass :=
  let c := c.addBytes (.ofPred fun b => isSingle e b.toNat && e.hasKind b.toNat k != outside)
  if !e.isSingleByte && k.hasWide != outside then c.addWide 0x80 maxCode else c

/-- 一バイトの部分を、同じとみなす文字について閉じる。 -/
def closeFold (c : CharClass) (t : FoldTable) : CharClass :=
  let members := c.bytes.toList
  let folded := ByteSet.ofPred fun b => members.any fun d => d = b || t.fold d = t.fold b
  { c with bytes := folded }

/-- 否定も考えて、その文字を含むか。 -/
def contains (c : CharClass) (e : Encoding) (code : Nat) : Bool :=
  let found :=
    if isSingle e code then c.bytes.contains code.toUInt8 else CodeRange.covers c.ranges code
  found != c.negated

/-- 含む文字の先頭になりうるバイト。 -/
def leadBytes (c : CharClass) (e : Encoding) : ByteSet :=
  .ofPred fun b =>
    if isSingle e b.toNat then c.bytes.contains b != c.negated else c.negated || !c.ranges.isEmpty

end CharClass
end MultibyteRegex

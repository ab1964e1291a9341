import MultibyteRegex.Tree.Length

/-! 長さと距離の区間。下端は `maxSize` で頭打ちになり、上端は越えると上限がなくなる。 -/
namespace MultibyteRegex

/-- 区間。`max` が `none` のとき上限がない。 -/
structure Interval where
  min : Nat
  max : Option Nat
  deriving DecidableEq

namespace Interval

def fixed (n : Nat) : Interval := ⟨n, some n⟩

def zero : Interval := fixed 0

/-- 何もわからないときの区間。 -/
def unknown : Interval := ⟨0, none⟩

instance : Inhabited Interval := ⟨zero⟩

/-- `maxSize` を越える値は表さない。 -/
def bounded? (n : Nat) : Option Nat := if n ≤ maxSize then some n else none

def add (a b : Interval) : Interval where
  min := satAdd a.min b.min
  max := match a.max, b.max with
    | some x, some y => bounded? (x + y)
    | _, _ => none

/-- どちらも含む区間。 -/
def hull (a b : Interval) : Interval where
  min := Min.min a.min b.min
  max := match a.max, b.max with
    | some x, some y => some (Max.max x y)
    | _, _ => none

/-- `lower` 個から `upper` 個までの和の区間。 -/
def times (a : Interval) (lower : Nat) (upper : Option Nat) : Interval where
  min := satMul a.min lower
  max := match a.max, upper with
    | some 0, _ => some 0
    | _, some 0 => some 0
    | some x, some n => bounded? (x * n)
    | _, _ => none

def isZero (a : Interval) : Bool := a.max == some 0

/-- 上端と下端の差。逆転した区間には差がない。 -/
def width? (a : Interval) : Option Nat :=
  match a.max with
  | some m => if a.min ≤ m then some (m - a.min) else none
  | none => none

end Interval
end MultibyteRegex

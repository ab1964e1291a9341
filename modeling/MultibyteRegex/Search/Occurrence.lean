import MultibyteRegex.Class.ByteSet
import MultibyteRegex.Machine.Leaf

/-! 本文の中で、文字列や集合のバイトが現れる場所。前から探す答えは出発点より前になく、後ろから探す答えは出発点を越えない。 -/
namespace MultibyteRegex
namespace Text

/-- `lo` から `hi` までで、`p` を満たす最初の位置。 -/
def firstFrom (p : Nat → Bool) (lo hi : Nat) : Option Nat :=
  if lo ≤ hi then if p lo then some lo else firstFrom p (lo + 1) hi
  else none
termination_by hi + 1 - lo

/-- `lo` から `hi` までで、`p` を満たす最後の位置。 -/
def lastFrom (p : Nat → Bool) (lo : Nat) : Nat → Option Nat
  | 0 => if lo = 0 ∧ p 0 then some 0 else none
  | hi + 1 =>
    if lo ≤ hi + 1 then if p (hi + 1) then some (hi + 1) else lastFrom p lo hi
    else none

/-- 長さ `n` の文字列を置ける最後の位置。 -/
def lastStart? (text : Text) (n : Nat) : Option Nat :=
  if n ≤ text.size then some (text.size - n) else none

theorem firstFrom_ge {p : Nat → Bool} {lo hi i : Nat} (h : firstFrom p lo hi = some i) :
    lo ≤ i := by
  fun_induction firstFrom p lo hi with
  | case1 lo _ _ => cases h; exact Nat.le_refl _
  | case2 lo _ _ ih => exact Nat.le_of_succ_le (ih h)
  | case3 => cases h

theorem lastFrom_le {p : Nat → Bool} {lo hi i : Nat} (h : lastFrom p lo hi = some i) :
    i ≤ hi := by
  fun_induction lastFrom p lo hi with
  | case1 => cases h; exact Nat.le_refl _
  | case2 => cases h
  | case3 hi _ _ => cases h; exact Nat.le_refl _
  | case4 hi _ _ ih => exact Nat.le_succ_of_le (ih h)
  | case5 => cases h

end Text

/-- バイトごとの進み幅。どのバイトでも必ず進む。 -/
structure Skip where
  width : UInt8 → Nat
  width_pos : ∀ b, 0 < width b

namespace Skip

/-- 一つずつ進む。 -/
def one : Skip := ⟨fun _ => 1, fun _ => Nat.one_pos⟩

/-- 文字列の末尾のバイトを、その手前に現れる最も近い同じバイトに合わせる。 -/
def forward (key : List UInt8) : Skip :=
  ⟨fun b => key.dropLast.reverse.idxOf b + 1, fun _ => Nat.succ_pos _⟩

/-- 文字列の先頭のバイトを、その後に現れる最も近い同じバイトに合わせる。 -/
def backward (key : List UInt8) : Skip :=
  ⟨fun b => key.tail.idxOf b + 1, fun _ => Nat.succ_pos _⟩

end Skip

namespace Text

/-- 前から、窓の末尾のバイトが決める幅ずつ飛ばして探す。 -/
def leapForward (skip : Skip) (text : Text) (key : List UInt8) (last c : Nat) : Option Nat :=
  if c ≤ last then
    if text.hasAt key c then some c
    else leapForward skip text key last (c + skip.width (text.getD (c + (key.length - 1)) 0))
  else none
termination_by last + 1 - c
decreasing_by
  have := skip.width_pos (text.getD (c + (key.length - 1)) 0)
  omega

/-- 後ろから、窓の先頭のバイトが決める幅ずつ飛ばし、文字の頭に揃えて探す。 -/
def leapBackward (skip : Skip) (e : Encoding) (text : Text) (key : List UInt8) (limit c : Nat) :
    Option Nat :=
  if limit ≤ c then
    if text.hasAt key c then some c
    else
      let width := skip.width (text.getD c 0)
      if c < width then none
      else leapBackward skip e text key limit (e.leftAdjust text 0 (c - width))
  else none
termination_by c
decreasing_by
  have := skip.width_pos (text.getD c 0)
  have := Encoding.leftAdjust_le e text 0 (c - skip.width (text.getD c 0))
  omega

/-- 前から、文字の頭にある集合のバイトを探す。 -/
def memberForward (set : ByteSet) (e : Encoding) (text : Text) (limit p : Nat) : Option Nat :=
  if _h : p ≤ limit ∧ p < text.size then
    if set.contains text[p] then some p else memberForward set e text limit (e.nextHead text p)
  else none
termination_by text.size - p
decreasing_by
  have := Encoding.lt_nextHead e text p
  omega

/-- 後ろから、文字の頭にある集合のバイトを探す。 -/
def memberBackward (set : ByteSet) (e : Encoding) (text : Text) (limit p : Nat) : Option Nat :=
  if limit ≤ p then
    if set.contains (text.getD p 0) then some p
    else match _h : e.prevHead text 0 p with
      | some q => memberBackward set e text limit q
      | none => none
  else none
termination_by p
decreasing_by exact Encoding.prevHead_lt _h

theorem leapForward_ge {skip : Skip} {text : Text} {key : List UInt8} {last c i : Nat}
    (h : text.leapForward skip key last c = some i) : c ≤ i := by
  fun_induction leapForward skip text key last c with
  | case1 => cases h; exact Nat.le_refl _
  | case2 c _ _ ih => exact Nat.le_trans (Nat.le_add_right ..) (ih h)
  | case3 => cases h

theorem leapBackward_le {skip : Skip} {e : Encoding} {text : Text} {key : List UInt8}
    {limit c i : Nat} (h : text.leapBackward skip e key limit c = some i) : i ≤ c := by
  fun_induction leapBackward skip e text key limit c with
  | case1 => cases h; exact Nat.le_refl _
  | case2 => cases h
  | case3 c _ _ width _ ih =>
    have := Encoding.leftAdjust_le e text 0 (c - width)
    have := ih h
    omega
  | case4 => cases h

theorem memberForward_ge {set : ByteSet} {e : Encoding} {text : Text} {limit p i : Nat}
    (h : text.memberForward set e limit p = some i) : p ≤ i := by
  fun_induction memberForward set e text limit p with
  | case1 => cases h; exact Nat.le_refl _
  | case2 p _ _ ih => exact Nat.le_trans (Nat.le_of_lt (Encoding.lt_nextHead ..)) (ih h)
  | case3 => cases h

theorem memberBackward_le {set : ByteSet} {e : Encoding} {text : Text} {limit p i : Nat}
    (h : text.memberBackward set e limit p = some i) : i ≤ p := by
  fun_induction memberBackward set e text limit p with
  | case1 => cases h; exact Nat.le_refl _
  | case2 p _ _ q _h ih => exact Nat.le_trans (ih h) (Nat.le_of_lt (Encoding.prevHead_lt _h))
  | case3 => cases h
  | case4 => cases h

end Text
end MultibyteRegex

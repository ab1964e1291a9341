import MultibyteRegex.Text.Encoding

/-! 文字の境界。後ろへ戻る操作は、本文が整形式でないときも行き過ぎない。 -/
namespace MultibyteRegex
namespace Encoding

/-- `pos` から、`inside` のバイトが続くかぎり `start` まで戻る。 -/
def retreatWhile (inside : UInt8 → Bool) (text : Text) (start : Nat) : Nat → Nat
  | 0 => 0
  | p + 1 =>
    if start < p + 1 ∧ inside (text.getD (p + 1) 0) then retreatWhile inside text start p
    else p + 1

/-- `pos` の直前に `lead` のバイトが続くかぎり `start` まで戻る。 -/
def retreatOver (lead : UInt8 → Bool) (text : Text) (start : Nat) : Nat → Nat
  | 0 => 0
  | p + 1 =>
    if start < p + 1 ∧ lead (text.getD p 0) then retreatOver lead text start p
    else p + 1

/-- 境界 `p` から 2 バイトずつ進んで、`pos` を含む文字の先頭に着く。 -/
def resync (e : Encoding) (text : Text) (p pos : Nat) : Nat :=
  let q := p + e.width (text.getD p 0)
  if pos < q then p else q + (pos - q) / 2 * 2

def isUtf8Trail (b : UInt8) : Bool := 0x80 ≤ b && b < 0xc0

def isEucJpPart (b : UInt8) : Bool := 0xa1 ≤ b && b ≤ 0xfe

def isSjisLead (b : UInt8) : Bool := (0x81 ≤ b && b ≤ 0x9f) || (0xe0 ≤ b && b ≤ 0xfc)

def isSjisTrail (b : UInt8) : Bool := (0x40 ≤ b && b ≤ 0x7e) || (0x80 ≤ b && b ≤ 0xfc)

/-- `pos` を含む文字の先頭。`start` より前は見ない。 -/
def leftAdjust (e : Encoding) (text : Text) (start pos : Nat) : Nat :=
  if pos ≤ start ∨ text.size ≤ pos then pos
  else match e with
    | .ascii => pos
    | .utf8 => retreatWhile isUtf8Trail text start pos
    | .eucJp => resync .eucJp text (retreatWhile isEucJpPart text start pos) pos
    | .sjis =>
      let p := if isSjisTrail (text.getD pos 0) then retreatOver isSjisLead text start pos else pos
      resync .sjis text p pos

/-- `pos` の一つ前の文字の先頭。`start` では答えがない。 -/
def prevHead (e : Encoding) (text : Text) (start pos : Nat) : Option Nat :=
  if pos ≤ start then none else some (e.leftAdjust text start (pos - 1))

/-- `pos` から `n` 文字戻る。 -/
def stepBack (e : Encoding) (text : Text) (start : Nat) : Nat → Nat → Option Nat
  | pos, 0 => some pos
  | pos, n + 1 => (e.prevHead text start pos).bind fun p => e.stepBack text start p n

/-- `pos` が文字の途中なら、その文字の次へ進む。 -/
def rightAdjust (e : Encoding) (text : Text) (pos : Nat) : Nat :=
  let head := e.leftAdjust text 0 pos
  if head < pos then head + max (e.lengthAt text head) 1 else pos

/-- `pos` から一文字、末尾では 1 だけ進む。 -/
def nextHead (e : Encoding) (text : Text) (pos : Nat) : Nat :=
  pos + max (e.lengthAt text pos) 1

theorem retreatWhile_le (inside : UInt8 → Bool) (text : Text) (start pos : Nat) :
    retreatWhile inside text start pos ≤ pos := by
  induction pos with
  | zero => exact Nat.le_refl 0
  | succ p ih =>
    unfold retreatWhile
    split
    · exact Nat.le_succ_of_le ih
    · exact Nat.le_refl _

theorem retreatOver_le (lead : UInt8 → Bool) (text : Text) (start pos : Nat) :
    retreatOver lead text start pos ≤ pos := by
  induction pos with
  | zero => exact Nat.le_refl 0
  | succ p ih =>
    unfold retreatOver
    split
    · exact Nat.le_succ_of_le ih
    · exact Nat.le_refl _

theorem resync_le {e : Encoding} {text : Text} {p pos : Nat} (h : p ≤ pos) :
    e.resync text p pos ≤ pos := by
  unfold resync
  dsimp only
  split <;> omega

/-- 文字の先頭は元の位置を越えない。 -/
theorem leftAdjust_le (e : Encoding) (text : Text) (start pos : Nat) :
    e.leftAdjust text start pos ≤ pos := by
  unfold leftAdjust
  split
  · exact Nat.le_refl _
  · split
    · exact Nat.le_refl _
    · exact retreatWhile_le ..
    · exact resync_le (retreatWhile_le ..)
    · apply resync_le
      split
      · exact retreatOver_le ..
      · exact Nat.le_refl _

/-- 一つ前の文字の先頭は必ず手前にある。 -/
theorem prevHead_lt {e : Encoding} {text : Text} {start pos p : Nat}
    (h : e.prevHead text start pos = some p) : p < pos := by
  unfold prevHead at h
  split at h
  · cases h
  · have := leftAdjust_le e text start (pos - 1)
    injection h with h
    omega

theorem lt_nextHead (e : Encoding) (text : Text) (pos : Nat) : pos < e.nextHead text pos := by
  unfold nextHead
  omega

end Encoding
end MultibyteRegex

import MultibyteRegex.Text.Encoding

/-! 表示のために、整形式の UTF-8 でない部分を置き換え文字に直す。 -/
namespace MultibyteRegex
namespace Repair

/-- 先頭バイトの後に続くべき後続バイトの範囲。先頭バイトになれないバイトには範囲がない。 -/
def trailRanges (b : UInt8) : List (UInt8 × UInt8) :=
  let any : UInt8 × UInt8 := (0x80, 0xbf)
  if b < 0xc2 then []
  else if b < 0xe0 then [any]
  else if b = 0xe0 then [(0xa0, 0xbf), any]
  else if b = 0xed then [(0x80, 0x9f), any]
  else if b < 0xf0 then [any, any]
  else if b = 0xf0 then [(0x90, 0xbf), any, any]
  else if b < 0xf4 then [any, any, any]
  else if b = 0xf4 then [(0x80, 0x8f), any, any]
  else []

/-- 範囲に順に収まるかぎりの後続バイト。 -/
def takeTrail : List (UInt8 × UInt8) → List UInt8 → List UInt8
  | (lo, hi) :: ranges, b :: rest => if lo ≤ b ∧ b ≤ hi then b :: takeTrail ranges rest else []
  | _, _ => []

/-- 置き換え文字。 -/
def replacement : List UInt8 := [0xef, 0xbf, 0xbd]

/-- 先頭の一文字が整形式か。続けて読めた後続バイトも答える。 -/
def wellFormedHead (b : UInt8) (rest : List UInt8) : Bool × List UInt8 :=
  let ranges := trailRanges b
  let trail := takeTrail ranges rest
  (b < 0x80 || (!ranges.isEmpty && trail.length == ranges.length), trail)

end Repair

/-- 整形式でない部分を、途中まで読めた長さごとに一つの置き換え文字に直す。 -/
def repairUtf8 : List UInt8 → List UInt8
  | [] => []
  | b :: rest =>
    let head := Repair.wellFormedHead b rest
    (if head.1 then b :: head.2 else Repair.replacement) ++ repairUtf8 (rest.drop head.2.length)
termination_by bytes => bytes.length
decreasing_by exact Nat.lt_succ_of_le (List.drop_suffix ..).length_le

/-- ASCII のバイト列は変わらない。 -/
theorem repairUtf8_ascii {bytes : List UInt8} (h : ∀ b ∈ bytes, b < 0x80) :
    repairUtf8 bytes = bytes := by
  induction bytes with
  | nil => simp [repairUtf8]
  | cons b rest ih =>
    have hb : b < 0x80 := h b (by simp)
    have hr : Repair.trailRanges b = [] := by
      simp [Repair.trailRanges, UInt8.lt_trans hb (by decide : (0x80 : UInt8) < 0xc2)]
    rw [repairUtf8]
    simp [Repair.wellFormedHead, hr, Repair.takeTrail, hb]
    exact ih fun c hc => h c (by simp [hc])

end MultibyteRegex

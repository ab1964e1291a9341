import MultibyteRegex.Options
import MultibyteRegex.Text.Encoding

/-! パターンの字句。どの関数も、読んだ値と、入力の後ろの部分である残りを返す。 -/
namespace MultibyteRegex
namespace Pattern

/-- 残りのパターン。 -/
abbrev Input := List UInt8

/-- ASCII の文字列が占めるバイト列。 -/
def ascii (s : String) : List UInt8 := s.toList.map fun c => c.toNat.toUInt8

/-- 基数 `base` の数字の値。 -/
def digit? (base : Nat) (b : UInt8) : Option Nat :=
  let value :=
    if 0x30 ≤ b ∧ b ≤ 0x39 then b.toNat - 0x30
    else if 0x61 ≤ b ∧ b ≤ 0x66 then b.toNat - 0x61 + 10
    else if 0x41 ≤ b ∧ b ≤ 0x46 then b.toNat - 0x41 + 10
    else base
  if value < base then some value else none

/-- 数字を高々 `limit` 個読んで `acc` に続ける。 -/
def digits (base : Nat) : Nat → Nat → Input → Nat × Input
  | 0, acc, input => (acc, input)
  | _ + 1, acc, [] => (acc, [])
  | limit + 1, acc, b :: rest =>
    match digit? base b with
    | some d => digits base limit (acc * base + d) rest
    | none => (acc, b :: rest)

/-- 十進の数。数字が一つもなければ値がない。 -/
def decimal (input : Input) : Option Nat × Input :=
  let (value, rest) := digits 10 input.length 0 input
  (if rest.length < input.length then some value else none, rest)

/-- `{n,m}` の数の上限。 -/
def maxRepeatNumber : Nat := 100000

/-- `n`、`n,`、`n,m`、`,m` のどれかの回数。 -/
def bounds (input : Input) : Option ((Nat × Option Nat) × Input) :=
  let (first, rest) := decimal input
  match rest with
  | [] => none
  | b :: rest =>
    if latin1 b = '}' then first.map fun n => ((n, some n), b :: rest)
    else if latin1 b = ',' then
      let (second, rest) := decimal rest
      if first.isNone && second.isNone then none else some ((first.getD 0, second), rest)
    else none

/-- `{` の後の回数と `}`。この形でなければ `{` は文字である。 -/
def interval (input : Input) : Except ParseError (Option ((Nat × Option Nat) × Input)) :=
  match bounds input with
  | some ((lower, upper), close :: rest) =>
    if latin1 close ≠ '}' then .ok none
    else if maxRepeatNumber < lower || upper.any (maxRepeatNumber < ·) then
      .error .repeatNumberTooBig
    else if upper.any (· < lower) then .error .upperSmallerThanLower
    else .ok (some ((lower, upper), rest))
  | _ => .ok none

/-- 繰り返しの演算子の回数。 -/
def repetition (input : Input) : Except ParseError (Option ((Nat × Option Nat) × Input)) :=
  match input with
  | [] => .ok none
  | b :: rest =>
    match latin1 b with
    | '*' => .ok (some ((0, none), rest))
    | '+' => .ok (some ((1, none), rest))
    | '?' => .ok (some ((0, some 1), rest))
    | '{' => interval rest
    | _ => .ok none

/-- `(?#` の後の注釈を閉じ括弧まで読み飛ばす。逆斜線の次のバイトは閉じ括弧とみなさない。 -/
def skipComment : Input → Except ParseError Input
  | [] => .error .endInGroup
  | b :: rest =>
    match latin1 b, rest with
    | ')', _ => .ok rest
    | '\\', _ :: rest => skipComment rest
    | _, rest => skipComment rest

/-- `#` の後を行末まで読み飛ばす。 -/
def skipLine : Input → Input
  | [] => []
  | b :: rest => if latin1 b = '\n' then rest else skipLine rest

def isBlank (b : UInt8) : Bool := b = 0x20 || (0x09 ≤ b && b ≤ 0x0d)

theorem skipComment_suffix {input rest : Input} (h : skipComment input = .ok rest) :
    rest <:+ input := by
  fun_induction skipComment input with
  | case1 => cases h
  | case2 b rest => cases h; exact List.suffix_cons ..
  | case3 b c rest _ ih => exact (ih h).trans ((List.suffix_cons ..).trans (List.suffix_cons ..))
  | case4 b rest _ _ ih => exact (ih h).trans (List.suffix_cons ..)

theorem skipLine_suffix (input : Input) : skipLine input <:+ input := by
  fun_induction skipLine input with
  | case1 => exact List.suffix_refl _
  | case2 => exact List.suffix_cons ..
  | case3 b rest _ ih => exact ih.trans (List.suffix_cons ..)

/-- 注釈を、`extended` なら空白と `#` から行末までも、読み飛ばす。 -/
def skipTrivia (extended : Bool) : Input → Except ParseError Input
  | [] => .ok []
  | b :: rest =>
    if extended && isBlank b then skipTrivia extended rest
    else if extended && latin1 b = '#' then skipTrivia extended (skipLine rest)
    else match rest with
      | c :: d :: more =>
        if latin1 b = '(' ∧ latin1 c = '?' ∧ latin1 d = '#' then
          match _h : skipComment more with
          | .ok after => skipTrivia extended after
          | .error e => .error e
        else .ok (b :: rest)
      | _ => .ok (b :: rest)
termination_by input => input.length
decreasing_by
  · simp
  · have := (skipLine_suffix rest).length_le
    simp
    omega
  · have := (skipComment_suffix _h).length_le
    simp
    omega

theorem skipTrivia_suffix {extended : Bool} {input rest : Input}
    (h : skipTrivia extended input = .ok rest) : rest <:+ input := by
  fun_induction skipTrivia extended input with
  | case1 => cases h; exact List.suffix_refl _
  | case2 b tail _ ih => exact (ih h).trans (List.suffix_cons ..)
  | case3 b tail _ _ ih =>
    exact (ih h).trans ((skipLine_suffix tail).trans (List.suffix_cons ..))
  | case4 b _ _ c d more _ after hc ih =>
    have hs : more <:+ b :: c :: d :: more := ⟨[b, c, d], rfl⟩
    exact (ih h).trans ((skipComment_suffix hc).trans hs)
  | case5 => cases h
  | case6 => cases h; exact List.suffix_refl _
  | case7 => cases h; exact List.suffix_refl _

theorem digits_suffix (base limit acc : Nat) (input : Input) :
    (digits base limit acc input).2 <:+ input := by
  fun_induction digits base limit acc input with
  | case1 => exact List.suffix_refl _
  | case2 => exact List.suffix_refl _
  | case3 limit acc b rest d _ ih => exact ih.trans (List.suffix_cons ..)
  | case4 => exact List.suffix_refl _

theorem decimal_suffix (input : Input) : (decimal input).2 <:+ input := digits_suffix ..

theorem bounds_suffix {input rest : Input} {b : Nat × Option Nat}
    (h : bounds input = some (b, rest)) : rest <:+ input := by
  have hd := decimal_suffix input
  unfold bounds at h
  dsimp only at h
  split at h
  · cases h
  · rename_i c tail hr
    rw [hr] at hd
    split at h
    · obtain ⟨n, _, hn⟩ := Option.map_eq_some_iff.1 h
      cases hn
      exact hd
    · split at h
      · split at h
        · cases h
        · cases h
          exact (decimal_suffix tail).trans ((List.suffix_cons ..).trans hd)
      · cases h

theorem interval_suffix {input rest : Input} {b : Nat × Option Nat}
    (h : interval input = .ok (some (b, rest))) : rest <:+ input := by
  unfold interval at h
  split at h
  · rename_i hb
    split at h
    · cases h
    · split at h
      · cases h
      · split at h
        · cases h
        · cases h
          exact (List.suffix_cons ..).trans (bounds_suffix hb)
  · cases h

/-- 演算子は少なくとも一バイトを占める。 -/
theorem repetition_cons_suffix {b : UInt8} {input rest : Input} {n : Nat × Option Nat}
    (h : repetition (b :: input) = .ok (some (n, rest))) : rest <:+ input := by
  unfold repetition at h
  split at h
  · cases h
  · rename_i c tail hc
    cases hc
    split at h
    · cases h
      exact List.suffix_refl _
    · cases h
      exact List.suffix_refl _
    · cases h
      exact List.suffix_refl _
    · exact interval_suffix h
    · cases h

theorem repetition_suffix {input rest : Input} {n : Nat × Option Nat}
    (h : repetition input = .ok (some (n, rest))) : rest <:+ input :=
  match input, h with
  | [], h => by simp [repetition] at h
  | _ :: _, h => (repetition_cons_suffix h).trans (List.suffix_cons ..)

end Pattern
end MultibyteRegex

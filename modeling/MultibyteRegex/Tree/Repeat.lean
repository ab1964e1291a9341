import MultibyteRegex.Tree.Basic

/-! 繰り返しの演算子を木に付ける。じかに重なる繰り返しは、同じ働きの一つに直す。 -/
namespace MultibyteRegex

/-- よく使う六つの繰り返し。 -/
inductive Quantifier
  | optional
  | star
  | plus
  | lazyOptional
  | lazyStar
  | lazyPlus
  deriving DecidableEq

namespace Quantifier

def ofLoop? (l : Loop) : Option Quantifier :=
  match l.lower, l.upper, l.greedy with
  | 0, some 1, true => some .optional
  | 0, none, true => some .star
  | 1, none, true => some .plus
  | 0, some 1, false => some .lazyOptional
  | 0, none, false => some .lazyStar
  | 1, none, false => some .lazyPlus
  | _, _, _ => none

def toLoop : Quantifier → Loop
  | .optional => { lower := 0, upper := some 1, greedy := true }
  | .star => { lower := 0, upper := none, greedy := true }
  | .plus => { lower := 1, upper := none, greedy := true }
  | .lazyOptional => { lower := 0, upper := some 1, greedy := false }
  | .lazyStar => { lower := 0, upper := none, greedy := false }
  | .lazyPlus => { lower := 1, upper := none, greedy := false }

/-- 二重の繰り返しを、内側の本体に外から順に付ける繰り返しの列に直す。 -/
def reduce (inner outer : Quantifier) : List Quantifier :=
  match inner, outer with
  | .optional, .optional => [.optional]
  | .optional, .star => [.star]
  | .optional, .plus => [.star]
  | .optional, .lazyOptional => [.lazyOptional]
  | .optional, .lazyStar => [.lazyStar]
  | .optional, .lazyPlus => [.lazyPlus, .optional]
  | .star, .lazyOptional => [.lazyOptional, .plus]
  | .star, .lazyStar => [.lazyOptional, .plus]
  | .star, _ => [.star]
  | .plus, .optional => [.star]
  | .plus, .star => [.star]
  | .plus, .plus => [.plus]
  | .plus, .lazyOptional => [.lazyOptional, .plus]
  | .plus, .lazyStar => [.lazyOptional, .plus]
  | .plus, .lazyPlus => [.plus]
  | .lazyOptional, .optional => [.lazyOptional]
  | .lazyOptional, .lazyOptional => [.lazyOptional]
  | .lazyOptional, _ => [.lazyStar]
  | .lazyStar, _ => [.lazyStar]
  | .lazyPlus, .optional => [.optional, .lazyPlus]
  | .lazyPlus, .star => [.optional, .lazyPlus]
  | .lazyPlus, .plus => [.lazyPlus]
  | .lazyPlus, .lazyOptional => [.lazyStar]
  | .lazyPlus, .lazyStar => [.lazyStar]
  | .lazyPlus, .lazyPlus => [.lazyPlus]

end Quantifier

namespace Node

/-- 本体に繰り返しを付ける。回数で書いた外側が欲張りで、内側が `*` か `+` なら、上限を下限まで縮める。 -/
def iterate (body : Node) (l : Loop) : Node :=
  match body with
  | .loop inner target =>
    match Quantifier.ofLoop? inner, Quantifier.ofLoop? l with
    | some q, some p => (q.reduce p).foldr (fun k n => .loop k.toLoop n) target
    | some q, none =>
      if (q = .star ∨ q = .plus) ∧ l.greedy ∧ l.upper.any (1 < ·) then
        .loop { l with upper := some (max l.lower 1) } body
      else .loop l body
    | none, _ => .loop l body
  | _ => .loop l body

end Node
end MultibyteRegex

import MultibyteRegex.Search.Plan

/-! 照合を試す位置の列。手順が本文だけから決め、照合の成否には依らない。 -/
namespace MultibyteRegex
namespace Encoding

/-- `c` から `hi` までの文字の頭と、`hi` を越えた最初の頭。 -/
def headsUp (e : Encoding) (text : Text) (hi c : Nat) : List Nat × Nat :=
  if c ≤ hi then
    let (rest, next) := e.headsUp text hi (e.nextHead text c)
    (c :: rest, next)
  else ([], c)
termination_by hi + 1 - c
decreasing_by
  have := lt_nextHead e text c
  omega

/-- `c` から `lo` まで戻る文字の頭と、`lo` より前の最初の頭。本文の初めに着けば頭はない。 -/
def headsDown (e : Encoding) (text : Text) (lo c : Nat) : List Nat × Option Nat :=
  if c < lo then ([], some c)
  else match _h : e.prevHead text 0 c with
    | some p =>
      let (rest, next) := e.headsDown text lo p
      (c :: rest, next)
    | none => ([c], none)
termination_by c
decreasing_by exact prevHead_lt _h

theorem headsUp_gt (e : Encoding) (text : Text) (hi c : Nat) : hi < (e.headsUp text hi c).2 := by
  fun_induction headsUp e text hi c with
  | case1 c _ rest next hr ih =>
    rw [hr] at ih
    exact ih
  | case2 => omega

theorem headsDown_lt {e : Encoding} {text : Text} {lo c s : Nat}
    (h : (e.headsDown text lo c).2 = some s) : s < lo := by
  fun_induction headsDown e text lo c with
  | case1 c hc => cases h; exact hc
  | case2 c _ p _ rest next hr ih =>
    rw [hr] at ih
    exact ih h
  | case3 => cases h

end Encoding

/-- 探す相手と、探す本文。 -/
structure Quarry where
  plan : Plan
  encoding : Encoding
  fold : FoldTable
  text : Text

namespace Quarry

/-- 始まりが `s` の照合の、探すものが現れうる最後の位置。 -/
def reach (q : Quarry) (s : Nat) : Nat :=
  match q.plan.distance.max with
  | some far => min (s + far) q.text.size
  | none => q.text.size

/-- `p` に現れたときの、始まりの下限。`floor` より前は試さない。 -/
def earliest (q : Quarry) (floor p : Nat) : Nat :=
  match q.plan.distance.max with
  | some far => max (p - far) floor
  | none => floor

/-- 始まりが `s` から `hi` までの、前からの候補。探すものが現れる周りだけを試す。 -/
def forward (q : Quarry) (hi s : Nat) : List Nat :=
  if _h : s ≤ hi then
    match _hp : q.plan.finder.forward q.encoding q.fold q.text (s + q.plan.distance.min)
        (q.reach hi) with
    | none => []
    | some p =>
      let high := min (p - q.plan.distance.min) hi
      let heads := q.encoding.headsUp q.text high (q.encoding.rightAdjust q.text (q.earliest s p))
      heads.1 ++ q.forward hi (max (q.encoding.rightAdjust q.text (high + 1)) heads.2)
  else []
termination_by hi + 1 - s
decreasing_by
  have := Finder.forward_ge _hp
  have := q.encoding.headsUp_gt q.text (min (p - q.plan.distance.min) hi)
    (q.encoding.rightAdjust q.text (q.earliest s p))
  omega

theorem earliest_le {q : Quarry} {lo s p : Nat} (h : lo ≤ s) (hp : p ≤ q.reach s) :
    q.earliest lo p ≤ s := by
  unfold reach at hp
  unfold earliest
  cases hm : q.plan.distance.max with
  | none => exact h
  | some far =>
    rw [hm] at hp
    dsimp only at hp ⊢
    omega

/-- 始まりが `s` から `lo` までの、後ろからの候補。 -/
def backward (q : Quarry) (lo s : Nat) : List Nat :=
  if _h : lo ≤ s then
    match _hp : q.plan.finder.backward q.encoding q.fold q.text (q.reach s)
        (lo + q.plan.distance.min) with
    | none => []
    | some p =>
      let high := min (p - q.plan.distance.min) s
      let heads :=
        q.encoding.headsDown q.text (q.earliest lo p) (q.encoding.leftAdjust q.text 0 high)
      heads.1 ++ match _hn : heads.2 with
        | some next => q.backward lo next
        | none => []
  else []
termination_by s
decreasing_by
  have := earliest_le _h (Finder.backward_le _hp)
  have := Encoding.headsDown_lt _hn
  omega

/-- 行の頭にある位置。検索を始めた位置は行の頭とみなす。 -/
def isLineHead (q : Quarry) (start s : Nat) : Bool :=
  s == start || q.text[s - 1]? == some 0x0a

/-- `start` から `range` までの検索で、照合を試す位置を試す順に並べる。 -/
def candidates (q : Quarry) (start range : Nat) : List Nat :=
  let isBackward := range < start
  match q.plan.window? q.text start (min start range) (max start range) with
  | none => []
  | some (lo, hi) =>
    let keyed := !q.plan.finder.isNothing && lo != hi
    let last := q.encoding.leftAdjust q.text 0 hi
    if isBackward then
      if keyed then q.backward lo last
      else if q.plan.finder.isNothing then (q.encoding.headsDown q.text lo last).1
      else (q.encoding.headsUp q.text hi lo).1
    else
      let all := if keyed then q.forward hi lo else (q.encoding.headsUp q.text hi lo).1
      if q.plan.edges.anyStar then all.filter (q.isLineHead start) else all

end Quarry
end MultibyteRegex

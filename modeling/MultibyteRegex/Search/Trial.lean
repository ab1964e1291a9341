import MultibyteRegex.Machine.Step
import MultibyteRegex.Search.Candidates

/-! 候補の位置で順に試す照合。初めて合うものか、最も長く合うものを選ぶ。 -/
namespace MultibyteRegex

/-- 見つかった照合。 -/
structure Found where
  start : Nat
  length : Nat
  caps : Captures

namespace Matcher

/-- 初めて照合する候補。 -/
def first (m : Matcher) (fuel : Nat) : List Nat → Fueled (Option Found)
  | [] => some (.ok none)
  | s :: rest =>
    match m.matchAt fuel s with
    | none => none
    | some (.error e) => some (.error e)
    | some .aborted => some .aborted
    | some (.ok ⟨some length, caps⟩) => some (.ok (some ⟨s, length, caps⟩))
    | some (.ok ⟨none, _⟩) => m.first fuel rest

/-- 最も長く照合する候補。同じ長さなら先に試したものを残す。 -/
def longest (m : Matcher) (fuel : Nat) (best : Option Found) : List Nat → Fueled (Option Found)
  | [] => some (.ok best)
  | s :: rest =>
    match m.matchAt fuel s with
    | none => none
    | some (.error e) => some (.error e)
    | some .aborted => some .aborted
    | some (.ok ⟨some length, caps⟩) =>
      m.longest fuel (if best.all (·.length < length) then some ⟨s, length, caps⟩ else best) rest
    | some (.ok ⟨none, _⟩) => m.longest fuel best rest

end Matcher

end MultibyteRegex

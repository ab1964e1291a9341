import MultibyteRegex.Regex

/-! 一つの正規表現と一つの範囲の列を、要求の列で動かす。 -/
namespace MultibyteRegex

/-- 要求のあいだ保たれるもの。 -/
structure Session where
  regex : Regex
  limits : Limits := .unlimited
  region : Region := {}

inductive Request
  | search (options : Options) (text : Text) (start range : Nat)
  | matchAt (text : Text) (pos : Nat)
  | find (text : Text)
  | isMatch (text : Text)
  /-- パターンを差し替える。翻訳できなければ元のまま残る。 -/
  | recompile (source : Source)
  | limit (limits : Limits)
  | groupCount
  | listing
  | group (n : Nat)
  /-- 範囲の列を少なくとも `n` 個にする。 -/
  | grow (n : Nat)

/-- 要求の答え。 -/
inductive Reply
  | done
  | count (n : Nat)
  | truth (b : Bool)
  | text (s : String)
  | span (s : Option (Nat × Nat))
  | size (n : Nat) (isEmpty : Bool)
  /-- 見つかった照合の始まりと、その範囲の列。 -/
  | found (result : Option (Nat × Region))
  /-- 一か所の照合の長さと、その後の範囲の列。 -/
  | matched (length : Option Nat) (region : Region)
  | failed (e : RegexError)
  /-- 打ち切られた。要求の前と何も変わらない。 -/
  | aborted
  /-- 燃料が尽きた。 -/
  | unfinished
  deriving DecidableEq

/-- 計算の成り行きを答えにする。 -/
def Reply.ofFueled {α : Type} (f : α → Reply) : Fueled α → Reply
  | none => .unfinished
  | some (.error e) => .failed (.eval e)
  | some .aborted => .aborted
  | some (.ok a) => f a

namespace Session

/-- 一か所の照合。合ったときだけ範囲の列を書き換える。 -/
def matchAt (s : Session) (fuel : Nat) (text : Text) (pos : Nat) : Session × Reply :=
  match s.regex.matchAt s.limits fuel text pos with
  | some (.ok ⟨some length, caps⟩) =>
    let region := s.region.update caps
    ({ s with region }, .matched (some length) region)
  | some (.ok ⟨none, _⟩) => (s, .matched none s.region)
  | some (.error e) => (s, .failed (.eval e))
  | some .aborted => (s, .aborted)
  | none => (s, .unfinished)

/-- 要求に一つ答える。 -/
def step (fuel : Nat) (s : Session) : Request → Session × Reply
  | .search options text start range =>
    (s, .ofFueled (fun found => .found (found.map fun f => (f.start, .ofCaptures f.caps)))
      (s.regex.search s.limits fuel options text start range))
  | .matchAt text pos => s.matchAt fuel text pos
  | .find text => (s, .ofFueled .span (s.regex.find s.limits fuel text))
  | .isMatch text => (s, .ofFueled .truth (s.regex.isMatch s.limits fuel text))
  | .recompile source =>
    match Regex.compile source with
    | .ok regex => ({ s with regex }, .done)
    | .error e => (s, .failed e)
  | .limit limits => ({ s with limits }, .done)
  | .groupCount => (s, .count s.regex.groupCount)
  | .listing => (s, .text s.regex.listing)
  | .group n => (s, .span (s.region.group n))
  | .grow n =>
    let region := s.region.grow n
    ({ s with region }, .size region.size region.isEmpty)

/-- 要求に順に答える。 -/
def run (fuel : Nat) (s : Session) : List Request → Session × List Reply
  | [] => (s, [])
  | r :: rs =>
    let (s, reply) := s.step fuel r
    let (s, replies) := s.run fuel rs
    (s, reply :: replies)

end Session
end MultibyteRegex

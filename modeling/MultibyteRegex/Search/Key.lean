import MultibyteRegex.Search.Interval

/-! どの照合も含む文字列。離れ方が決まっていて長いものほど、検索の手がかりとして良い。 -/
namespace MultibyteRegex

/-- どの照合も、始まりから `distance` の所に含む文字列。 -/
structure Key where
  distance : Interval
  bytes : List UInt8
  /-- バイト列は写した後のものである。 -/
  folded : Bool
  /-- 節の終わりまで届く。 -/
  reachesEnd : Bool
  deriving DecidableEq

/-- 手がかりにする文字列の長さの上限。 -/
def maxKeyLength : Nat := 24

namespace Encoding

/-- 頭から `budget` バイトに収まる完全な文字の並び。 -/
def wholeChars (e : Encoding) (budget : Nat) : List UInt8 → List UInt8
  | [] => []
  | b :: rest =>
    if e.width b ≤ budget ∧ e.width b ≤ rest.length + 1 then
      (e.takeChar b rest).1 ++ e.wholeChars (budget - e.width b) (e.takeChar b rest).2
    else []
termination_by bytes => bytes.length
decreasing_by exact Nat.lt_succ_of_le (List.drop_suffix ..).length_le

end Encoding

namespace Key

/-- 始まりの距離をずらす。 -/
def shift (k : Key) (by_ : Interval) : Key := { k with distance := by_.add k.distance }

/-- 文字の境目で `limit` バイトまでに切る。 -/
def clip (k : Key) (e : Encoding) (limit : Nat) : Key :=
  let kept := e.wholeChars limit k.bytes
  if kept.length < k.bytes.length then { k with bytes := kept, reachesEnd := false } else k

/-- すぐ後に続く文字列をつなぐ。 -/
def concat (k next : Key) (e : Encoding) : Key :=
  { k with bytes := k.bytes ++ next.bytes, reachesEnd := next.reachesEnd }.clip e maxKeyLength

/-- 距離の幅が狭いほど高い点。 -/
def distanceScore (d : Interval) : Nat :=
  match d.width? with
  | none => 0
  | some w => if w < 100 then 1000 / (w + 1) else 1

/-- 長く、写さず、距離の決まった文字列ほど高い点。 -/
def score (k : Key) : Nat := k.bytes.length * (if k.folded then 1 else 2) * distanceScore k.distance

/-- 良いほうの手がかり。同点なら近いほうを、それも同じなら先のものを残す。 -/
def better (current candidate : Option Key) : Option Key :=
  match current, candidate with
  | none, c => c.filter fun k => !k.bytes.isEmpty
  | some a, none => some a
  | some a, some b =>
    if b.bytes.isEmpty then some a
    else if a.score < b.score ∨ (b.score = a.score ∧ b.distance.min < a.distance.min) then some b
    else some a

end Key

end MultibyteRegex

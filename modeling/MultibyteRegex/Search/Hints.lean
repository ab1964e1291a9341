import MultibyteRegex.Search.Facts

/-! 木の全体から選ぶ、検索の手がかり。 -/
namespace MultibyteRegex

namespace ByteSet

/-- 少ないほど絞り込める点。空白と水平タブは半分に数える。 -/
def cost (s : ByteSet) : Nat :=
  s.toList.foldl (fun n b => n + if b = 0x20 ∨ b = 0x09 then 1 else 2) 0

end ByteSet

/-- 検索に使う手がかり。文字列と始まるバイトは、高々どちらか一方を使う。 -/
structure Hints where
  edges : Edges := {}
  /-- 照合の長さの区間。 -/
  length : Interval := .unknown
  /-- 照合の長さの下限。 -/
  threshold : Nat := 0
  key : Option Key := none
  first : Option ByteSet := none

namespace Hints

/-- 短く離れた文字列や散らばった文字列より、始まるバイトのほうが良いか。 -/
def prefersFirst (k : Key) (s : ByteSet) : Bool :=
  let short := k.bytes.length < 2 && k.distance ≠ .zero
  let dispersed := k.distance.width?.all (4 < ·)
  (short && s.cost ≤ 9) || (dispersed && s.cost ≤ 4)

/-- 木の全体の手がかり。すべてのバイトを含む集合は役に立たない。 -/
def ofTree (e : Encoding) (fold : Option FoldTable) (options : Options) (root : Node) : Hints :=
  let facts := Facts.ofNode e fold options root
  let first := facts.first.filter (·.count < 256)
  let edges : Edges := {
    beginBuf := facts.left.beginBuf
    beginPosition := facts.left.beginPosition
    anyStar := facts.left.anyStar
    anyStarNewline := facts.left.anyStarNewline
    endBuf := facts.right.endBuf
    semiEndBuf := facts.right.semiEndBuf }
  let (key, first) := match facts.best, first with
    | some k, some s => if prefersFirst k s then (none, some s) else (some k, none)
    | key, first => (key, first)
  { edges, length := facts.length, threshold := facts.length.min, key, first }

end Hints
end MultibyteRegex

/-! 照合の始まりと終わりを決める検査。並びでは合わせ、選択では共通のものだけを残す。 -/
namespace MultibyteRegex

/-- 照合の始まりと終わりを決める検査の集まり。 -/
structure Edges where
  beginBuf : Bool := false
  beginPosition : Bool := false
  endBuf : Bool := false
  semiEndBuf : Bool := false
  /-- 改行に合わない任意の文字の繰り返しで始まる。 -/
  anyStar : Bool := false
  /-- 改行にも合う任意の文字の繰り返しで始まる。 -/
  anyStarNewline : Bool := false
  deriving DecidableEq

namespace Edges

def union (a b : Edges) : Edges where
  beginBuf := a.beginBuf || b.beginBuf
  beginPosition := a.beginPosition || b.beginPosition
  endBuf := a.endBuf || b.endBuf
  semiEndBuf := a.semiEndBuf || b.semiEndBuf
  anyStar := a.anyStar || b.anyStar
  anyStarNewline := a.anyStarNewline || b.anyStarNewline

def inter (a b : Edges) : Edges where
  beginBuf := a.beginBuf && b.beginBuf
  beginPosition := a.beginPosition && b.beginPosition
  endBuf := a.endBuf && b.endBuf
  semiEndBuf := a.semiEndBuf && b.semiEndBuf
  anyStar := a.anyStar && b.anyStar
  anyStarNewline := a.anyStarNewline && b.anyStarNewline

end Edges

end MultibyteRegex

import MultibyteRegex.Search.Edges
import MultibyteRegex.Search.Key

/-! 木の節ごとに読み取る照合の手がかり。長さ、両端の検査、含む文字列、始まるバイトを集める。 -/
namespace MultibyteRegex

/-- 一つの節の手がかり。 -/
structure Facts where
  length : Interval := .zero
  left : Edges := {}
  right : Edges := {}
  /-- 節の初めから始まる文字列。 -/
  leading : Option Key := none
  /-- 節の中で最も良い文字列。 -/
  best : Option Key := none
  /-- 節の終わりで終わる文字列。 -/
  trailing : Option Key := none
  /-- 節が始まりうるバイト。 -/
  first : Option ByteSet := none

namespace Facts

/-- 文字列の手がかり。写して比べる多バイトの文字列からは長さしか得ない。 -/
def ofLiteral (e : Encoding) (fold : Option FoldTable) (ignoreCase : Bool) (bytes : List UInt8) :
    Facts :=
  let plain : Facts := { length := .fixed bytes.length }
  let known (folded : Bool) (bytes : List UInt8) (first : ByteSet) : Facts :=
    let key := Key.clip ⟨.zero, bytes, folded, true⟩ e maxKeyLength
    { plain with leading := some key, best := some key, trailing := some key, first := some first }
  match bytes with
  | [] => plain
  | b :: _ =>
    if ignoreCase then
      match fold with
      | none => plain
      | some table =>
        if bytes.any (1 < e.width ·) then plain
        else known true (table.foldAll bytes) (.ofPred fun c => table.fold c == table.fold b)
    else known false bytes (.singleton b)

/-- 並びを左から読むときの途中。 -/
structure Running where
  facts : Facts := {}
  /-- 直前の要素の終わりまで届いている文字列。 -/
  open_ : Option Key := none
  best : Option Key := none
  /-- まだ幅のある要素を読んでいない。 -/
  atStart : Bool := true

namespace Running

/-- もう伸びない文字列を、初めの文字列と最良の文字列の候補にする。 -/
def finish (r : Running) (k : Key) : Running :=
  let k := { k with reachesEnd := false }
  let leading := if k.distance = .zero ∧ r.facts.leading.isNone then some k else r.facts.leading
  { r with facts := { r.facts with leading }, best := Key.better r.best (some k) }

def finish? (r : Running) : Option Key → Running
  | some k => r.finish k
  | none => r

/-- 次の要素の文字列を、届いている文字列につなぐ。つなげなければ切り替える。 -/
def extend (r : Running) (e : Encoding) (leading trailing : Option Key) : Running :=
  let switch (r : Running) : Running :=
    match leading with
    | some k =>
      if k.reachesEnd then { r with open_ := some k } else { r.finish k with open_ := trailing }
    | none => { r with open_ := trailing }
  match r.open_, leading with
  | some a, some b =>
    if a.folded = b.folded then
      let merged := a.concat b e
      if merged.reachesEnd then { r with open_ := some merged }
      else { r.finish merged with open_ := trailing }
    else switch (r.finish a)
  | opened, _ => switch (r.finish? opened)

/-- 要素を一つ読む。 -/
def add (e : Encoding) (r : Running) (child : Facts) : Running :=
  let pos := r.facts.length
  let isZero := child.length.isZero
  let facts := { r.facts with
    left := if r.atStart then r.facts.left.union child.left else r.facts.left
    first := if r.atStart ∧ r.facts.first.isNone ∧ pos.isZero then child.first else r.facts.first
    right := if isZero then r.facts.right.union child.right else child.right }
  let r := { r with
    facts
    atStart := r.atStart && isZero
    best := Key.better r.best (child.best.map (·.shift pos)) }
  if isZero ∧ child.leading.isNone then r
  else
    let r := r.extend e (child.leading.map (·.shift pos)) (child.trailing.map (·.shift pos))
    { r with facts := { r.facts with length := pos.add child.length } }

/-- 並びの終わり。届いている文字列は並びの終わりで終わる。 -/
def done (r : Running) : Facts :=
  match r.open_ with
  | none => { r.facts with best := r.best }
  | some k =>
    { r.facts with
      leading := if k.distance = .zero ∧ r.facts.leading.isNone then some k else r.facts.leading
      trailing := some k
      best := Key.better r.best (some k) }

end Running

/-- 並びの手がかり。 -/
def seq (e : Encoding) (children : List Facts) : Facts :=
  (children.foldl (Running.add e) {}).done

/-- 二つの文字列に共通の初めの部分。 -/
def commonPrefix : List UInt8 → List UInt8 → List UInt8
  | a :: as, b :: bs => if a = b then a :: commonPrefix as bs else []
  | _, _ => []

/-- 二つの枝の初めの文字列に共通のもの。 -/
def commonKey (a b : Option Key) : Option Key :=
  match a, b with
  | some a, some b =>
    if a.folded ≠ b.folded then none
    else
      let bytes := commonPrefix a.bytes b.bytes
      let same := a.bytes = b.bytes ∧ a.reachesEnd ∧ b.reachesEnd
      if bytes.isEmpty then none else some ⟨.zero, bytes, a.folded, same⟩
  | _, _ => none

def either (a b : Facts) : Facts where
  length := a.length.hull b.length
  left := a.left.inter b.left
  right := a.right.inter b.right
  leading := commonKey a.leading b.leading
  first := match a.first, b.first with
    | some s, some t => some (s.union t)
    | _, _ => none

/-- 選択の手がかり。共通の部分は文字の途中で切れうるので、境目まで縮める。 -/
def alt (e : Encoding) : List Facts → Facts
  | [] => {}
  | child :: rest =>
    let all := rest.foldl either { child with best := none, trailing := none }
    let leading := (all.leading.map fun k => k.clip e k.bytes.length).filter fun k =>
      !k.bytes.isEmpty
    { all with leading, best := leading, trailing := leading.filter (·.reachesEnd) }

/-- 一文字の手がかり。 -/
def ofChar (e : Encoding) (first : ByteSet) : Facts :=
  { length := ⟨1, some e.maxWidth⟩, first := some first }

/-- 検査の手がかり。`^` と `$` は、行ごとでなければ本文の両端を決める。 -/
def ofAnchor (perLine : Bool) : Anchor → Facts
  | .beginBuf => { left := { beginBuf := true } }
  | .beginPosition => { left := { beginPosition := true } }
  | .beginLine => if perLine then {} else { left := { beginBuf := true } }
  | .endBuf => { right := { endBuf := true } }
  | .endLine => if perLine then {} else { right := { endBuf := true } }
  | .semiEndBuf => { right := { semiEndBuf := true } }
  | _ => {}

/-- 任意の文字の繰り返しが始まりについて教えること。 -/
def anyStarEdges (options : Options) (l : Loop) (isAny : Bool) : Edges :=
  if l.greedy && l.isInfinite && isAny then
    if options.contains .multiline then { anyStarNewline := true } else { anyStar := true }
  else {}

/-- 繰り返しの手がかり。必ず一回は回るときだけ、本体の文字列が役に立つ。 -/
def loop (options : Options) (l : Loop) (isAny : Bool) (body : Facts) : Facts :=
  let left := anyStarEdges options l isAny
  if l.lower = 1 ∧ l.upper = some 1 then { body with left := left.union body.left }
  else if 1 ≤ l.lower ∧ l.upper ≠ some 0 then
    { length := body.length.times l.lower l.upper
      left := left.union body.left
      right := body.right
      leading := body.leading.map fun k => { k with reachesEnd := false }
      best := body.best
      first := body.first }
  else { length := body.length.times l.lower l.upper, left }

mutual
/-- 節の手がかり。先読みと後読みは何も教えない。 -/
def ofNode (e : Encoding) (fold : Option FoldTable) (options : Options) : Node → Facts
  | .empty => {}
  | .list nodes => seq e (ofNodes e fold options nodes)
  | .alt nodes => alt e (ofNodes e fold options nodes)
  | .str bytes => ofLiteral e fold (options.contains .ignoreCase) bytes
  | .raw bytes => ofLiteral e fold false bytes
  | .cclass c => ofChar e (c.leadBytes e)
  | .word isWord => ofChar e (.ofPred fun b => e.isWordLead b == isWord)
  | .any => ofChar e (.ofPred fun b => options.contains .multiline || b != 0x0a)
  | .anchor a => ofAnchor options.perLine a
  | .backref _ => { length := ⟨0, none⟩ }
  | .scoped inner body => ofNode e fold inner body
  | .group (.capture ..) body => ofNode e fold options body
  | .group .atomic body => ofNode e fold options body
  | .group .. => {}
  | .loop l .any => loop options l true (ofChar e (.ofPred fun b => options.contains .multiline || b != 0x0a))
  | .loop l body => loop options l false (ofNode e fold options body)

def ofNodes (e : Encoding) (fold : Option FoldTable) (options : Options) : List Node → List Facts
  | [] => []
  | n :: ns => ofNode e fold options n :: ofNodes e fold options ns
end

end Facts

end MultibyteRegex

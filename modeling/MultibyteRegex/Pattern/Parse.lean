import MultibyteRegex.Pattern.Atom

/-! パターンの構文解析。開いている括弧ごとに読みかけの段を積み、一歩ごとに入力を必ず縮める。 -/
namespace MultibyteRegex

namespace Node

/-- 隣り合う同じ種類の文字列をつなぐ。 -/
def joinLiterals : List Node → List Node
  | .str a :: .str b :: ns => joinLiterals (.str (a ++ b) :: ns)
  | .raw a :: .raw b :: ns => joinLiterals (.raw (a ++ b) :: ns)
  | n :: ns => n :: joinLiterals ns
  | [] => []
termination_by ns => ns.length

/-- 並びの中の並びを、一段だけ開く。 -/
def spliceLists (ns : List Node) : List Node :=
  ns.flatMap fun n => match n with
    | .list inner => inner
    | n => [n]

end Node

namespace Pattern

/-- 括弧の開き方。閉じたときの節を決める。 -/
inductive Opening
  | plain
  | group (kind : GroupKind)
  /-- 括弧の中だけの旗。 -/
  | scoped
  /-- 外側の括弧の終わりまで続く旗。 -/
  | tail
  deriving DecidableEq

/-- 一つの括弧の読みかけ。枝も要素も新しいものが先に来る。 -/
structure Level where
  options : Options
  branches : List Node := []
  items : List Node := []

namespace Level

def push (l : Level) (n : Node) : Level := { l with items := n :: l.items }

/-- 読みかけの枝。 -/
def branch (l : Level) : Node := .seq (Node.joinLiterals (Node.spliceLists l.items.reverse))

def nextBranch (l : Level) : Level := { l with branches := l.branch :: l.branches, items := [] }

/-- すべての枝の選択。 -/
def node (l : Level) : Node := .choice (l.branch :: l.branches).reverse

def close (l : Level) : Opening → Node
  | .plain => l.node
  | .group kind => .group kind l.node
  | .scoped => .scoped l.options l.node
  | .tail => .scoped l.options l.node

end Level

/-- 読み取りの途中の状態。`outer` は、開き方とその外側の段を内から順に並べる。 -/
structure Reading where
  rest : Input
  level : Level
  outer : List (Opening × Level) := []
  /-- そこまでに開いた捕獲の数。 -/
  groups : Nat := 0
  /-- 名指された番号を小さい順に並べる。 -/
  backrefs : List Nat := []
  warnings : List Warning := []

/-- 読み取りの結果。 -/
structure Parsed where
  root : Node
  groups : Nat
  backrefs : List Nat
  warnings : List Warning

def insertSorted (n : Nat) : List Nat → List Nat
  | [] => [n]
  | m :: ms => if n < m then n :: m :: ms else if n = m then m :: ms else m :: insertSorted n ms

/-- 外側の終わりまで続く旗の段を、外側の要素として閉じる。 -/
def closeTails (l : Level) : List (Opening × Level) → Level × List (Opening × Level)
  | (.tail, parent) :: outer => closeTails (parent.push (l.close .tail)) outer
  | outer => (l, outer)

namespace Reading

def extended (r : Reading) : Bool := r.level.options.contains .extend

def push (r : Reading) (n : Node) (rest : Input) : Reading :=
  { r with rest, level := r.level.push n }

/-- 読み終えた要素に、続く繰り返しの演算子を付けて加える。演算子は二つ続けられない。 -/
def attach (r : Reading) (node : Node) (input : Input) : Except ParseError Reading :=
  match skipTrivia r.extended input with
  | .error err => .error err
  | .ok input =>
    match repetition input with
    | .error err => .error err
    | .ok none => .ok (r.push node input)
    | .ok (some ((lower, upper), input)) =>
      let lazy := startsWith "?" input
      let input := if lazy then input.tail else input
      if !node.isRepeatable then .error .repeatTargetInvalid
      else match skipTrivia r.extended input with
        | .error err => .error err
        | .ok input =>
          match repetition input with
          | .error err => .error err
          | .ok (some _) => .error .nestedRepeat
          | .ok none => .ok (r.push (node.iterate { lower, upper, greedy := !lazy }) input)

/-- 括弧を開く。 -/
def enter (r : Reading) (opening : Opening) (options : Options) (rest : Input) : Reading :=
  { r with rest, level := { options }, outer := (opening, r.level) :: r.outer }

/-- 括弧を閉じ、その節を要素として加える。 -/
def leave (r : Reading) (rest : Input) : Except ParseError Reading :=
  match closeTails r.level r.outer with
  | (_, []) => .error .unmatchedClose
  | (level, (opening, parent) :: outer) =>
    attach { r with level := parent, outer } (level.close opening) rest

end Reading

/-- `(?` の後の旗の並び。`-` の後は旗を下ろす。 -/
def optionLetters (options : Options) (negative : Bool) :
    Input → Except ParseError (Options × Opening × Input)
  | [] => .error .endInGroup
  | b :: rest =>
    match latin1 b with
    | '-' => optionLetters options true rest
    | 'i' => optionLetters (options.set .ignoreCase !negative) negative rest
    | 'm' => optionLetters (options.set .multiline !negative) negative rest
    | 'x' => optionLetters (options.set .extend !negative) negative rest
    | ')' => .ok (options, .tail, rest)
    | ':' => .ok (options, .scoped, rest)
    | _ => .error .undefinedGroup

/-- `(?` の後の開き方。 -/
def groupOpening (options : Options) (input : Input) :
    Except ParseError (Options × Opening × Input) :=
  match input with
  | [] => .error .endInGroup
  | b :: rest =>
    match latin1 b with
    | ':' => .ok (options, .plain, rest)
    | '=' => .ok (options, .group .ahead, rest)
    | '!' => .ok (options, .group .notAhead, rest)
    | '>' => .ok (options, .group .atomic, rest)
    | '<' =>
      match rest with
      | [] => .error .endInGroup
      | c :: rest =>
        if latin1 c = '=' then .ok (options, .group .behind, rest)
        else if latin1 c = '!' then .ok (options, .group .notBehind, rest)
        else .error .undefinedGroup
    | 'i' => optionLetters options false input
    | 'm' => optionLetters options false input
    | 'x' => optionLetters options false input
    | '-' => optionLetters options false input
    | _ => .error .undefinedGroup

namespace Reading

/-- `(` の後。 -/
def openGroup (r : Reading) (input : Input) : Except ParseError Reading :=
  if startsWith "?" input then
    match groupOpening r.level.options input.tail with
    | .ok (options, opening, rest) => .ok (r.enter opening options rest)
    | .error err => .error err
  else
    let n := r.groups + 1
    .ok { r.enter (.group (.capture n false)) r.level.options input with groups := n }

/-- 括弧でない要素を読む。 -/
def readAtom (e : Encoding) (r : Reading) (b : UInt8) (rest : Input) : Except ParseError Reading :=
  match atom e r.groups b rest with
  | .error err => .error err
  | .ok (node, ws, rest) =>
    let backrefs := match node with
      | .backref n => insertSorted n r.backrefs
      | _ => r.backrefs
    attach { r with backrefs, warnings := r.warnings ++ ws } node rest

/-- 空白と注釈の後の `b` から一歩進む。 -/
def advance (e : Encoding) (r : Reading) (b : UInt8) (rest : Input) : Except ParseError Reading :=
  if latin1 b = '|' then .ok { r with rest, level := r.level.nextBranch }
  else if latin1 b = ')' then r.leave rest
  else match repetition (b :: rest) with
    | .error err => .error err
    | .ok (some _) => .error .repeatTargetMissing
    | .ok none => if latin1 b = '(' then r.openGroup rest else r.readAtom e b rest

/-- 入力の終わり。旗の段だけは開いたままでよい。 -/
def finish (r : Reading) : Except ParseError Parsed :=
  match closeTails r.level r.outer with
  | (level, []) =>
    .ok { root := level.node, groups := r.groups, backrefs := r.backrefs, warnings := r.warnings }
  | _ => .error .unclosedGroup

theorem attach_suffix {r r' : Reading} {node : Node} {input : Input}
    (h : r.attach node input = .ok r') : r'.rest <:+ input := by
  unfold attach at h
  split at h
  · cases h
  · rename_i a ha
    have ha := skipTrivia_suffix ha
    split at h
    · cases h
    · cases h
      exact ha
    · rename_i lower upper b hb
      have hb := (repetition_suffix hb).trans ha
      dsimp only at h
      have hq : (if startsWith "?" b then b.tail else b) <:+ input := by
        split
        · exact (List.tail_suffix _).trans hb
        · exact hb
      generalize (if startsWith "?" b then b.tail else b) = c at h hq
      split at h
      · cases h
      · split at h
        · cases h
        · rename_i d hd
          split at h
          · cases h
          · cases h
          · cases h
            exact (skipTrivia_suffix hd).trans hq

theorem leave_suffix {r r' : Reading} {input : Input} (h : r.leave input = .ok r') :
    r'.rest <:+ input := by
  unfold leave at h
  split at h
  · cases h
  · exact attach_suffix h

end Reading

theorem optionLetters_suffix {options options' : Options} {negative : Bool} {input rest : Input}
    {opening : Opening} (h : optionLetters options negative input = .ok (options', opening, rest)) :
    rest <:+ input := by
  fun_induction optionLetters options negative input with
  | case1 => cases h
  | case2 _ _ _ _ _ ih => exact (ih h).trans (List.suffix_cons ..)
  | case3 _ _ _ _ _ ih => exact (ih h).trans (List.suffix_cons ..)
  | case4 _ _ _ _ _ ih => exact (ih h).trans (List.suffix_cons ..)
  | case5 _ _ _ _ _ ih => exact (ih h).trans (List.suffix_cons ..)
  | case6 => cases h; exact List.suffix_cons ..
  | case7 => cases h; exact List.suffix_cons ..
  | case8 => cases h

theorem groupOpening_suffix {options options' : Options} {input rest : Input} {opening : Opening}
    (h : groupOpening options input = .ok (options', opening, rest)) : rest <:+ input := by
  unfold groupOpening at h
  split at h
  · cases h
  · rename_i b tail
    split at h
    · cases h; exact List.suffix_cons ..
    · cases h; exact List.suffix_cons ..
    · cases h; exact List.suffix_cons ..
    · cases h; exact List.suffix_cons ..
    · split at h
      · cases h
      · rename_i c tail
        have hs : tail <:+ b :: c :: tail := ⟨[b, c], rfl⟩
        split at h
        · cases h; exact hs
        · split at h
          · cases h; exact hs
          · cases h
    · exact optionLetters_suffix h
    · exact optionLetters_suffix h
    · exact optionLetters_suffix h
    · exact optionLetters_suffix h
    · cases h

namespace Reading

theorem openGroup_suffix {r r' : Reading} {input : Input} (h : r.openGroup input = .ok r') :
    r'.rest <:+ input := by
  unfold openGroup at h
  split at h
  · split at h
    · rename_i hg
      cases h
      exact (groupOpening_suffix hg).trans (List.tail_suffix _)
    · cases h
  · cases h
    exact List.suffix_refl _

theorem readAtom_suffix {e : Encoding} {r r' : Reading} {b : UInt8} {rest : Input}
    (h : r.readAtom e b rest = .ok r') : r'.rest <:+ rest := by
  unfold readAtom at h
  split at h
  · cases h
  · rename_i ha
    exact (attach_suffix h).trans (atom_suffix ha)

/-- 一歩ごとに、頭の一バイトは必ず消える。 -/
theorem advance_suffix {e : Encoding} {r r' : Reading} {b : UInt8} {rest : Input}
    (h : r.advance e b rest = .ok r') : r'.rest <:+ rest := by
  unfold advance at h
  split at h
  · cases h
    exact List.suffix_refl _
  · split at h
    · exact leave_suffix h
    · split at h
      · cases h
      · cases h
      · split at h
        · exact openGroup_suffix h
        · exact readAtom_suffix h

end Reading

/-- 入力の終わりまで進む。 -/
def readAll (e : Encoding) (r : Reading) : Except ParseError Parsed :=
  match _hs : skipTrivia r.extended r.rest with
  | .error err => .error err
  | .ok [] => r.finish
  | .ok (b :: rest) =>
    match _ha : r.advance e b rest with
    | .error err => .error err
    | .ok r' => readAll e r'
termination_by r.rest.length
decreasing_by
  have h₁ := (skipTrivia_suffix _hs).length_le
  have h₂ := (Reading.advance_suffix _ha).length_le
  simp only [List.length_cons] at h₁
  omega

/-- パターンを木に直す。名指された番号の捕獲がなければ、そのうち最大のものを誤りとする。 -/
def parse (e : Encoding) (options : Options) (pattern : Input) : Except ParseError Parsed :=
  match readAll e { rest := pattern, level := { options } } with
  | .error err => .error err
  | .ok parsed =>
    match parsed.backrefs.getLast? with
    | some n => if parsed.groups < n then .error (.invalidBackref n) else .ok parsed
    | none => .ok parsed

end Pattern
end MultibyteRegex

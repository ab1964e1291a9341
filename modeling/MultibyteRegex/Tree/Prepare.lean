import MultibyteRegex.Tree.Length

/-! 命令に直す前の木の書き換え。空の繰り返しに備え、先頭バイトの手がかりを書き、後読みを確かめて分ける。 -/
namespace MultibyteRegex

/-- 書き換えのあいだ変わらないもの。 -/
structure PrepareEnv where
  encoding : Encoding
  fold : Option FoldTable
  /-- 後方参照が名指す番号。 -/
  backrefs : List Nat

/-- まとめて一つの文字列に直す、回数の決まった繰り返しの長さの上限。 -/
def maxUnrolledLiteral : Nat := 100

namespace Node

mutual
/-- 後読みの本体に置けるか。否定の後読みの中では捕獲できない。 -/
def isAllowedBehind (negative : Bool) : Node → Bool
  | .list nodes => allAllowedBehind negative nodes
  | .alt nodes => allAllowedBehind negative nodes
  | .loop _ body => body.isAllowedBehind negative
  | .scoped _ body => body.isAllowedBehind negative
  | .anchor a => a = .beginLine || a = .endLine || a = .beginBuf || a = .beginPosition
  | .group (.capture ..) body => !negative && body.isAllowedBehind negative
  | .group .behind _ => true
  | .group .notBehind _ => negative
  | .group .. => false
  | .backref _ => false
  | _ => true

def allAllowedBehind (negative : Bool) : List Node → Bool
  | [] => true
  | n :: ns => n.isAllowedBehind negative && allAllowedBehind negative ns
end

/-- 上限のない欲張りな繰り返しに、次の要素の先頭バイトを書く。 -/
def linkHeads (options : Options) : List Node → List Node
  | .loop l body :: n :: ns =>
    let next := if l.greedy && l.isInfinite then n.headByte options else l.next
    .loop { l with next } body :: linkHeads options (n :: ns)
  | n :: ns => n :: linkHeads options ns
  | [] => []

/-- 本体が空に合うときの備え。高々一回の繰り返しには要らない。 -/
def emptyBodyOf (upper : Option Nat) (body : Node) : EmptyBody :=
  if upper.all (1 < ·) && body.minLength == 0 then
    if body.hasCapture then .possibleWithCaptures else .possible
  else .never

/-- 書き換えた本体に繰り返しを付け直す。短い文字列の決まった回数の繰り返しは一つの文字列にする。 -/
def rebuildLoop (options : Options) (l : Loop) (body : Node) : Node :=
  let head := if l.greedy && l.isInfinite then body.headByte options else l.head
  let node := .loop { l with emptyBody := emptyBodyOf l.upper body, head } body
  if l.isFixed && 1 < l.lower then
    match body with
    | .str bytes =>
      if bytes.length * l.lower ≤ maxUnrolledLiteral then
        .str (List.replicate l.lower bytes).flatten
      else node
    | .raw bytes =>
      if bytes.length * l.lower ≤ maxUnrolledLiteral then
        .raw (List.replicate l.lower bytes).flatten
      else node
    | _ => node
  else node

mutual
/-- `undo` は、合わずに捨てられうる場所にあることを表す。そこの捕獲は取り消せなければならない。 -/
def prepareAt (env : PrepareEnv) (options : Options) (undo : Bool) : Node → Except CompileError Node
  | .list nodes => do
    let nodes ← prepareAll env options undo nodes
    return .list (linkHeads options nodes)
  | .alt nodes => do
    let nodes ← prepareAll env options true nodes
    return .alt nodes
  | .cclass c =>
    if options.contains .ignoreCase then
      match env.fold with
      | some table => return .cclass (c.closeFold table)
      | none => throw .foldTableMissing
    else return .cclass c
  | .scoped inner body =>
    if inner.contains .ignoreCase && env.fold.isNone then throw .foldTableMissing
    else do
      let body ← body.prepareAt env inner undo
      return .scoped inner body
  | .loop l body => do
    let body ← body.prepareAt env options (undo || !l.isFixed)
    return rebuildLoop options l body
  | .group (.capture n _) body => do
    let body ← body.prepareAt env options undo
    return .group (.capture n (undo || env.backrefs.contains n)) body
  | .group .ahead body => do
    let body ← body.prepareAt env options undo
    return .group .ahead body
  | .group .atomic body => do
    let body ← body.prepareAt env options undo
    return .group .atomic body
  | .group .notAhead body => do
    let body ← body.prepareAt env options true
    return .group .notAhead body
  | .group .behind body =>
    if !body.isAllowedBehind false then throw .invalidLookBehind
    else match body.charCount env.encoding, body with
      | .fixed _, body => do
        let body ← body.prepareAt env options undo
        return .group .behind body
      | .topAlternatives, .alt branches => do
        let branches ← prepareAll env options true branches
        return .alt (branches.map (.group .behind))
      | _, _ => throw .invalidLookBehind
  | .group .notBehind body =>
    if !body.isAllowedBehind true then throw .invalidLookBehind
    else match body.charCount env.encoding, body with
      | .fixed _, body => do
        let body ← body.prepareAt env options true
        return .group .notBehind body
      | .topAlternatives, .alt branches => do
        let branches ← prepareAll env options true branches
        return .list (branches.map (.group .notBehind))
      | _, _ => throw .invalidLookBehind
  | node => return node

def prepareAll (env : PrepareEnv) (options : Options) (undo : Bool) :
    List Node → Except CompileError (List Node)
  | [] => return []
  | n :: ns => do
    let n ← n.prepareAt env options undo
    let ns ← prepareAll env options undo ns
    return n :: ns
end

/-- 木の全体を書き換える。 -/
def prepare (env : PrepareEnv) (options : Options) (node : Node) : Except CompileError Node :=
  if options.contains .ignoreCase && env.fold.isNone then throw .foldTableMissing
  else node.prepareAt env options false

end Node
end MultibyteRegex

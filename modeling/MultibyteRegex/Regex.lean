import MultibyteRegex.Pattern.Parse
import MultibyteRegex.Search.Trial
import MultibyteRegex.Region

/-! 正規表現。パターンを翻訳し、候補の位置で順に照合を試す。 -/
namespace MultibyteRegex

/-- 翻訳したパターン。 -/
structure Regex where
  program : Program
  plan : Plan

/-- 翻訳する前のパターン。 -/
structure Source where
  pattern : List UInt8
  options : Options := .none
  encoding : Encoding := .utf8
  /-- 大文字と小文字を区別しないときに使う。 -/
  fold : Option FoldTable := some .ascii

namespace Regex

/-- パターンを翻訳する。読み取りの誤りは翻訳の誤りより先に見つかる。 -/
def compile (s : Source) : Except RegexError Regex := do
  let parsed ← (Pattern.parse s.encoding s.options s.pattern).mapError .parse
  let root ← (parsed.root.prepare ⟨s.encoding, s.fold, parsed.backrefs⟩ s.options).mapError .compile
  let env : CodeEnv := { encoding := s.encoding, fold := s.fold }
  let program ← (env.compile s.options parsed.groups root).mapError .compile
  let hints := Hints.ofTree s.encoding s.fold s.options root
  return { program, plan := .ofHints s.encoding hints }

/-- 捕獲の数。照合の全体は数えない。 -/
def groupCount (r : Regex) : Nat := r.program.groups

def matcher (r : Regex) (limits : Limits) (options : Options) (text : Text) (searchStart : Nat) :
    Matcher :=
  { program := r.program, text, searchStart, options := r.program.options.union options, limits }

/-- `start` から `range` までに始まる照合を探す。`range` が手前なら後ろへ向かって探す。 -/
def search (r : Regex) (limits : Limits) (fuel : Nat) (options : Options) (text : Text)
    (start range : Nat) : Fueled (Option Found) :=
  if text.size < start ∨ text.size < range then some (.error .invalidArgument)
  else
    let m := r.matcher limits options text start
    let quarry : Quarry := ⟨r.plan, r.program.encoding, r.program.fold, text⟩
    let candidates := quarry.candidates start range
    if m.options.contains .findLongest then m.longest fuel none candidates
    else m.first fuel candidates

/-- `pos` から始まる照合。 -/
def matchAt (r : Regex) (limits : Limits) (fuel : Nat) (text : Text) (pos : Nat) :
    Fueled Verdict :=
  (r.matcher limits .none text pos).matchAt fuel pos

/-- 本文の全体で最初に見つかる照合の範囲。 -/
def find (r : Regex) (limits : Limits) (fuel : Nat) (text : Text) :
    Fueled (Option (Nat × Nat)) :=
  (r.search limits fuel .none text 0 text.size).map fun result =>
    result.map fun found => found.bind fun f => (Region.ofCaptures f.caps).group 0

def isMatch (r : Regex) (limits : Limits) (fuel : Nat) (text : Text) : Fueled Bool :=
  (r.find limits fuel text).map fun result => result.map Option.isSome

/-- 命令の番号。少なくとも 4 桁に零を詰める。 -/
def lineNumber (n : Nat) : String :=
  let digits := (toString n).toList
  String.ofList (List.replicate (4 - digits.length) '0' ++ digits)

/-- 命令を一行に一つずつ並べる。 -/
def listing (r : Regex) : String :=
  String.join ((r.program.code.toList.zipIdx).map fun (i, n) =>
    lineNumber n ++ ": " ++ i.display ++ "\n")

end Regex
end MultibyteRegex

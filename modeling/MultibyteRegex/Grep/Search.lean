import MultibyteRegex.Grep.Arguments
import MultibyteRegex.Text.Repair
import MultibyteRegex.Regex

/-! 行ごとの検索。ファイルの中身を受け取り、書き出すバイト列を答える。 -/
namespace MultibyteRegex
namespace Grep

/-- ファイルを開いて得るもの。 -/
inductive Contents
  | bytes (text : Text)
  /-- 開けない。 -/
  | unopened (reason : String)
  /-- 開けるが読めない。 -/
  | unreadable (reason : String)

namespace Contents

def missing : Contents := .unopened "No such file or directory (os error 2)"

def notDirectory : Contents := .unopened "Not a directory (os error 20)"

def denied : Contents := .unopened "Permission denied (os error 13)"

def directory : Contents := .unreadable "Is a directory (os error 21)"

end Contents

/-- 検索を始められない原因。 -/
inductive CommandError
  | noPattern
  | filenameConflict
  | invalidPattern (pattern : String) (cause : RegexError)
  deriving DecidableEq

def CommandError.message : CommandError → String
  | .noPattern => "CommandLineError : no pattern specified."
  | .filenameConflict => "CommandLineError : -h, -H options are specified at the same time."
  | .invalidPattern pattern cause =>
    "CommandLineError : invalid pattern '" ++ pattern ++ "': " ++ cause.message

/-- 標準出力と標準エラー出力に書くもの。照合が打ち切られれば、コマンドもそこで終わる。 -/
structure Report where
  out : Text := #[]
  err : Text := #[]
  aborted : Bool := false
  deriving DecidableEq

/-- 文字列の UTF-8 のバイト列。 -/
def utf8 (s : String) : Text := s.toUTF8.data

namespace Report

def print (r : Report) (bytes : Text) : Report := { r with out := r.out ++ bytes.push 0x0a }

def complain (r : Report) (bytes : Text) : Report := { r with err := r.err ++ bytes.push 0x0a }

end Report

/-- 改行で区切った行。最後の改行の後に空の行はない。 -/
def lines (text : Text) : List (List UInt8) :=
  text.foldr (fun b ls =>
    if b = 0x0a then [] :: ls
    else match ls with
      | [] => [[b]]
      | l :: ls => (b :: l) :: ls) []

/-- 検索のあいだ変わらないもの。 -/
structure Job where
  regexes : List Regex
  invert : Bool
  /-- 行を書かずに数だけを数える。 -/
  countOnly : Bool
  showsFilename : Bool
  showsLineNumber : Bool

namespace Job

/-- パターンを順に翻訳する。最初の誤りで止まる。 -/
def compileAll (a : Arguments) : List String → Except CommandError (List Regex)
  | [] => .ok []
  | p :: ps =>
    let source : Source := {
      pattern := (utf8 p).toList
      options := a.options
      encoding := a.encoding.getD .utf8 }
    match Regex.compile source with
    | .error e => .error (.invalidPattern p e)
    | .ok regex => do return regex :: (← compileAll a ps)

/-- どれかのパターンに合うか。初めて合ったところで止まる。 -/
def matchesAny (fuel : Nat) (text : Text) : List Regex → Fueled Bool
  | [] => some (.ok false)
  | r :: rs =>
    match r.isMatch .unlimited fuel text with
    | some (.ok false) => matchesAny fuel text rs
    | result => result

/-- 行の前に付ける名前と番号。 -/
def heading (j : Job) (name : String) (number : Nat) : String :=
  (if j.showsFilename then name ++ ":" else "") ++
    (if j.showsLineNumber then toString number ++ ":" else "")

/-- 照合の失敗の知らせ。行は表示できる形に直す。 -/
def failure (line : List UInt8) (e : EvalError) : Text :=
  utf8 "Following error is occured in matching, line = '" ++ (repairUtf8 line).toArray ++
    utf8 ("'\n" ++ e.message)

/-- 行を順に検索し、当たった行を数える。失敗すれば、その先も数もなかったことにする。 -/
def searchLines (j : Job) (fuel : Nat) (name : String) (r : Report) (count number : Nat) :
    List (List UInt8) → Option (Report × Nat)
  | [] => some (r, count)
  | line :: rest =>
    match matchesAny fuel line.toArray j.regexes with
    | none => none
    | some (.error e) => some (r.complain (failure line e), 0)
    | some .aborted => some ({ r with aborted := true }, 0)
    | some (.ok hit) =>
      if hit != j.invert then
        let r := if j.countOnly then r else r.print (utf8 (j.heading name number) ++ line.toArray)
        j.searchLines fuel name r (count + 1) (number + 1) rest
      else j.searchLines fuel name r count (number + 1) rest

/-- 名前のついた中身を検索する。 -/
def searchContents (j : Job) (fuel : Nat) (name : String) (r : Report) :
    Contents → Option (Report × Nat)
  | .bytes text => j.searchLines fuel name r 0 1 (lines text)
  | .unopened reason => some (r.complain (utf8 (name ++ ": " ++ reason)), 0)
  | .unreadable reason => some (r.complain (utf8 reason), 0)

/-- 中身を順に検索し、当たった行の数を合わせる。 -/
def searchAll (j : Job) (fuel : Nat) (r : Report) (count : Nat) :
    List (String × Contents) → Option (Report × Nat)
  | [] => some (r, count)
  | (name, contents) :: rest =>
    match j.searchContents fuel name r contents with
    | none => none
    | some (r, n) => if r.aborted then some (r, count) else j.searchAll fuel r (count + n) rest

end Job

/-- 標準入力の名前。 -/
def stdinName : String := "(standard input)"

/-- 検索する名前と、その中身。ファイルがなければ標準入力を検索する。 -/
def inputs (stdin : Contents) (open_ : String → Contents) : List String → List (String × Contents)
  | [] => [(stdinName, stdin)]
  | files => files.map fun f => (f, open_ f)

/-- 検索の支度。 -/
def prepare (a : Arguments) : Except CommandError (Job × List String) := do
  if a.has .withFilename && a.has .noFilename then throw .filenameConflict
  match a.patternsAndFiles? with
  | none => throw .noPattern
  | some (patterns, files) =>
    let regexes ← Job.compileAll a patterns
    let job : Job := {
      regexes
      invert := a.has .invertMatch
      countOnly := a.has .count
      showsFilename := a.showsFilename files
      showsLineNumber := a.has .lineNumber }
    return (job, files)

/-- 版を尋ねられたときの答え。 -/
def versionText : String := "bregex-cli 0.1.0"

/-- 使い方を尋ねられたときの答え。 -/
def helpText : String := "Usage: bregex [OPTIONS] [PATTERN] [FILE]..."

/-- 引数に従って検索する。使い方を間違えていれば、書くものがない。 -/
def run (fuel : Nat) (stdin : Contents) (open_ : String → Contents) (args : List String) :
    Option (Except Halt Report) :=
  match Arguments.read {} none args with
  | .error .usage => some (.error .usage)
  | .error .help => some (.ok (({} : Report).print (utf8 helpText)))
  | .error .version => some (.ok (({} : Report).print (utf8 versionText)))
  | .ok a =>
    match prepare a with
    | .error e => some (.ok (({} : Report).complain (utf8 e.message)))
    | .ok (job, files) =>
      (job.searchAll fuel {} 0 (inputs stdin open_ files)).map fun (r, count) =>
        .ok (if job.countOnly && !r.aborted then r.print (utf8 (toString count)) else r)

end Grep
end MultibyteRegex

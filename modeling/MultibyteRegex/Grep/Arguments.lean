import MultibyteRegex.Options
import MultibyteRegex.Text.Encoding

/-! コマンド行の引数。旗と、値を取る指定と、位置で意味の決まる引数を読み分ける。 -/
namespace MultibyteRegex
namespace Grep

/-- 立てるか立てないかだけの指定。同じものを二度は立てられない。 -/
inductive Flag
  | count
  | ignoreCase
  | invertMatch
  | noFilename
  | withFilename
  | lineNumber
  | extended
  | multiline
  deriving DecidableEq

/-- 値を取る指定。 -/
inductive Valued
  | pattern
  | encoding
  deriving DecidableEq

/-- 指定の名前が表すもの。 -/
inductive Choice
  | flag (f : Flag)
  | valued (v : Valued)
  | help
  | version
  deriving DecidableEq

/-- 一文字の名前。 -/
def Choice.short? : Char → Option Choice
  | 'e' => some (.valued .pattern)
  | 'c' => some (.flag .count)
  | 'i' => some (.flag .ignoreCase)
  | 'v' => some (.flag .invertMatch)
  | 'h' => some (.flag .noFilename)
  | 'H' => some (.flag .withFilename)
  | 'n' => some (.flag .lineNumber)
  | 'x' => some (.flag .extended)
  | 'm' => some (.flag .multiline)
  | 'V' => some .version
  | _ => none

/-- 綴りの長い名前。 -/
def Choice.long? : String → Option Choice
  | "regexp" => some (.valued .pattern)
  | "count" => some (.flag .count)
  | "ignore-case" => some (.flag .ignoreCase)
  | "invert-match" => some (.flag .invertMatch)
  | "no-filename" => some (.flag .noFilename)
  | "with-filename" => some (.flag .withFilename)
  | "line-number" => some (.flag .lineNumber)
  | "extended" => some (.flag .extended)
  | "multiline" => some (.flag .multiline)
  | "encoding" => some (.valued .encoding)
  | "help" => some .help
  | "version" => some .version
  | _ => none

def encodingNamed? : String → Option Encoding
  | "ascii" => some .ascii
  | "euc-jp" => some .eucJp
  | "sjis" => some .sjis
  | "utf8" => some .utf8
  | _ => none

/-- 読み取った引数。 -/
structure Arguments where
  flags : List Flag := []
  /-- `-e` で与えたパターン。 -/
  patterns : List String := []
  encoding : Option Encoding := none
  /-- 位置で意味の決まる引数。 -/
  positionals : List String := []
  deriving DecidableEq

/-- 引数を読み終えずに止まる理由。 -/
inductive Halt
  /-- 使い方を間違えている。 -/
  | usage
  | help
  | version
  deriving DecidableEq

namespace Arguments

def has (a : Arguments) (f : Flag) : Bool := f ∈ a.flags

def raise (a : Arguments) (f : Flag) : Except Halt Arguments :=
  if a.has f then .error .usage else .ok { a with flags := f :: a.flags }

/-- 値を与える。文字符号化は一度しか与えられない。 -/
def give (a : Arguments) (value : String) : Valued → Except Halt Arguments
  | .pattern => .ok { a with patterns := a.patterns ++ [value] }
  | .encoding =>
    match encodingNamed? value, a.encoding with
    | some e, none => .ok { a with encoding := some e }
    | _, _ => .error .usage

/-- 一文字の名前の並び。値を取る名前の後は、残りの全体が値になる。残りがなければ次の引数を待つ。 -/
def readShort (a : Arguments) : List Char → Except Halt (Arguments × Option Valued)
  | [] => .ok (a, none)
  | c :: rest =>
    match Choice.short? c with
    | none => .error .usage
    | some .help => .error .help
    | some .version => .error .version
    | some (.flag f) => do (← a.raise f).readShort rest
    | some (.valued v) =>
      match rest with
      | [] => .ok (a, some v)
      | '=' :: value => do return (← a.give (String.ofList value) v, none)
      | value => do return (← a.give (String.ofList value) v, none)

/-- 綴りの長い名前。`=` の後は値である。 -/
def readLong (a : Arguments) (chars : List Char) : Except Halt (Arguments × Option Valued) :=
  let name := String.ofList (chars.takeWhile (· != '='))
  let value := match chars.dropWhile (· != '=') with
    | [] => none
    | _ :: value => some (String.ofList value)
  match Choice.long? name, value with
  | some .help, none => .error .help
  | some .version, none => .error .version
  | some (.flag f), none => do return (← a.raise f, none)
  | some (.valued v), none => .ok (a, some v)
  | some (.valued v), some value => do return (← a.give value v, none)
  | _, _ => .error .usage

/-- 指定として読む引数か。`-` だけなら指定ではない。 -/
def isOption (arg : String) : Bool :=
  match arg.toList with
  | '-' :: _ :: _ => true
  | _ => false

/-- 引数を一つ読む。 -/
def readOne (a : Arguments) (arg : String) : Except Halt (Arguments × Option Valued) :=
  match arg.toList with
  | '-' :: '-' :: name => a.readLong name
  | '-' :: c :: rest => a.readShort (c :: rest)
  | _ => .ok ({ a with positionals := a.positionals ++ [arg] }, none)

/-- 引数を順に読む。`--` の後はすべて位置で意味が決まる。 -/
def read (a : Arguments) (waiting : Option Valued) : List String → Except Halt Arguments
  | [] => if waiting.isSome then .error .usage else .ok a
  | arg :: rest =>
    match waiting with
    | some v =>
      if isOption arg then .error .usage
      else do (← a.give arg v).read none rest
    | none =>
      if arg = "--" then .ok { a with positionals := a.positionals ++ rest }
      else do
        let (a, waiting) ← a.readOne arg
        a.read waiting rest

/-- 翻訳の旗。 -/
def options (a : Arguments) : Options :=
  ((Options.none.set .ignoreCase (a.has .ignoreCase)).set .extend (a.has .extended)).set .multiline
    (a.has .multiline)

/-- パターンとファイルの名前。`-e` がなければ、位置の引数の最初のものがパターンになる。 -/
def patternsAndFiles? (a : Arguments) : Option (List String × List String) :=
  match a.patterns, a.positionals with
  | [], [] => none
  | [], p :: files => some ([p], files)
  | patterns, files => some (patterns, files)

/-- 行の前にファイルの名前を付けるか。ファイルが一つ以下なら、付けないのがふつうである。 -/
def showsFilename (a : Arguments) (files : List String) : Bool :=
  if files.length ≤ 1 then a.has .withFilename else !a.has .noFilename

end Arguments
end Grep
end MultibyteRegex

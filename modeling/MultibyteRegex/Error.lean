/-! 失敗の原因と、その一つずつに決まった文言。 -/
namespace MultibyteRegex

/-- パターンを読めない原因。 -/
inductive ParseError
  | endAtBackslash
  | endAtMeta
  | endAtControl
  | metaSyntax
  | controlSyntax
  | emptyClass
  | prematureEndOfClass
  | classValueAtRangeStart
  | classValueAtRangeEnd
  | mismatchedCodeLength
  | rightSmallerThanLeft
  | invalidPosixBracket
  | tooManyRanges
  | repeatTargetMissing
  | repeatTargetInvalid
  | nestedRepeat
  | repeatNumberTooBig
  | upperSmallerThanLower
  | unmatchedClose
  | unclosedGroup
  | endInGroup
  | undefinedGroup
  | numberTooBig
  | backrefTooBig
  | invalidBackref (n : Nat)
  | wideCharTooBig
  | wideCharTooLong
  | wideCharInvalid
  deriving DecidableEq

def ParseError.message : ParseError → String
  | .endAtBackslash => "end pattern at escape"
  | .endAtMeta => "end pattern at meta"
  | .endAtControl => "end pattern at control"
  | .metaSyntax => "invalid meta-code syntax"
  | .controlSyntax => "invalid control-code syntax"
  | .emptyClass => "empty char-class"
  | .prematureEndOfClass => "premature end of char-class"
  | .classValueAtRangeStart => "char-class value at start of range"
  | .classValueAtRangeEnd => "char-class value at end of range"
  | .mismatchedCodeLength => "mismatch multibyte code length in char-class range"
  | .rightSmallerThanLeft => "right side is smaller than left side in char-class range"
  | .invalidPosixBracket => "invalid POSIX bracket type"
  | .tooManyRanges => "too many multibyte code ranges are specified"
  | .repeatTargetMissing => "target of repeat operator is not specified"
  | .repeatTargetInvalid => "target of repeat operator is invalid"
  | .nestedRepeat => "nested repeat operator"
  | .repeatNumberTooBig => "too big number for repeat range"
  | .upperSmallerThanLower => "upper is smaller than lower in repeat range"
  | .unmatchedClose => "unmatched close parenthesis"
  | .unclosedGroup => "end pattern with unmatched parenthesis"
  | .endInGroup => "end pattern in group"
  | .undefinedGroup => "undefined group option"
  | .numberTooBig => "too big number"
  | .backrefTooBig => "too big backref number"
  | .invalidBackref n => "invalid backref number: " ++ toString n
  | .wideCharTooBig => "too big wide-char value"
  | .wideCharTooLong => "too long wide-char value"
  | .wideCharInvalid => "invalid wide-char value"

/-- 読めたパターンを命令の列にできない原因。 -/
inductive CompileError
  | addressOverflow
  | invalidLookBehind
  | foldTableMissing
  | unexpectedLength
  deriving DecidableEq

def CompileError.message : CompileError → String
  | .addressOverflow => "CompileError: PCOverFlow"
  | .invalidLookBehind => "CompileError: invalid pattern in look-behind"
  | .foldTableMissing => "CompileError: ignore-case requested without a case table"
  | .unexpectedLength => "CompileError: generated code length differs from the computed length"

/-- 照合が答えを出さずに止まる原因。 -/
inductive EvalError
  | stackBug
  | undefinedBytecode
  | unexpectedBytecode
  | stackLimitExceeded
  | retryLimitExceeded
  | invalidPC
  | invalidArgument
  deriving DecidableEq

def EvalError.message : EvalError → String
  | .stackBug => "EvalError: StackBug"
  | .undefinedBytecode => "EvalError: UndefinedBytecode"
  | .unexpectedBytecode => "EvalError: UnexpectedBytecode"
  | .stackLimitExceeded => "EvalError: StackLimitExceeded"
  | .retryLimitExceeded => "EvalError: RetryLimitExceeded"
  | .invalidPC => "EvalError: InvalidPC"
  | .invalidArgument => "EvalError: InvalidArgument"

/-- 照合の成り行き。 -/
inductive Result (α : Type)
  | ok (a : α)
  | error (e : EvalError)
  /-- 照合の終わりが始まりより前で長さを引き算できず、誤りを返す間もなく打ち切られる。 -/
  | aborted
  deriving DecidableEq

def Result.map {α β : Type} (f : α → β) : Result α → Result β
  | .ok a => .ok (f a)
  | .error e => .error e
  | .aborted => .aborted

def Result.toOption {α : Type} : Result α → Option α
  | .ok a => some a
  | _ => none

/-- 燃料が尽きなければ、成り行きに至る計算。 -/
abbrev Fueled (α : Type) := Option (Result α)

/-- パターンの読み取り、翻訳、照合のどれかの失敗。 -/
inductive RegexError
  | parse (e : ParseError)
  | compile (e : CompileError)
  | eval (e : EvalError)
  deriving DecidableEq

def RegexError.message : RegexError → String
  | .parse e => e.message
  | .compile e => e.message
  | .eval e => e.message

end MultibyteRegex

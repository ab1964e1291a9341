import MultibyteRegex.Code.Literal
import MultibyteRegex.Tree.Prepare

/-! 木を命令の列に直す。繰り返しの開き方は長さだけで決まり、長さの計算と命令の生成が同じ開き方を使う。 -/
namespace MultibyteRegex

/-- 命令の列と、それが使うもの。 -/
structure Program where
  code : Array Instruction
  encoding : Encoding
  options : Options
  fold : FoldTable
  /-- 捕獲の数。 -/
  groups : Nat
  /-- 数える繰り返しの下限と上限。 -/
  repeats : Array (Nat × Option Nat)
  nullChecks : Nat

/-- 生成のあいだ変わらないもの。 -/
structure CodeEnv where
  encoding : Encoding
  fold : Option FoldTable
  /-- 繰り返しを並べて開く命令数の上限。 -/
  expandLimit : Nat := 50

/-- 生成のあいだに配る番号。 -/
structure Counters where
  repeats : List (Nat × Option Nat) := []
  nullChecks : Nat := 0

/-- 繰り返しの開き方。 -/
inductive LoopShape
  /-- 命令を出さない。 -/
  | nothing
  /-- 本体を並べた後に、任意の文字の繰り返しを置く。 -/
  | anyStar
  /-- 本体を `copies` 個並べた後に輪を置く。`jumpIn` なら並べずに輪の本体へ飛び込む。 -/
  | ring (copies : Nat) (jumpIn : Bool)
  /-- 下限まで本体を並べ、残りを入れ子の省略可能な本体にする。 -/
  | unrolled (required extra : Nat)
  /-- 欲張りでない省略可能な本体。 -/
  | lazyOptional
  /-- 回数を数えながら回る。 -/
  | counted
  deriving DecidableEq

namespace LoopShape

def isAny : Node → Bool
  | .any => true
  | _ => false

/-- 本体の命令数 `size` に対する開き方。 -/
def of (limit : Nat) (l : Loop) (body : Node) (size : Nat) : LoopShape :=
  if size = 0 ∨ l.upper = some 0 then .nothing
  else if l.greedy && l.isInfinite && isAny body then .anyStar
  else match l.upper with
    | none =>
      if l.lower = 1 ∧ limit < size then .ring 0 true
      else if l.lower ≤ 1 ∨ size * l.lower ≤ limit then .ring l.lower false
      else .counted
    | some upper =>
      if l.greedy ∧ (upper = 1 ∨ (size + 1) * upper ≤ limit) then .unrolled l.lower (upper - l.lower)
      else if upper = 1 ∧ !l.greedy ∧ l.lower = 0 then .lazyOptional
      else .counted

end LoopShape

/-- 本体が空に合うときの検査の命令数。 -/
def EmptyBody.size : EmptyBody → Nat
  | .never => 0
  | _ => 2

/-- 繰り返しの全体の命令数。 -/
def LoopShape.total (l : Loop) (size : Nat) : LoopShape → Nat
  | .nothing => 0
  | .anyStar => l.lower + 1
  | .ring copies jumpIn => (if jumpIn then 1 else size * copies) + (size + l.emptyBody.size) + 2
  | .unrolled required extra => size * required + extra * (size + 1)
  | .lazyOptional => size + 2
  | .counted => size + l.emptyBody.size + 2

namespace CodeEnv

/-- 旗に従う写像。区別しないのに表がなければ誤りである。 -/
def foldFor (env : CodeEnv) (options : Options) : Except CompileError (Option FoldTable) :=
  if options.contains .ignoreCase then
    match env.fold with
    | some table => .ok (some table)
    | none => .error .foldTableMissing
  else .ok none

mutual
/-- 節が占める命令数。 -/
def size (env : CodeEnv) (options : Options) : Node → Except CompileError Nat
  | .empty => return 0
  | .list nodes => sizeList env options nodes
  | .alt nodes => sizeAlt env options nodes
  | .str bytes => do return (Literal.code env.encoding (← env.foldFor options) bytes).length
  | .raw bytes => return (Literal.code env.encoding none bytes).length
  | .scoped inner body => env.size inner body
  | .loop l body => do
    let size ← env.size options body
    return (LoopShape.of env.expandLimit l body size).total l size
  | .group .behind body => do return (← env.size options body) + 1
  | .group _ body => do return (← env.size options body) + 2
  | .cclass _ => return 1
  | .word _ => return 1
  | .any => return 1
  | .anchor _ => return 1
  | .backref _ => return 1

def sizeList (env : CodeEnv) (options : Options) : List Node → Except CompileError Nat
  | [] => return 0
  | n :: ns => do return (← env.size options n) + (← env.sizeList options ns)

/-- 最後の枝の他は、分岐と飛び越しの二つの命令を伴う。 -/
def sizeAlt (env : CodeEnv) (options : Options) : List Node → Except CompileError Nat
  | [] => return 0
  | [n] => env.size options n
  | n :: m :: ns => do return (← env.size options n) + 2 + (← env.sizeAlt options (m :: ns))
end

end CodeEnv

/-- 一つの命令で表す木の葉。 -/
def classInstruction (e : Encoding) (c : CharClass) : Instruction :=
  let ranges := if e.isSingleByte then [] else c.ranges
  if ranges.isEmpty then .inSet c.bytes c.negated
  else if c.bytes.isEmpty then .inRanges ranges c.negated
  else .inEither c.bytes ranges c.negated

def anchorInstruction (options : Options) : Anchor → Instruction
  | .beginBuf => .beginBuf
  | .endBuf => .endBuf
  | .semiEndBuf => .semiEndBuf
  | .beginPosition => .beginPosition
  | .beginLine => .beginLine options.perLine
  | .endLine => .endLine options.perLine
  | .wordBound => .wordBound true
  | .notWordBound => .wordBound false
  | .wordBegin => .wordBegin
  | .wordEnd => .wordEnd

/-- 相対位置は符号つき 32 ビットに収まらなければならない。 -/
def relative (n : Nat) : Except CompileError Int :=
  if n ≤ 0x7fffffff then .ok (Int.ofNat n) else .error .addressOverflow

/-- 番号を配りながら命令の列を作る計算。 -/
abbrev Emit := Counters → Except CompileError (List Instruction × Counters)

namespace Emit

def instr (i : Instruction) : Emit := fun c => .ok ([i], c)

def append (a b : Emit) : Emit := fun c =>
  match a c with
  | .error err => .error err
  | .ok (xs, c) =>
    match b c with
    | .error err => .error err
    | .ok (ys, c) => .ok (xs ++ ys, c)

/-- `n` 回くり返して生成する。番号は毎回新しく配る。 -/
def times (a : Emit) : Nat → Emit
  | 0 => fun c => .ok ([], c)
  | n + 1 => a.append (a.times n)

/-- 相対位置を一つ使う命令。 -/
def jumpTo (f : Int → Instruction) (n : Nat) : Emit := fun c =>
  match relative n with
  | .ok addr => .ok ([f addr], c)
  | .error err => .error err

/-- 本体が空に合うときは、前後を検査で挟む。 -/
def guarded (empty : EmptyBody) (a : Emit) : Emit :=
  match empty with
  | .never => a
  | empty => fun c =>
    let id := c.nullChecks
    let captures := empty == .possibleWithCaptures
    ((instr (.nullCheckStart id captures)).append
      (a.append (instr (.nullCheckEnd id captures)))) { c with nullChecks := id + 1 }

/-- 省略可能な本体を `n` 個入れ子に並べる。どの分岐も全体の終わりへ飛ぶ。 -/
def optionalTimes (a : Emit) (size : Nat) : Nat → Emit
  | 0 => fun c => .ok ([], c)
  | n + 1 =>
    (jumpTo .push ((n + 1) * size + n)).append (a.append (a.optionalTimes size n))

/-- 輪。欲張りなら頭で分岐し、欲張りでなければ尾で分岐する。 -/
def ring (a : Emit) (l : Loop) (size : Nat) : Emit :=
  let inner := guarded l.emptyBody a
  let span := size + l.emptyBody.size
  if l.greedy then
    let enter := match l.head, l.next with
      | some b, _ => fun addr => .pushOrJump addr b
      | none, some b => fun addr => .pushIfPeek addr b
      | none, none => .push
    (jumpTo enter (span + 1)).append
      (inner.append (jumpTo (fun addr => .jump (-addr)) (span + 2)))
  else
    (jumpTo .jump span).append (inner.append (jumpTo (fun addr => .push (-addr)) (span + 1)))

/-- 回数を数える繰り返し。番号は本体より先に配る。 -/
def counted (a : Emit) (l : Loop) (size : Nat) : Emit := fun c =>
  let id := c.repeats.length
  ((jumpTo (fun addr => .repeatStart id addr l.greedy) (size + l.emptyBody.size + 1)).append
    ((guarded l.emptyBody a).append (instr (.repeatNext id l.greedy))))
    { c with repeats := c.repeats ++ [(l.lower, l.upper)] }

/-- 開き方に従って繰り返しを生成する。 -/
def loop (a : Emit) (options : Options) (l : Loop) (size : Nat) : LoopShape → Emit
  | .nothing => fun c => .ok ([], c)
  | .anyStar => (a.times l.lower).append (instr (.anyStar (options.contains .multiline) l.next))
  | .ring copies jumpIn =>
    (if jumpIn then instr (.jump 1) else a.times copies).append (a.ring l size)
  | .unrolled required extra => (a.times required).append (a.optionalTimes size extra)
  | .lazyOptional => (instr (.push 1)).append ((jumpTo .jump size).append a)
  | .counted => a.counted l size

end Emit

namespace CodeEnv

/-- 前後に一つずつ命令を置く括弧。 -/
def between (first last : Instruction) (a : Emit) : Emit :=
  (Emit.instr first).append (a.append (Emit.instr last))

/-- 後読みで戻る文字数。 -/
def charsBehind (env : CodeEnv) (body : Node) : Except CompileError Nat :=
  match body.charCount env.encoding with
  | .fixed n => .ok n
  | _ => .error .invalidLookBehind

mutual
/-- 節の命令を生成する。 -/
def emit (env : CodeEnv) (options : Options) : Node → Emit
  | .empty, c => .ok ([], c)
  | .list nodes, c => env.emitList options nodes c
  | .alt nodes, c => env.emitAlt options nodes c
  | .str bytes, c => do return (Literal.code env.encoding (← env.foldFor options) bytes, c)
  | .raw bytes, c => .ok (Literal.code env.encoding none bytes, c)
  | .cclass cls, c => .ok ([classInstruction env.encoding cls], c)
  | .word isWord, c => .ok ([.word isWord], c)
  | .any, c => .ok ([.any (options.contains .multiline)], c)
  | .anchor a, c => .ok ([anchorInstruction options a], c)
  | .backref n, c => .ok ([.backref n (options.contains .ignoreCase)], c)
  | .scoped inner body, c => env.emit inner body c
  | .loop l body, c => do
    let size ← env.size options body
    Emit.loop (env.emit options body) options l size (.of env.expandLimit l body size) c
  | .group (.capture n undo) body, c =>
    between (.memStart n undo) (.memEnd n undo) (env.emit options body) c
  | .group .atomic body, c => between .pushAtomic .popAtomic (env.emit options body) c
  | .group .ahead body, c => between .pushPos .popPos (env.emit options body) c
  | .group .notAhead body, c => do
    let skip ← relative ((← env.size options body) + 1)
    between (.pushPosNot skip) .failPos (env.emit options body) c
  | .group .behind body, c => do
    let chars ← env.charsBehind body
    ((Emit.instr (.lookBehind chars)).append (env.emit options body)) c
  | .group .notBehind body, c => do
    let chars ← env.charsBehind body
    let skip ← relative ((← env.size options body) + 1)
    between (.pushLookBehindNot skip chars) .failLookBehindNot (env.emit options body) c

def emitList (env : CodeEnv) (options : Options) : List Node → Emit
  | [], c => .ok ([], c)
  | n :: ns, c => ((env.emit options n).append (env.emitList options ns)) c

def emitAlt (env : CodeEnv) (options : Options) : List Node → Emit
  | [], c => .ok ([], c)
  | [n], c => env.emit options n c
  | n :: m :: ns, c => do
    let size ← env.size options n
    let rest ← env.sizeAlt options (m :: ns)
    ((Emit.jumpTo .push (size + 1)).append
      ((env.emit options n).append
        ((Emit.jumpTo .jump rest).append (env.emitAlt options (m :: ns))))) c
end

/-- 木の全体を一つのプログラムにする。生成した命令数は前もって計算した数に等しくなければならない。 -/
def compile (env : CodeEnv) (options : Options) (groups : Nat) (root : Node) :
    Except CompileError Program := do
  let size ← env.size options root
  let (code, counters) ← env.emit options root {}
  if code.length ≠ size then throw .unexpectedLength
  return {
    code := (code ++ [Instruction.accept]).toArray
    encoding := env.encoding
    options
    fold := env.fold.getD .ascii
    groups
    repeats := counters.repeats.toArray
    nullChecks := counters.nullChecks
  }

end CodeEnv
end MultibyteRegex

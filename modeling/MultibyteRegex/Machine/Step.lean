import MultibyteRegex.Code.Program
import MultibyteRegex.Machine.Leaf

/-! 仮想機械の一歩。命令を一つ実行し、合わなければ最も新しい再開点へ戻る。 -/
namespace MultibyteRegex

/-- 一回の照合のあいだ変わらないもの。 -/
structure Matcher where
  program : Program
  text : Text
  /-- 検索を始めた位置。 -/
  searchStart : Nat
  /-- プログラムの旗と照合の旗を合わせたもの。 -/
  options : Options
  limits : Limits

/-- 機械の状態。 -/
structure Registers where
  pc : Nat
  pos : Nat
  caps : Captures
  stack : Stack := []
  /-- 再開点へ戻った回数。 -/
  retries : Nat := 0
  /-- これまでで最長の照合の長さと捕獲。 -/
  best : Option (Nat × Captures) := none

/-- 照合の答え。合わなければ長さがない。捕獲はどちらでも残る。 -/
structure Verdict where
  length : Option Nat
  caps : Captures
  deriving DecidableEq

/-- 命令を一つ実行した後の動き。 -/
inductive Move
  | go (r : Registers)
  | fail (r : Registers)
  | stop (v : Verdict)
  | abort

/-- 一歩の後の機械。 -/
inductive Progress
  | running (r : Registers)
  | done (v : Verdict)
  | aborted

namespace Registers

/-- 次の命令へ進む。 -/
def next (r : Registers) : Registers := { r with pc := r.pc + 1 }

/-- 本文を進めて次の命令へ進む。 -/
def moveTo (r : Registers) (pos : Nat) : Registers := { r with pc := r.pc + 1, pos }

def jump (r : Registers) (pc : Nat) : Registers := { r with pc }

/-- 相対位置の指す命令。 -/
def target (r : Registers) (addr : Int) : Except EvalError Nat :=
  let pc : Int := r.pc + 1 + addr
  if pc < 0 then .error .invalidPC else .ok pc.toNat

end Registers

namespace Move

/-- 条件が合えば次の命令へ進む。 -/
def check (ok : Bool) (r : Registers) : Move := if ok then .go r.next else .fail r

/-- 合う長さがあれば、そのぶん進む。 -/
def consume (length : Option Nat) (r : Registers) : Move :=
  match length with
  | some n => .go (r.moveTo (r.pos + n))
  | none => .fail r

end Move

namespace Matcher

def encoding (m : Matcher) : Encoding := m.program.encoding

def push (m : Matcher) (r : Registers) (f : Frame) : Except EvalError Registers :=
  match r.stack.push m.limits.depth f with
  | .ok stack => .ok { r with stack }
  | .error e => .error e

/-- 成功の命令。最長を探すときは、答えを控えて失敗として続ける。始まりより前に戻っていれば、長さの引き算で
打ち切られる。 -/
def accept (m : Matcher) (origin : Nat) (r : Registers) : Move :=
  let length := r.pos - origin
  let caps := r.caps.setIfInBounds 0 ⟨some origin, some r.pos⟩
  if r.pos < origin then .abort
  else if m.options.contains .findNotEmpty && length == 0 then .fail r
  else if m.options.contains .findLongest then
    if r.best.all (·.1 < length) then .fail { r with best := some (length, caps) } else .fail r
  else .stop ⟨some length, caps⟩

/-- 任意の文字の繰り返し。一文字ごとに分岐を積み、改行で止まれば失敗する。 -/
def anyStar (m : Matcher) (newline : Bool) (peek : Option UInt8) (r : Registers) :
    Except EvalError Move :=
  if _h : r.pos < m.text.size then
    let b := m.text[r.pos]
    let pushed := if peek.all (· == b) then m.push r (.alt (r.pc + 1) r.pos) else .ok r
    match pushed with
    | .error e => .error e
    | .ok r' =>
      if !newline && b == 0x0a then .ok (.fail r')
      else m.anyStar newline peek { r' with pos := m.encoding.nextHead m.text r.pos }
  else .ok (.go r.next)
termination_by m.text.size - r.pos
decreasing_by
  have := Encoding.lt_nextHead m.encoding m.text r.pos
  omega

/-- 捕獲の始まり。 -/
def memStart (m : Matcher) (n : Nat) (undo : Bool) (r : Registers) : Except EvalError Move :=
  match r.caps[n]? with
  | none => .error .undefinedBytecode
  | some prior => do
    let r ← if undo then m.push r (.memStart n prior) else .ok r
    let stop := if undo then none else prior.stop
    return .go { r with caps := r.caps.setIfInBounds n ⟨some r.pos, stop⟩ }.next

/-- 捕獲の終わり。 -/
def memEnd (m : Matcher) (n : Nat) (undo : Bool) (r : Registers) : Except EvalError Move :=
  match r.caps[n]? with
  | none => .error .undefinedBytecode
  | some prior => do
    let r ← if undo then m.push r (.memEnd n prior.stop) else .ok r
    return .go { r with caps := r.caps.setIfInBounds n ⟨prior.start, some r.pos⟩ }.next

/-- 数える繰り返しの始まり。下限が零なら本体を飛ばせる。 -/
def repeatStart (m : Matcher) (id : Nat) (addr : Int) (greedy : Bool) (r : Registers) :
    Except EvalError Move :=
  match m.program.repeats[id]? with
  | none => .error .undefinedBytecode
  | some (lower, _) => do
    let exit ← r.target addr
    let r ← m.push r (.repeatStart id (r.pc + 1) 0)
    if lower ≠ 0 then return .go r.next
    else if greedy then return .go (← m.push r (.alt exit r.pos)).next
    else return .go ((← m.push r (.alt (r.pc + 1) r.pos)).jump exit)

/-- 数える繰り返しの一回の終わり。欲張りなら本体へ戻る前に、欲張りでなければ先へ進む前に分岐を積む。 -/
def repeatNext (m : Matcher) (id : Nat) (greedy : Bool) (r : Registers) : Except EvalError Move :=
  match m.program.repeats[id]? with
  | none => .error .undefinedBytecode
  | some (lower, upper) =>
    match r.stack.findRepeat? id with
    | none => .error .stackBug
    | some index =>
      match r.stack.repeatAt? index, r.stack.setCount? index (· + 1) with
      | some (body, prior), some stack => do
        let count := prior + 1
        let r := { r with stack }
        let more := upper.all (count < ·)
        if greedy then
          let r ← if more && lower ≤ count then m.push r (.alt (r.pc + 1) r.pos) else .ok r
          let r ← m.push r (.repeatNext index)
          return .go (if more then r.jump body else r.next)
        else if more then
          let r ← m.push r (.repeatNext index)
          if lower ≤ count then return .go (← m.push r (.alt body r.pos)).next
          else return .go (r.jump body)
        else if upper = some count then return .go (← m.push r (.repeatNext index)).next
        else return .go r.next
      | _, _ => .error .stackBug

/-- 空の検査のすぐ後に置ける、輪を回す命令か。 -/
def isLoopEnd : Instruction → Bool
  | .jump _ => true
  | .push _ => true
  | .repeatNext .. => true
  | _ => false

/-- 本体の終わり。空に合っていれば、輪を回す命令を飛ばす。 -/
def nullCheckEnd (m : Matcher) (id : Nat) (captures : Bool) (r : Registers) :
    Except EvalError Move :=
  match r.stack.findNullCheck? id with
  | none => .error .stackBug
  | some (start, snapshot) =>
    let unchanged := match captures, snapshot with
      | true, some caps => caps == r.caps
      | _, _ => true
    if start == r.pos && unchanged then
      if (m.program.code[r.pc + 1]?).any isLoopEnd then .ok (.go (r.jump (r.pc + 2)))
      else .error .unexpectedBytecode
    else .ok (.go r.next)

/-- 目印まで外して失敗する。 -/
def failThrough (mark : Frame → Bool) (r : Registers) : Except EvalError Move :=
  let p := r.stack.popThrough mark r.caps
  match p.result with
  | .ok () => .ok (.fail { r with stack := p.stack, caps := p.caps })
  | .error e => .error e

/-- 命令を一つ実行する。 -/
def execute (m : Matcher) (origin : Nat) (i : Instruction) (r : Registers) :
    Except EvalError Move :=
  let e := m.encoding
  let text := m.text
  match i with
  | .accept => .ok (m.accept origin r)
  | .exact _ bytes =>
    .ok (.consume (if text.hasAt bytes r.pos then some bytes.length else none) r)
  | .exactFold _ bytes =>
    .ok (.consume (if text.hasFoldedAt m.program.fold bytes r.pos then some bytes.length else none) r)
  | .inSet set negated =>
    .ok (.consume (CharClass.matchAt { bytes := set, negated } e text r.pos) r)
  | .inRanges ranges negated =>
    .ok (.consume (CharClass.matchAt { ranges, negated } e text r.pos) r)
  | .inEither set ranges negated =>
    .ok (.consume (CharClass.matchAt { bytes := set, ranges, negated } e text r.pos) r)
  | .any newline =>
    let stopped := match text[r.pos]? with
      | none => true
      | some b => !newline && b == 0x0a
    .ok (.consume (if stopped then none else some (e.lengthAt text r.pos)) r)
  | .anyStar newline peek => m.anyStar newline peek r
  | .word isWord =>
    let ok := r.pos < text.size && e.isWordAt text r.pos == isWord
    .ok (.consume (if ok then some (e.lengthAt text r.pos) else none) r)
  | .wordBound atBound =>
    .ok (.check ((e.isWordBefore text r.pos != e.isWordAt text r.pos) == atBound) r)
  | .wordBegin => .ok (.check (e.isWordAt text r.pos && !e.isWordBefore text r.pos) r)
  | .wordEnd => .ok (.check (e.isWordBefore text r.pos && !e.isWordAt text r.pos) r)
  | .beginBuf => .ok (.check (r.pos == 0) r)
  | .endBuf => .ok (.check (r.pos == text.size) r)
  | .semiEndBuf =>
    .ok (.check (if r.pos = text.size then !m.options.contains .notEol
      else r.pos + 1 == text.size && text[r.pos]? == some 0x0a) r)
  | .beginPosition => .ok (.check (r.pos == m.searchStart) r)
  | .beginLine perLine =>
    .ok (.check (if r.pos = 0 then !m.options.contains .notBol
      else perLine && text[r.pos - 1]? == some 0x0a && r.pos != text.size) r)
  | .endLine perLine =>
    .ok (.check (if r.pos = text.size then !m.options.contains .notEol
      else perLine && text[r.pos]? == some 0x0a) r)
  | .backref n fold =>
    let table := if fold then some m.program.fold else none
    .ok (.consume (r.caps.backrefLength e table text n r.pos) r)
  | .memStart n undo => m.memStart n undo r
  | .memEnd n undo => m.memEnd n undo r
  | .fail => .ok (.fail r)
  | .jump addr => do return .go (r.jump (← r.target addr))
  | .push addr => do
    let pc ← r.target addr
    return .go (← m.push r (.alt pc r.pos)).next
  | .pushOrJump addr b => do
    let pc ← r.target addr
    if text[r.pos]? == some b then return .go (← m.push r (.alt pc r.pos)).next
    else return .go (r.jump pc)
  | .pushIfPeek addr b =>
    if text[r.pos]? == some b then do
      let pc ← r.target addr
      return .go (← m.push r (.alt pc r.pos)).next
    else return .go r.next
  | .repeatStart id addr greedy => m.repeatStart id addr greedy r
  | .repeatNext id greedy => m.repeatNext id greedy r
  | .nullCheckStart id captures => do
    let snapshot := if captures then some r.caps else none
    return .go (← m.push r (.nullCheck id r.pos snapshot)).next
  | .nullCheckEnd id captures => m.nullCheckEnd id captures r
  | .pushPos => do return .go (← m.push r (.ahead r.pos)).next
  | .popPos =>
    match r.stack.voidToPos with
    | (some pos, stack) => .ok (.go ({ r with stack }.moveTo pos))
    | (none, _) => .error .stackBug
  | .pushPosNot addr => do
    let pc ← r.target addr
    return .go (← m.push r (.posNot pc r.pos)).next
  | .failPos => failThrough Frame.isPosNot r
  | .pushAtomic => do return .go (← m.push r .atomic).next
  | .popAtomic =>
    match r.stack.voidToAtomic with
    | (some (), stack) => .ok (.go { r with stack }.next)
    | (none, _) => .error .stackBug
  | .lookBehind chars =>
    match e.stepBack text 0 r.pos chars with
    | some pos => .ok (.go (r.moveTo pos))
    | none => .ok (.fail r)
  | .pushLookBehindNot addr chars => do
    let pc ← r.target addr
    match e.stepBack text 0 r.pos chars with
    | some pos => return .go ((← m.push r (.behindNot pc r.pos)).moveTo pos)
    | none => return .go (r.jump pc)
  | .failLookBehindNot => failThrough Frame.isBehindNot r

/-- 最も新しい再開点へ戻る。なければ、控えた最長の照合が答えになる。 -/
def backtrack (m : Matcher) (r : Registers) : Except EvalError Progress :=
  let p := r.stack.popResume r.caps
  match p.result with
  | .error e => .error e
  | .ok none =>
    match r.best with
    | some (length, caps) => .ok (.done ⟨some length, caps⟩)
    | none => .ok (.done ⟨none, p.caps⟩)
  | .ok (some (pc, pos)) =>
    if m.limits.retries.any (· < r.retries + 1) then .error .retryLimitExceeded
    else .ok (.running { r with pc, pos, stack := p.stack, caps := p.caps, retries := r.retries + 1 })

/-- 一歩。 -/
def step (m : Matcher) (origin : Nat) (r : Registers) : Except EvalError Progress :=
  match m.program.code[r.pc]? with
  | none => .error .invalidPC
  | some i =>
    match m.execute origin i r with
    | .error e => .error e
    | .ok (.go r) => .ok (.running r)
    | .ok (.fail r) => m.backtrack r
    | .ok (.stop v) => .ok (.done v)
    | .ok .abort => .ok .aborted

/-- 高々 `fuel` 歩進める。それまでに止まらなければ答えがない。 -/
def run (m : Matcher) (origin : Nat) : Nat → Registers → Fueled Verdict
  | 0, _ => none
  | fuel + 1, r =>
    match m.step origin r with
    | .error e => some (.error e)
    | .ok (.done v) => some (.ok v)
    | .ok .aborted => some .aborted
    | .ok (.running r) => m.run origin fuel r

/-- `origin` から始まる照合。 -/
def matchAt (m : Matcher) (fuel : Nat) (origin : Nat) : Fueled Verdict :=
  if m.text.size < origin then some (.error .invalidArgument)
  else m.run origin fuel { pc := 0, pos := origin, caps := .fresh m.program.groups }

end Matcher
end MultibyteRegex

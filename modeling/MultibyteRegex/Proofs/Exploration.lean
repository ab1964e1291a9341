import MultibyteRegex.Code.Program
import MultibyteRegex.Proofs.Outcomes

/-!
# 続きに渡す意味

節の合い方を、続きに一つずつ渡す。続きは、失敗したときの答えも受け取り、全体の答えを決める。空に合いうる
輪も後読みも扱い、輪を続ける回数は `fuel` で抑える。開き方ごとの違いは、並べる本体の数と輪の回数に現れる
だけである。
-/

namespace MultibyteRegex

/-- 着いた合い方と、そこで失敗したときの答えから、全体の答えを決める。 -/
abbrev Cont (α : Type) := Outcome → α → α

/-- 一回の前後が区別できなければ、輪は空回りしている。 -/
def EmptyBody.isStuck : EmptyBody → Outcome → Outcome → Bool
  | .never, _, _ => false
  | .possible, o, o' => o.pos == o'.pos
  | .possibleWithCaptures, o, o' => o.pos == o'.pos && o.caps == o'.caps

/-- 本体を `k` 回続けた所から先。空回りしたら輪を抜け、`fuel` が尽きたら `bot` と答える。 -/
def Loop.explore {α : Type} (l : Loop) (bot : α) (R : Cont α → Cont α) (F : Cont α) :
    Nat → Nat → Cont α
  | 0, _ => fun _ _ => bot
  | fuel + 1, k => fun o res =>
    let again := R (fun o' res' =>
      if l.emptyBody.isStuck o o' then F o' res' else l.explore bot R F fuel (k + 1) o' res') o
    if !l.upper.all (k < ·) then F o res
    else if k < l.lower then again res
    else if l.greedy then again (F o res)
    else F o (again res)

/-- 開き方ごとの、先に並べる本体の数と、その後の輪。 -/
def LoopShape.plan (l : Loop) : LoopShape → Nat × Loop
  | .nothing => (0, { l with lower := 0, upper := some 0 })
  | .anyStar => (l.lower, { l with lower := 0, emptyBody := .never })
  | .ring copies jumpIn => if jumpIn then (0, l) else (copies, { l with lower := 0 })
  | .unrolled required extra =>
    (required, { l with lower := 0, upper := some extra, emptyBody := .never })
  | .lazyOptional => (0, { l with emptyBody := .never })
  | .counted => (0, l)

/-- 先に本体を並べてから、輪を続ける。 -/
def LoopShape.explore {α : Type} (shape : LoopShape) (l : Loop) (bot : α) (fuel : Nat)
    (R : Cont α → Cont α) (F : Cont α) : Cont α :=
  Nat.repeat R (shape.plan l).1 ((shape.plan l).2.explore bot R F fuel 0)

/-- 空回りの検査を置く開き方。 -/
def LoopShape.isGuarded : LoopShape → Bool
  | .ring .. => true
  | .counted => true
  | _ => false

namespace CodeEnv

/-- 繰り返しの開き方。 -/
def shape (env : CodeEnv) (options : Options) (l : Loop) (body : Node) : LoopShape :=
  .of env.expandLimit l body ((env.size options body).toOption.getD 0)

/-- 後読みの本体が始まる位置。 -/
def behind? (env : CodeEnv) (x : Setting) (body : Node) (s : Nat) : Option Nat :=
  match body.charCount env.encoding with
  | .fixed n => x.encoding.stepBack x.text 0 s n
  | _ => none

end CodeEnv

namespace Node

mutual
/-- 節の合い方を、優先順に続きへ渡す。 -/
def explore {α : Type} (env : CodeEnv) (x : Setting) (bot : α) (fuel : Nat) (options : Options) :
    Node → Cont α → Cont α
  | .empty, F => F
  | .list nodes, F => exploreList env x bot fuel options nodes F
  | .alt nodes, F => exploreAlt env x bot fuel options nodes F
  | .loop l body, F =>
    let R := body.explore env x bot fuel options
    (env.shape options l body).explore l bot fuel R F
  | .scoped inner body, F => body.explore env x bot fuel inner F
  | .group (.capture n _) body, F => fun o res =>
    body.explore env x bot fuel options (fun o' => F (o'.closed n)) (o.opened n) res
  | .group .atomic body, F => fun o res =>
    body.explore env x bot fuel options (fun o' _ => F o' res) o res
  | .group .ahead body, F => fun o res =>
    body.explore env x bot fuel options (fun o' _ => F (o'.moveTo o.pos) res) o res
  | .group .notAhead body, F => fun o res =>
    body.explore env x bot fuel options (fun _ _ => res) o (F o res)
  | .group .behind body, F => fun o res =>
    match env.behind? x body o.pos with
    | some s => body.explore env x bot fuel options F (o.moveTo s) res
    | none => res
  | .group .notBehind body, F => fun o res =>
    match env.behind? x body o.pos with
    | some s => body.explore env x bot fuel options (fun _ _ => res) (o.moveTo s) (F o res)
    | none => F o res
  | node, F => fun o res =>
    match node.leafEnd? x options o with
    | some s => F (o.moveTo s) res
    | none => res

def exploreList {α : Type} (env : CodeEnv) (x : Setting) (bot : α) (fuel : Nat) (options : Options) :
    List Node → Cont α → Cont α
  | [], F => F
  | n :: ns, F => n.explore env x bot fuel options (exploreList env x bot fuel options ns F)

def exploreAlt {α : Type} (env : CodeEnv) (x : Setting) (bot : α) (fuel : Nat) (options : Options) :
    List Node → Cont α → Cont α
  | [], F => F
  | [n], F => n.explore env x bot fuel options F
  | n :: m :: ns, F => fun o res =>
    n.explore env x bot fuel options F o (exploreAlt env x bot fuel options (m :: ns) F o res)
end

end Node
end MultibyteRegex

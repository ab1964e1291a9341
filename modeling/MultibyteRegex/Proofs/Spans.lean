import MultibyteRegex.Proofs.Contract

/-!
# 節が合いうる範囲

節の一つずつに、合いうる範囲の始まりと終わりの関係を付ける。後方参照がどの捕獲を見るかと、分岐を
試す順は問わない。
-/

namespace MultibyteRegex

/-- 二つの関係を続ける。 -/
def Comp (R S : Nat → Nat → Prop) (s t : Nat) : Prop := ∃ u, R s u ∧ S u t

namespace Matcher

/-- 積み重ねに触れない命令の列が、`s` から `t` へ進める。 -/
def Path (m : Matcher) : List Instruction → Nat → Nat → Prop
  | [] => Eq
  | i :: is => Comp (m.Passes i) (m.Path is)

end Matcher

/-- 許された回数だけ関係をたどる。 -/
def Loop.Turns (l : Loop) (R : Nat → Nat → Prop) (s t : Nat) : Prop :=
  ∃ k, l.lower ≤ k ∧ (∀ u ∈ l.upper, k ≤ u) ∧ Iterated R k s t

namespace Node

mutual
/-- 節が `s` から `t` までに合いうる。 -/
def Spans (env : CodeEnv) (m : Matcher) (options : Options) : Node → Nat → Nat → Prop
  | .empty => Eq
  | .list nodes => SpansList env m options nodes
  | .alt nodes => SpansAlt env m options nodes
  | .str bytes => fun s t => ∃ fold, env.foldFor options = .ok fold ∧
      m.Path (Literal.code env.encoding fold bytes) s t
  | .raw bytes => m.Path (Literal.code env.encoding none bytes)
  | .cclass c => m.Passes (classInstruction env.encoding c)
  | .word isWord => m.Passes (.word isWord)
  | .any => m.Passes (.any (options.contains .multiline))
  | .anchor a => m.Passes (anchorInstruction options a)
  | .backref n => m.Passes (.backref n (options.contains .ignoreCase))
  | .scoped inner body => body.Spans env m inner
  | .loop l body => l.Turns (body.Spans env m options)
  | .group (.capture ..) body => body.Spans env m options
  | .group .atomic body => body.Spans env m options
  | .group .behind body => fun s t => ∃ n p, body.charCount env.encoding = .fixed n ∧
      m.encoding.stepBack m.text 0 s n = some p ∧ body.Spans env m options p t
  | .group .ahead _ => Eq
  | .group .notAhead _ => Eq
  | .group .notBehind _ => Eq

def SpansList (env : CodeEnv) (m : Matcher) (options : Options) : List Node → Nat → Nat → Prop
  | [] => Eq
  | n :: ns => Comp (n.Spans env m options) (SpansList env m options ns)

def SpansAlt (env : CodeEnv) (m : Matcher) (options : Options) : List Node → Nat → Nat → Prop
  | [] => Eq
  | [n] => n.Spans env m options
  | n :: m' :: ns => fun s t => n.Spans env m options s t ∨ SpansAlt env m options (m' :: ns) s t
end

mutual
/-- 後読みの本体。入れ子のものも含む。 -/
def behinds : Node → List Node
  | .list nodes => behindsIn nodes
  | .alt nodes => behindsIn nodes
  | .loop _ body => body.behinds
  | .scoped _ body => body.behinds
  | .group .behind body => body :: body.behinds
  | .group _ body => body.behinds
  | _ => []

def behindsIn : List Node → List Node
  | [] => []
  | n :: ns => n.behinds ++ behindsIn ns
end

end Node
end MultibyteRegex

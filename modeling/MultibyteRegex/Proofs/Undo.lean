import Mathlib.Data.List.Forall2
import MultibyteRegex.Proofs.Simulation

/-!
# 取り消しの省略

合わずに捨てられることのない捕獲は、前の値を積まずに書く。どの捕獲も取り消せるようにした木と、答えが同じに
なるのは、取り消しなしに書く捕獲を、書き直す前に読まない木である。空回りの検査が置かれた輪は、この条件を
破りうる。
-/

namespace MultibyteRegex

namespace Node

mutual
/-- どの捕獲も取り消せるようにした木。 -/
def withUndo : Node → Node
  | .list nodes => .list (allWithUndo nodes)
  | .alt nodes => .alt (allWithUndo nodes)
  | .loop l body => .loop l body.withUndo
  | .scoped inner body => .scoped inner body.withUndo
  | .group (.capture n _) body => .group (.capture n true) body.withUndo
  | .group kind body => .group kind body.withUndo
  | node => node

def allWithUndo : List Node → List Node
  | [] => []
  | n :: ns => n.withUndo :: allWithUndo ns
end

/-- 取り消しの印の他は同じ木。命令の数も合い方も変わらない。 -/
structure Alike (env : CodeEnv) (x : Setting) (n n' : Node) : Prop where
  size : ∀ options, env.size options n' = env.size options n
  count : ∀ top, n'.charCountAt env.encoding top = n.charCountAt env.encoding top
  any : LoopShape.isAny n' = LoopShape.isAny n
  minLength : n'.minLength = n.minLength
  hasCapture : n'.hasCapture = n.hasCapture
  explore : ∀ {α : Type} (bot : α) (fuel : Nat) (options : Options) (F : Cont α),
    n'.explore env x bot fuel options F = n.explore env x bot fuel options F

namespace Alike

variable {env : CodeEnv} {x : Setting} {n n' : Node} {ns ns' : List Node}

theorem refl (n : Node) : Alike env x n n :=
  ⟨fun _ => rfl, fun _ => rfl, rfl, rfl, rfl, fun _ _ _ _ => rfl⟩

theorem symm (h : Alike env x n n') : Alike env x n' n :=
  ⟨fun options => (h.size options).symm, fun top => (h.count top).symm, h.any.symm, h.minLength.symm, h.hasCapture.symm,
    fun bot fuel options F => (h.explore bot fuel options F).symm⟩

theorem sizeList (h : List.Forall₂ (Alike env x) ns ns') (options : Options) :
    env.sizeList options ns' = env.sizeList options ns := by
  induction h with
  | nil => rfl
  | cons hn _ ih => simp only [CodeEnv.sizeList, hn.size, ih]

theorem sizeAlt (h : List.Forall₂ (Alike env x) ns ns') (options : Options) :
    env.sizeAlt options ns' = env.sizeAlt options ns := by
  induction h with
  | nil => rfl
  | cons hn hns ih =>
    cases hns with
    | nil => exact hn.size options
    | cons => simp only [CodeEnv.sizeAlt, hn.size] at ih ⊢; rw [ih]

theorem anyCapture (h : List.Forall₂ (Alike env x) ns ns') : anyCapture ns' = anyCapture ns := by
  induction h with
  | nil => rfl
  | cons hn _ ih => simp only [Node.anyCapture, hn.hasCapture, ih]

theorem list (h : List.Forall₂ (Alike env x) ns ns') : Alike env x (.list ns) (.list ns') := by
  refine ⟨sizeList h, fun top => ?_, rfl, ?_, anyCapture h, fun bot fuel options F => ?_⟩
  · simp only [charCountAt]
    induction h with
    | nil => rfl
    | cons hn _ ih => simp only [sumCharCount, hn.count, ih]
  · simp only [Node.minLength]
    induction h with
    | nil => rfl
    | cons hn _ ih => simp only [sumMinLength, hn.minLength, ih]
  · simp only [Node.explore]
    induction h with
    | nil => rfl
    | cons hn _ ih => simp only [exploreList, hn.explore, ih]

theorem alt (h : List.Forall₂ (Alike env x) ns ns') : Alike env x (.alt ns) (.alt ns') := by
  refine ⟨sizeAlt h, fun top => ?_, rfl, ?_, anyCapture h, fun bot fuel options F => ?_⟩
  · have hcounts : charCounts env.encoding ns' = charCounts env.encoding ns := by
      induction h with
      | nil => rfl
      | cons hn _ ih => simp only [charCounts, hn.count, ih]
    simp only [charCountAt, hcounts]
  · simp only [Node.minLength]
    induction h with
    | nil => rfl
    | cons hn hns ih =>
      cases hns with
      | nil => exact hn.minLength
      | cons =>
        simp only [leastMinLength, hn.minLength] at ih ⊢
        rw [ih]
  · simp only [Node.explore]
    induction h with
    | nil => rfl
    | cons hn hns ih =>
      cases hns with
      | nil => exact hn.explore bot fuel options F
      | cons =>
        funext o res
        simp only [exploreAlt, hn.explore] at ih ⊢
        rw [ih]

theorem loop (l : Loop) (h : Alike env x n n') : Alike env x (.loop l n) (.loop l n') := by
  have hof : ∀ size, LoopShape.of env.expandLimit l n' size = LoopShape.of env.expandLimit l n size := by
    intro size
    simp only [LoopShape.of, h.any]
  refine ⟨fun options => ?_, fun top => ?_, rfl, ?_, h.hasCapture, fun bot fuel options F => ?_⟩
  · simp only [CodeEnv.size, h.size, hof]
  · simp only [charCountAt, h.count]
  · simp only [Node.minLength, h.minLength]
  · have hexplore : n'.explore env x bot fuel options = n.explore env x bot fuel options :=
      funext (h.explore bot fuel options)
    simp only [Node.explore, CodeEnv.shape, h.size, hof, hexplore]

theorem under (inner : Options) (h : Alike env x n n') : Alike env x (.scoped inner n) (.scoped inner n') :=
  ⟨fun _ => h.size inner, fun _ => h.count false, rfl, h.minLength, h.hasCapture,
    fun bot fuel _ F => h.explore bot fuel inner F⟩

theorem capture (k : Nat) (undo undo' : Bool) (h : Alike env x n n') :
    Alike env x (.group (.capture k undo) n) (.group (.capture k undo') n') := by
  refine ⟨fun options => ?_, fun _ => h.count false, rfl, h.minLength, rfl, fun bot fuel options F => ?_⟩
  · simp only [CodeEnv.size, h.size]
  · simp only [Node.explore, h.explore]

theorem group (kind : GroupKind) (h : Alike env x n n') : Alike env x (.group kind n) (.group kind n') := by
  cases kind with
  | capture k undo => exact h.capture k undo undo
  | _ =>
    refine ⟨fun options => ?_, fun top => ?_, rfl, ?_, h.hasCapture, fun bot fuel options F => ?_⟩
    · simp only [CodeEnv.size, h.size]
    · first | exact h.count false | rfl
    · first | exact h.minLength | rfl
    · simp only [Node.explore, CodeEnv.behind?, charCount, h.count, h.explore]

end Alike
variable {env : CodeEnv} {x : Setting}

mutual
theorem alike_withUndo : (n : Node) → Alike env x n n.withUndo
  | .list ns => .list (allAlike_withUndo ns)
  | .alt ns => .alt (allAlike_withUndo ns)
  | .loop l body => (alike_withUndo body).loop l
  | .scoped inner body => (alike_withUndo body).under inner
  | .group (.capture n undo) body => (alike_withUndo body).capture n undo true
  | .group .atomic body => (alike_withUndo body).group .atomic
  | .group .ahead body => (alike_withUndo body).group .ahead
  | .group .notAhead body => (alike_withUndo body).group .notAhead
  | .group .behind body => (alike_withUndo body).group .behind
  | .group .notBehind body => (alike_withUndo body).group .notBehind
  | .empty => .refl _
  | .str _ => .refl _
  | .raw _ => .refl _
  | .cclass _ => .refl _
  | .word _ => .refl _
  | .any => .refl _
  | .anchor _ => .refl _
  | .backref _ => .refl _

theorem allAlike_withUndo : (ns : List Node) → List.Forall₂ (Alike env x) ns (allWithUndo ns)
  | [] => .nil
  | n :: ns => .cons (alike_withUndo n) (allAlike_withUndo ns)
end

mutual
theorem unmarked_withUndo : (n : Node) → n.withUndo.unmarked = []
  | .list ns => unmarkedIn_withUndo ns
  | .alt ns => unmarkedIn_withUndo ns
  | .loop _ body => unmarked_withUndo body
  | .scoped _ body => unmarked_withUndo body
  | .group (.capture ..) body => unmarked_withUndo body
  | .group .atomic body => unmarked_withUndo body
  | .group .ahead body => unmarked_withUndo body
  | .group .notAhead body => unmarked_withUndo body
  | .group .behind body => unmarked_withUndo body
  | .group .notBehind body => unmarked_withUndo body
  | .empty => rfl
  | .str _ => rfl
  | .raw _ => rfl
  | .cclass _ => rfl
  | .word _ => rfl
  | .any => rfl
  | .anchor _ => rfl
  | .backref _ => rfl

theorem unmarkedIn_withUndo : (ns : List Node) → unmarkedIn (allWithUndo ns) = []
  | [] => rfl
  | n :: ns => by simp only [allWithUndo, unmarkedIn, unmarked_withUndo n, unmarkedIn_withUndo ns,
      List.append_nil]
end

/-- 取り消しなしに書く番号がなければ、取り消しのない書き換えもない。 -/
theorem silent_of_unmarked {n : Node} (h : n.unmarked = []) : n.Silent := by
  intro k b hw
  have := mem_unmarked n hw
  simp [h] at this

mutual
/-- 取り消しなしに書くことがなければ、書き直す前の捕獲を読むこともない。 -/
theorem isOrderly_of_unmarked : (n : Node) → n.unmarked = [] → {options : Options} →
    env.isOrderly options n
  | .list ns, h, _ => allOrderly_of_unmarked ns h
  | .alt ns, h, _ => branchesOrderly_of_unmarked ns h
  | .loop l body, h, options => by
    have h : body.unmarked = [] := h
    simpa [CodeEnv.isOrderly, h] using isOrderly_of_unmarked body h
  | .scoped _ body, h, _ => isOrderly_of_unmarked body h
  | .group (.capture n undo) body, h, _ => by
    cases undo with
    | false => cases h
    | true => simpa [CodeEnv.isOrderly] using isOrderly_of_unmarked body h
  | .group .atomic body, h, _ | .group .ahead body, h, _ | .group .notAhead body, h, _
  | .group .behind body, h, _ | .group .notBehind body, h, _ => isOrderly_of_unmarked body h
  | .empty, _, _ | .str _, _, _ | .raw _, _, _ | .cclass _, _, _ | .word _, _, _ | .any, _, _
  | .anchor _, _, _ | .backref _, _, _ => rfl

theorem allOrderly_of_unmarked : (ns : List Node) → unmarkedIn ns = [] → {options : Options} →
    env.allOrderly options ns
  | [], _, _ => rfl
  | n :: ns, h, _ => by
    obtain ⟨hn, hns⟩ := List.append_eq_nil_iff.1 h
    simpa [CodeEnv.allOrderly, hns, isOrderly_of_unmarked n hn] using allOrderly_of_unmarked ns hns

theorem branchesOrderly_of_unmarked : (ns : List Node) → unmarkedIn ns = [] → {options : Options} →
    env.branchesOrderly options ns
  | [], _, _ => rfl
  | n :: ns, h, _ => by
    obtain ⟨hn, hns⟩ := List.append_eq_nil_iff.1 h
    simpa [CodeEnv.branchesOrderly, isOrderly_of_unmarked n hn] using branchesOrderly_of_unmarked ns hns
end

theorem silent_withUndo (n : Node) : n.withUndo.Silent := silent_of_unmarked (unmarked_withUndo n)

mutual
theorem wellFormed_withUndo {groups : Nat} : (n : Node) → n.WellFormed groups →
    n.withUndo.WellFormed groups
  | .list ns, h => allWellFormed_withUndo ns h
  | .alt ns, h => allWellFormed_withUndo ns h
  | .loop _ body, h => ⟨h.1, wellFormed_withUndo body h.2⟩
  | .scoped _ body, h => wellFormed_withUndo body h
  | .group (.capture ..) body, h => ⟨h.1, wellFormed_withUndo body h.2⟩
  | .group .atomic body, h => ⟨h.1, wellFormed_withUndo body h.2⟩
  | .group .ahead body, h => ⟨h.1, wellFormed_withUndo body h.2⟩
  | .group .notAhead body, h => ⟨h.1, wellFormed_withUndo body h.2⟩
  | .group .behind body, h => ⟨h.1, wellFormed_withUndo body h.2⟩
  | .group .notBehind body, h => ⟨h.1, wellFormed_withUndo body h.2⟩
  | .empty, _ => trivial
  | .str _, _ => trivial
  | .raw _, _ => trivial
  | .cclass _, _ => trivial
  | .word _, _ => trivial
  | .any, _ => trivial
  | .anchor _, _ => trivial
  | .backref _, _ => trivial

theorem allWellFormed_withUndo {groups : Nat} : (ns : List Node) → AllWellFormed groups ns →
    AllWellFormed groups (allWithUndo ns)
  | [], _ => trivial
  | n :: ns, h => ⟨wellFormed_withUndo n h.1, allWellFormed_withUndo ns h.2⟩
end

theorem next?_withUndo (n : Node) : n.withUndo.next? = n.next? := by
  cases n with
  | group kind body => cases kind <;> rfl
  | _ => rfl

theorem headByte_withUndo : (n : Node) → (options : Options) →
    n.withUndo.headByte options = n.headByte options
  | .list [], _ => rfl
  | .list (n :: _), options => headByte_withUndo n options
  | .loop l body, options => by simp only [withUndo, headByte, headByte_withUndo body]
  | .scoped inner body, _ => headByte_withUndo body inner
  | .group (.capture ..) body, options => headByte_withUndo body options
  | .group .atomic body, options => headByte_withUndo body options
  | .group .ahead body, options => headByte_withUndo body options
  | .group .notAhead _, _ => rfl
  | .group .behind _, _ => rfl
  | .group .notBehind _, _ => rfl
  | .alt _, _ => rfl
  | .empty, _ => rfl
  | .str _, _ => rfl
  | .raw _, _ => rfl
  | .cclass _, _ => rfl
  | .word _, _ => rfl
  | .any, _ => rfl
  | .anchor _, _ => rfl
  | .backref _, _ => rfl

mutual
/-- 手がかりは、取り消しの印によらない。 -/
theorem ready_withUndo {t : FoldTable} : (n : Node) → {options : Options} → n.Ready t options →
    n.withUndo.Ready t options
  | .list ns, _, h => readyList_withUndo ns h
  | .alt ns, _, h => readyAlt_withUndo ns h
  | .loop l body, options, h => by
    obtain ⟨-, hhead, hpos, hnext, hready⟩ := h
    refine ⟨.inr (silent_withUndo body), fun b hb => ?_, fun hu hne => ?_, ?_, ready_withUndo body hready⟩
    · rw [headByte_withUndo]
      exact hhead b hb
    · have halike : Alike { encoding := .ascii, fold := none } ⟨.ascii, .ascii, #[], 0, .none⟩ body
          body.withUndo := alike_withUndo body
      rw [halike.minLength]
      exact hpos hu hne
    · rw [next?_withUndo]
      exact hnext
  | .scoped _ body, _, h => ⟨(next?_withUndo body).trans h.1, ready_withUndo body h.2⟩
  | .group (.capture ..) body, _, h => ⟨(next?_withUndo body).trans h.1, ready_withUndo body h.2⟩
  | .group .atomic body, _, h => ⟨(next?_withUndo body).trans h.1, ready_withUndo body h.2⟩
  | .group .ahead body, _, h => ⟨(next?_withUndo body).trans h.1, ready_withUndo body h.2⟩
  | .group .notAhead body, _, h =>
    ⟨silent_withUndo body, (next?_withUndo body).trans h.2.1, ready_withUndo body h.2.2⟩
  | .group .behind body, _, h => ⟨(next?_withUndo body).trans h.1, ready_withUndo body h.2⟩
  | .group .notBehind body, _, h =>
    ⟨silent_withUndo body, (next?_withUndo body).trans h.2.1, ready_withUndo body h.2.2⟩
  | .cclass _, _, h => h
  | .empty, _, _ => trivial
  | .str _, _, _ => trivial
  | .raw _, _, _ => trivial
  | .word _, _, _ => trivial
  | .any, _, _ => trivial
  | .anchor _, _, _ => trivial
  | .backref _, _, _ => trivial

theorem readyList_withUndo {t : FoldTable} : (ns : List Node) → {options : Options} →
    ReadyList t options ns → ReadyList t options (allWithUndo ns)
  | [], _, _ => trivial
  | n :: ns, options, h => by
    refine ⟨fun b hb => ?_, ready_withUndo n h.2.1, readyList_withUndo ns h.2.2⟩
    rw [next?_withUndo] at hb
    have hhead := h.1 b hb
    cases ns with
    | nil => exact hhead
    | cons n' ns =>
      change n'.withUndo.headByte options = some b
      rw [headByte_withUndo]
      exact hhead

theorem readyAlt_withUndo {t : FoldTable} : (ns : List Node) → {options : Options} →
    ReadyAlt t options ns → ReadyAlt t options (allWithUndo ns)
  | [], _, _ => trivial
  | n :: ns, _, h => ⟨silent_withUndo n, (next?_withUndo n).trans h.2.1, ready_withUndo n h.2.2.1,
      readyAlt_withUndo ns h.2.2.2⟩
end

end Node

namespace CodeEnv

variable {env : CodeEnv} {options : Options} {groups : Nat} {root : Node} {program program' : Program}

/-- 書き直す前の捕獲を読まない木は、どの捕獲も取り消せるようにした木と、同じ所で終わり、同じ答えになる。 -/
theorem compile_withUndo (h : env.compile options groups root = .ok program)
    (h' : env.compile options groups root.withUndo = .ok program') (hw : root.WellFormed groups)
    (hr : root.Ready (env.fold.getD .ascii) options) (hnext : root.next? = none)
    (horderly : env.isOrderly options root) {m m' : Matcher} (hm : m.limits = .unlimited)
    (hp : m.program = program) (hm' : m' = { m with program := program' }) {origin : Nat}
    (ho : origin ≤ m.text.size) (a : Answer) :
    (∃ v, m.Returns origin v ∧ v.answer = a) ↔ ∃ v, m'.Returns origin v ∧ v.answer = a := by
  subst hm'
  have hsettles := compile_settles h hw hm hp hr hnext horderly ho
  have hsettles' := compile_settles (m := { m with program := program' }) h'
    (Node.wellFormed_withUndo root hw) hm rfl (Node.ready_withUndo root hr)
    ((Node.next?_withUndo root).trans hnext) (Node.isOrderly_of_unmarked _ (Node.unmarked_withUndo root)) ho
  have hsetting : Matcher.setting { m with program := program' } = m.setting := by
    obtain ⟨size, code, counters, -, -, rfl⟩ := compile_eq_ok h
    obtain ⟨size', code', counters', -, -, rfl⟩ := compile_eq_ok h'
    simp [Matcher.setting, Matcher.encoding, hp]
  rw [Matcher.returns_iff hsettles ho, Matcher.returns_iff hsettles' ho]
  simp only [answer?, hsetting, (Node.alike_withUndo root).explore]
  rfl

end CodeEnv

namespace Regex

/-- どの捕獲も取り消せるようにして翻訳する。 -/
def compileWithUndo (s : Source) : Except RegexError Regex := do
  let parsed ← (Pattern.parse s.encoding s.options s.pattern).mapError .parse
  let root ← (parsed.root.prepare ⟨s.encoding, s.fold, parsed.backrefs⟩ s.options).mapError .compile
  let program ← (s.env.compile s.options parsed.groups root.withUndo).mapError .compile
  return { program, plan := .ofHints s.encoding (Hints.ofTree s.encoding s.fold s.options root) }

/-- 書き直す前の捕獲を読まないパターンでは、取り消しを省いても、照合の終わる所も答えも変わらない。 -/
theorem matchAt_withUndo {s : Source} {re re' : Regex} (h : Regex.compile s = .ok re)
    (h' : compileWithUndo s = .ok re') (horderly : s.isOrderly) (options : Options) (text : Text)
    (start : Nat) {origin : Nat} (ho : origin ≤ text.size) (a : Answer) :
    (∃ v, (re.matcher .unlimited options text start).Returns origin v ∧ v.answer = a) ↔
      ∃ v, (re'.matcher .unlimited options text start).Returns origin v ∧ v.answer = a := by
  obtain ⟨parsed, hparse, h'⟩ := Except.bind_eq_ok h'
  obtain ⟨root, hprepare, h'⟩ := Except.bind_eq_ok h'
  obtain ⟨program, hundo, h'⟩ := Except.bind_eq_ok h'
  have hparse := Except.mapError_eq_ok hparse
  have hprepare := Except.mapError_eq_ok hprepare
  have hundo := Except.mapError_eq_ok hundo
  cases h'
  obtain ⟨parsed', root', hparse', hprepare', hcompile, -⟩ := compile_eq_ok h
  cases hparse.symm.trans hparse'
  cases hprepare.symm.trans hprepare'
  have hplain := Pattern.plain_parse hparse
  have hprepared := Node.prepared_prepare hplain hprepare
  have horderly : s.env.isOrderly s.options root := by
    simpa [Source.isOrderly, Source.tree?, hparse, hprepare, Except.toOption] using horderly
  refine CodeEnv.compile_withUndo hcompile hundo (Node.wellFormed_prepare hplain.wellFormed hprepare)
    hprepared.ready hprepared.next horderly rfl rfl ?_ ho a
  obtain ⟨size, code, counters, -, -, hprogram⟩ := CodeEnv.compile_eq_ok hcompile
  obtain ⟨size', code', counters', -, -, hprogram'⟩ := CodeEnv.compile_eq_ok hundo
  simp [matcher, hprogram, hprogram']

/-- 取り消しなしに書く捕獲が入れ子になる例。 -/
theorem matchAt_withUndo_nested :
    ∃ re re', Regex.compile { pattern := Pattern.ascii "((a|b)c)(d*)" } = .ok re ∧
      compileWithUndo { pattern := Pattern.ascii "((a|b)c)(d*)" } = .ok re' ∧
      Source.isOrderly { pattern := Pattern.ascii "((a|b)c)(d*)" } ∧
      0 ≤ (#[0x62, 0x63, 0x64] : Text).size ∧
      ∀ a, (∃ v, (re.matcher .unlimited .none #[0x62, 0x63, 0x64] 0).Returns 0 v ∧ v.answer = a) ↔
        ∃ v, (re'.matcher .unlimited .none #[0x62, 0x63, 0x64] 0).Returns 0 v ∧ v.answer = a := by
  obtain ⟨re, h, -⟩ := exists_ok (x := Regex.compile { pattern := Pattern.ascii "((a|b)c)(d*)" })
    (p := fun _ => true) (by decide +kernel)
  obtain ⟨re', h', -⟩ := exists_ok (x := compileWithUndo { pattern := Pattern.ascii "((a|b)c)(d*)" })
    (p := fun _ => true) (by decide +kernel)
  have horderly : Source.isOrderly { pattern := Pattern.ascii "((a|b)c)(d*)" } := by decide +kernel
  exact ⟨re, re', h, h', horderly, Nat.zero_le _,
    matchAt_withUndo h h' horderly .none #[0x62, 0x63, 0x64] 0 (Nat.zero_le _)⟩

/-- 数える輪を空回りの検査で早く抜けると、捨てた回の捕獲が残り、範囲が変わる例。 -/
theorem matchAt_withUndo_counted :
    ∃ re re' v v', Regex.compile { pattern := Pattern.ascii "(?:()(?:a|))\x7b20\x7d(?=a)" } = .ok re ∧
      compileWithUndo { pattern := Pattern.ascii "(?:()(?:a|))\x7b20\x7d(?=a)" } = .ok re' ∧
      (re.matcher .unlimited .none #[0x61] 0).Returns 0 v ∧
      (re'.matcher .unlimited .none #[0x61] 0).Returns 0 v' ∧
      v.length = some 0 ∧ (Region.ofCaptures v.caps).group 1 = some (1, 1) ∧
      v'.length = some 0 ∧ (Region.ofCaptures v'.caps).group 1 = some (0, 0) := by
  obtain ⟨re, h, hrun⟩ := exists_ok
    (x := Regex.compile { pattern := Pattern.ascii "(?:()(?:a|))\x7b20\x7d(?=a)" })
    (p := fun re => (((re.matcher .unlimited .none #[0x61] 0).matchAt 1000 0).bind Result.toOption).any
      fun v => v.length == some 0 && (Region.ofCaptures v.caps).group 1 == some (1, 1)) (by decide +kernel)
  obtain ⟨re', h', hrun'⟩ := exists_ok
    (x := compileWithUndo { pattern := Pattern.ascii "(?:()(?:a|))\x7b20\x7d(?=a)" })
    (p := fun re => (((re.matcher .unlimited .none #[0x61] 0).matchAt 1000 0).bind Result.toOption).any
      fun v => v.length == some 0 && (Region.ofCaptures v.caps).group 1 == some (0, 0)) (by decide +kernel)
  obtain ⟨v, hv, hok⟩ := exists_some_ok hrun
  obtain ⟨v', hv', hok'⟩ := exists_some_ok hrun'
  simp only [Bool.and_eq_true, beq_iff_eq] at hok hok'
  exact ⟨re, re', v, v', h, h', ⟨1000, hv⟩, ⟨1000, hv'⟩, hok.1, hok.2, hok'.1, hok'.2⟩

end Regex
end MultibyteRegex

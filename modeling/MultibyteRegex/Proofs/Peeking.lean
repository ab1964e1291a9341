import MultibyteRegex.Proofs.Restoring

/-!
# 先頭バイトの手がかり

上限のない欲張りな繰り返しは、本体や後に続くものの始まるバイトを見て、積む分岐を減らす。減らすのは必ず失敗する
分岐だけなので、どの捕獲も取り消せる木では、手がかりがあってもなくても、照合の終わる所も捕獲も同じになる。
-/

namespace MultibyteRegex

/-- 先頭バイトを見ない命令。 -/
def Instruction.withoutHint : Instruction → Instruction
  | .pushOrJump addr _ => .push addr
  | .pushIfPeek addr _ => .push addr
  | .anyStar newline _ => .anyStar newline none
  | i => i

/-- 先頭バイトの手がかりのない繰り返し。 -/
def Loop.withoutHints (l : Loop) : Loop := { l with head := none, next := none }

namespace Node

mutual
/-- どの繰り返しにも先頭バイトの手がかりのない木。 -/
def withoutHints : Node → Node
  | .list nodes => .list (allWithoutHints nodes)
  | .alt nodes => .alt (allWithoutHints nodes)
  | .loop l body => .loop l.withoutHints body.withoutHints
  | .scoped inner body => .scoped inner body.withoutHints
  | .group kind body => .group kind body.withoutHints
  | node => node

def allWithoutHints : List Node → List Node
  | [] => []
  | n :: ns => n.withoutHints :: allWithoutHints ns
end

end Node

/-! ## 合い方 -/

section

variable {α : Type} {l : Loop} {bot : α} {R : Cont α → Cont α} {F : Cont α} {fuel : Nat}

theorem Loop.explore_withoutHints : ∀ k,
    l.withoutHints.explore bot R F fuel k = l.explore bot R F fuel k := by
  induction fuel with
  | zero => exact fun _ => rfl
  | succ fuel ih =>
    intro k
    simp only [explore, ih]
    rfl

theorem LoopShape.explore_withoutHints (shape : LoopShape) :
    shape.explore l.withoutHints bot fuel R F = shape.explore l bot fuel R F := by
  have hplan : shape.plan l.withoutHints = ((shape.plan l).1, (shape.plan l).2.withoutHints) := by
    cases shape with
    | ring copies jumpIn => cases jumpIn <;> rfl
    | _ => rfl
  rw [explore, hplan, Loop.explore_withoutHints]
  rfl

end

namespace Node

variable {env : CodeEnv} {x : Setting} {t : FoldTable} {groups : Nat}

namespace Alike

variable {n n' n'' : Node}

theorem trans (h : Alike env x n n') (h' : Alike env x n' n'') : Alike env x n n'' where
  size options := (h'.size options).trans (h.size options)
  count top := (h'.count top).trans (h.count top)
  any := h'.any.trans h.any
  minLength := h'.minLength.trans h.minLength
  hasCapture := h'.hasCapture.trans h.hasCapture
  explore bot fuel options F := (h'.explore bot fuel options F).trans (h.explore bot fuel options F)

theorem unhinted (l : Loop) (n : Node) : Alike env x (.loop l n) (.loop l.withoutHints n) :=
  ⟨fun _ => rfl, fun _ => rfl, rfl, rfl, rfl, fun _ _ _ _ => LoopShape.explore_withoutHints _⟩

end Alike

mutual
theorem alike_withoutHints : (n : Node) → Alike env x n n.withoutHints
  | .list ns => .list (allAlike_withoutHints ns)
  | .alt ns => .alt (allAlike_withoutHints ns)
  | .loop l body => ((alike_withoutHints body).loop l).trans (.unhinted l _)
  | .scoped inner body => (alike_withoutHints body).under inner
  | .group kind body => (alike_withoutHints body).group kind
  | .empty | .str _ | .raw _ | .cclass _ | .word _ | .any | .anchor _ | .backref _ => .refl _

theorem allAlike_withoutHints : (ns : List Node) → List.Forall₂ (Alike env x) ns (allWithoutHints ns)
  | [] => .nil
  | n :: ns => .cons (alike_withoutHints n) (allAlike_withoutHints ns)
end

mutual
theorem unmarked_withoutHints : (n : Node) → n.withoutHints.unmarked = n.unmarked
  | .list ns | .alt ns => unmarkedIn_withoutHints ns
  | .loop _ body | .scoped _ body => unmarked_withoutHints body
  | .group (.capture n undo) body => by
    simp only [withoutHints, unmarked, unmarked_withoutHints body]
  | .group .atomic body | .group .ahead body | .group .notAhead body | .group .behind body
  | .group .notBehind body => unmarked_withoutHints body
  | .empty | .str _ | .raw _ | .cclass _ | .word _ | .any | .anchor _ | .backref _ => rfl

theorem unmarkedIn_withoutHints : (ns : List Node) → unmarkedIn (allWithoutHints ns) = unmarkedIn ns
  | [] => rfl
  | n :: ns => by
    simp only [allWithoutHints, unmarkedIn, unmarked_withoutHints n, unmarkedIn_withoutHints ns]
end

mutual
theorem wellFormed_withoutHints : (n : Node) → n.WellFormed groups → n.withoutHints.WellFormed groups
  | .list ns, h | .alt ns, h => allWellFormed_withoutHints ns h
  | .loop _ body, h => ⟨h.1, wellFormed_withoutHints body h.2⟩
  | .scoped _ body, h => wellFormed_withoutHints body h
  | .group (.capture ..) body, h | .group .atomic body, h | .group .ahead body, h
  | .group .notAhead body, h | .group .behind body, h | .group .notBehind body, h =>
    ⟨h.1, wellFormed_withoutHints body h.2⟩
  | .empty, _ | .str _, _ | .raw _, _ | .cclass _, _ | .word _, _ | .any, _ | .anchor _, _
  | .backref _, _ => trivial

theorem allWellFormed_withoutHints : (ns : List Node) → AllWellFormed groups ns →
    AllWellFormed groups (allWithoutHints ns)
  | [], _ => trivial
  | n :: ns, h => ⟨wellFormed_withoutHints n h.1, allWellFormed_withoutHints ns h.2⟩
end

theorem next?_withoutHints (n : Node) : n.withoutHints.next? = none := by
  cases n <;> rfl

theorem silent_withoutHints {n : Node} (h : n.unmarked = []) : n.withoutHints.Silent :=
  silent_of_unmarked ((unmarked_withoutHints n).trans h)

mutual
/-- 手がかりがなければ、手がかりの正しさを求めない。 -/
theorem ready_withoutHints : (n : Node) → {options : Options} → n.unmarked = [] → n.Ready t options →
    n.withoutHints.Ready t options
  | .list ns, _, hu, h => readyList_withoutHints ns hu h
  | .alt ns, _, hu, h => readyAlt_withoutHints ns hu h
  | .loop l body, options, hu, h => by
    obtain ⟨-, -, hpos, -, hready⟩ := h
    have halike : Alike { encoding := .ascii, fold := none } ⟨.ascii, .ascii, #[], 0, .none⟩ body
        body.withoutHints := alike_withoutHints body
    refine ⟨.inr (silent_withoutHints hu), nofun, fun hupper hne => ?_, next?_withoutHints body,
      ready_withoutHints body hu hready⟩
    rw [halike.minLength]
    exact hpos hupper hne
  | .scoped _ body, _, hu, h => ⟨next?_withoutHints body, ready_withoutHints body hu h.2⟩
  | .group (.capture n undo) body, _, hu, h => by
    cases undo with
    | false => cases hu
    | true => exact ⟨next?_withoutHints body, ready_withoutHints body hu h.2⟩
  | .group .atomic body, _, hu, h | .group .ahead body, _, hu, h | .group .behind body, _, hu, h =>
    ⟨next?_withoutHints body, ready_withoutHints body hu h.2⟩
  | .group .notAhead body, _, hu, h | .group .notBehind body, _, hu, h =>
    ⟨silent_withoutHints hu, next?_withoutHints body, ready_withoutHints body hu h.2.2⟩
  | .cclass _, _, _, h => h
  | .empty, _, _, _ | .str _, _, _, _ | .raw _, _, _, _ | .word _, _, _, _ | .any, _, _, _
  | .anchor _, _, _, _ | .backref _, _, _, _ => trivial

theorem readyList_withoutHints : (ns : List Node) → {options : Options} → unmarkedIn ns = [] →
    ReadyList t options ns → ReadyList t options (allWithoutHints ns)
  | [], _, _, _ => trivial
  | n :: ns, _, hu, h => by
    obtain ⟨hn, hns⟩ := List.append_eq_nil_iff.1 hu
    refine ⟨fun b hb => ?_, ready_withoutHints n hn h.2.1, readyList_withoutHints ns hns h.2.2⟩
    rw [next?_withoutHints] at hb
    cases hb

theorem readyAlt_withoutHints : (ns : List Node) → {options : Options} → unmarkedIn ns = [] →
    ReadyAlt t options ns → ReadyAlt t options (allWithoutHints ns)
  | [], _, _, _ => trivial
  | n :: ns, _, hu, h => by
    obtain ⟨hn, hns⟩ := List.append_eq_nil_iff.1 hu
    exact ⟨silent_withoutHints hn, next?_withoutHints n, ready_withoutHints n hn h.2.2.1,
      readyAlt_withoutHints ns hns h.2.2.2⟩
end

end Node

/-! ## 命令 -/

namespace Emit

/-- 生成した命令から先頭バイトの検査を除く。 -/
def withoutHints (a : Emit) : Emit := fun c =>
  (a c).map fun (code, c') => (code.map Instruction.withoutHint, c')

variable {a b : Emit}

theorem withoutHints_append : (a.append b).withoutHints = a.withoutHints.append b.withoutHints := by
  funext c
  simp only [withoutHints, append]
  cases a c with
  | error e => rfl
  | ok p =>
    obtain ⟨xs, d⟩ := p
    simp only [Except.map]
    cases b d with
    | error e => rfl
    | ok p => simp

theorem withoutHints_jumpTo (f : Int → Instruction) (n : Nat) :
    (jumpTo f n).withoutHints = jumpTo (fun addr => (f addr).withoutHint) n := by
  funext c
  unfold withoutHints jumpTo
  cases relative n <;> rfl

theorem withoutHints_times (n : Nat) : (a.times n).withoutHints = a.withoutHints.times n := by
  induction n with
  | zero => rfl
  | succ n ih => rw [times, withoutHints_append, ih, times]

theorem withoutHints_optionalTimes (size n : Nat) :
    (a.optionalTimes size n).withoutHints = a.withoutHints.optionalTimes size n := by
  induction n with
  | zero => rfl
  | succ n ih =>
    rw [optionalTimes, withoutHints_append, withoutHints_append, ih, withoutHints_jumpTo, optionalTimes]
    rfl

theorem withoutHints_between (first last : Instruction) : (CodeEnv.between first last a).withoutHints =
    CodeEnv.between first.withoutHint last.withoutHint a.withoutHints := by
  rw [CodeEnv.between, withoutHints_append, withoutHints_append]
  rfl

theorem withoutHints_guarded (empty : EmptyBody) :
    (guarded empty a).withoutHints = guarded empty a.withoutHints := by
  cases empty with
  | never => rfl
  | possible | possibleWithCaptures =>
    funext c
    exact congrFun (withoutHints_between _ _) _

theorem withoutHints_ring (l : Loop) (size : Nat) :
    (a.ring l size).withoutHints = a.withoutHints.ring l.withoutHints size := by
  obtain ⟨lower, upper, greedy, empty, head, next⟩ := l
  cases greedy with
  | false =>
    refine withoutHints_append.trans ?_
    rw [withoutHints_append, withoutHints_guarded, withoutHints_jumpTo, withoutHints_jumpTo]
    rfl
  | true =>
    refine withoutHints_append.trans ?_
    rw [withoutHints_append, withoutHints_guarded, withoutHints_jumpTo, withoutHints_jumpTo]
    cases head <;> cases next <;> rfl

theorem withoutHints_counted (l : Loop) (size : Nat) :
    (a.counted l size).withoutHints = a.withoutHints.counted l.withoutHints size := by
  funext c
  refine (congrFun withoutHints_append _).trans ?_
  rw [withoutHints_append, withoutHints_guarded, withoutHints_jumpTo]
  rfl

/-- 手がかりを除いた繰り返しは、先頭バイトの検査を除いた命令になる。 -/
theorem withoutHints_loop (options : Options) (l : Loop) (size : Nat) (shape : LoopShape) :
    (a.loop options l size shape).withoutHints =
      a.withoutHints.loop options l.withoutHints size shape := by
  cases shape with
  | nothing => rfl
  | anyStar =>
    rw [loop, withoutHints_append, withoutHints_times]
    rfl
  | ring copies jumpIn =>
    refine withoutHints_append.trans ?_
    rw [withoutHints_ring]
    cases jumpIn
    · exact congrArg (append · _) (withoutHints_times copies)
    · rfl
  | unrolled required extra =>
    refine withoutHints_append.trans ?_
    rw [withoutHints_times, withoutHints_optionalTimes]
    rfl
  | lazyOptional =>
    refine (withoutHints_append (a := instr (.push 1))).trans ?_
    rw [withoutHints_append, withoutHints_jumpTo]
    rfl
  | counted => exact withoutHints_counted l size

end Emit

theorem Instruction.withoutHint_of_isLeaf {i : Instruction} (h : i.isLeaf) : i.withoutHint = i := by
  cases i <;> first | rfl | cases h

theorem Emit.map_withoutHint_of_isLeaf {code : List Instruction} (h : ∀ i ∈ code, i.isLeaf) (c : Counters) :
    Emit.withoutHints (fun c => .ok (code, c)) c = .ok (code, c) := by
  have hcode : code.map Instruction.withoutHint = code :=
    (List.map_congr_left fun i hi => Instruction.withoutHint_of_isLeaf (h i hi)).trans (List.map_id code)
  simp only [withoutHints, Except.map, hcode]

namespace CodeEnv

variable {env : CodeEnv}

theorem size_withoutHints (n : Node) (options : Options) :
    env.size options n.withoutHints = env.size options n :=
  (Node.alike_withoutHints (x := ⟨.ascii, .ascii, #[], 0, .none⟩) n).size options

theorem charsBehind_withoutHints (n : Node) : env.charsBehind n.withoutHints = env.charsBehind n := by
  have hcount : n.withoutHints.charCount env.encoding = n.charCount env.encoding :=
    (Node.alike_withoutHints (x := ⟨.ascii, .ascii, #[], 0, .none⟩) n).count true
  rw [charsBehind, hcount]
  rfl

theorem of_withoutHints (limit : Nat) (l : Loop) (body : Node) (size : Nat) :
    LoopShape.of limit l.withoutHints body.withoutHints size = LoopShape.of limit l body size := by
  have hany : LoopShape.isAny body.withoutHints = LoopShape.isAny body := by cases body <;> rfl
  simp only [LoopShape.of, hany]
  rfl

mutual
/-- 手がかりのない木の命令は、元の木の命令から先頭バイトの検査を除いたものである。 -/
theorem emit_withoutHints : (n : Node) → {options : Options} →
    env.emit options n.withoutHints = (env.emit options n).withoutHints
  | .list ns, _ => emitList_withoutHints ns
  | .alt ns, _ => emitAlt_withoutHints ns
  | .scoped _ body, _ => emit_withoutHints body
  | .loop l body, options => by
    funext c
    simp only [Node.withoutHints, emit, Emit.withoutHints, size_withoutHints]
    cases env.size options body with
    | error e => rfl
    | ok size =>
      change Emit.loop (env.emit options body.withoutHints) options l.withoutHints size _ c = _
      rw [of_withoutHints, emit_withoutHints body, ← Emit.withoutHints_loop]
      rfl
  | .group (.capture n undo) body, options => by
    funext c
    simp only [Node.withoutHints, emit, emit_withoutHints body]
    exact (congrFun (Emit.withoutHints_between (.memStart n undo) (.memEnd n undo)) c).symm
  | .group .atomic body, options => by
    funext c
    simp only [Node.withoutHints, emit, emit_withoutHints body]
    exact (congrFun (Emit.withoutHints_between .pushAtomic .popAtomic) c).symm
  | .group .ahead body, options => by
    funext c
    simp only [Node.withoutHints, emit, emit_withoutHints body]
    exact (congrFun (Emit.withoutHints_between .pushPos .popPos) c).symm
  | .group .notAhead body, options => by
    funext c
    simp only [Node.withoutHints, emit, Emit.withoutHints, emit_withoutHints body, size_withoutHints]
    cases env.size options body with
    | error e => rfl
    | ok size =>
      change (relative (size + 1) >>= _) = Except.map _ (relative (size + 1) >>= _)
      cases relative (size + 1) with
      | error e => rfl
      | ok skip => exact (congrFun (Emit.withoutHints_between (.pushPosNot skip) .failPos) c).symm
  | .group .behind body, options => by
    funext c
    simp only [Node.withoutHints, emit, Emit.withoutHints, emit_withoutHints body,
      charsBehind_withoutHints]
    cases env.charsBehind body with
    | error e => rfl
    | ok chars => exact (congrFun (Emit.withoutHints_append (a := .instr (.lookBehind chars))) c).symm
  | .group .notBehind body, options => by
    funext c
    simp only [Node.withoutHints, emit, Emit.withoutHints, emit_withoutHints body,
      charsBehind_withoutHints, size_withoutHints]
    cases env.charsBehind body with
    | error e => rfl
    | ok chars =>
      cases env.size options body with
      | error e => rfl
      | ok size =>
        change (relative (size + 1) >>= _) = Except.map _ (relative (size + 1) >>= _)
        cases relative (size + 1) with
        | error e => rfl
        | ok skip =>
          exact (congrFun (Emit.withoutHints_between (.pushLookBehindNot skip chars) .failLookBehindNot)
            c).symm
  | .empty, _ | .any, _ | .word _, _ | .backref _, _ => rfl
  | .str bytes, options => by
    funext c
    simp only [Node.withoutHints, emit, Emit.withoutHints]
    cases env.foldFor options with
    | error e => rfl
    | ok fold =>
      exact (Emit.map_withoutHint_of_isLeaf (Literal.isLeaf_code env.encoding fold bytes) c).symm
  | .raw bytes, options => by
    funext c
    exact (Emit.map_withoutHint_of_isLeaf (Literal.isLeaf_code env.encoding none bytes) c).symm
  | .cclass cls, options => by
    funext c
    exact (Emit.map_withoutHint_of_isLeaf (by simpa using isLeaf_classInstruction env.encoding cls) c).symm
  | .anchor a, options => by
    funext c
    exact (Emit.map_withoutHint_of_isLeaf (by simpa using isLeaf_anchorInstruction options a) c).symm

theorem emitList_withoutHints : (ns : List Node) → {options : Options} →
    env.emitList options (Node.allWithoutHints ns) = Emit.withoutHints (env.emitList options ns)
  | [], _ => rfl
  | n :: ns, options => by
    funext c
    simp only [Node.allWithoutHints, emitList, emit_withoutHints n, emitList_withoutHints ns]
    exact (congrFun Emit.withoutHints_append c).symm

theorem emitAlt_withoutHints : (ns : List Node) → {options : Options} →
    env.emitAlt options (Node.allWithoutHints ns) = Emit.withoutHints (env.emitAlt options ns)
  | [], _ => rfl
  | [n], _ => emit_withoutHints n
  | n :: n' :: ns, options => by
    have hrest : env.sizeAlt options (Node.allWithoutHints (n' :: ns)) = env.sizeAlt options (n' :: ns) :=
      Node.Alike.sizeAlt (x := ⟨.ascii, .ascii, #[], 0, .none⟩) (Node.allAlike_withoutHints _) options
    have hns : env.emitAlt options (Node.allWithoutHints (n' :: ns)) =
        Emit.withoutHints (env.emitAlt options (n' :: ns)) := emitAlt_withoutHints (n' :: ns)
    simp only [Node.allWithoutHints] at hrest hns
    funext c
    simp only [Node.allWithoutHints, emitAlt, Emit.withoutHints, emit_withoutHints n, hns, hrest,
      size_withoutHints]
    cases env.size options n with
    | error e => rfl
    | ok size =>
      cases env.sizeAlt options (n' :: ns) with
      | error e => rfl
      | ok rest =>
        change _ = Emit.withoutHints (Emit.append _ (Emit.append _ (Emit.append _ _))) c
        rw [Emit.withoutHints_append, Emit.withoutHints_append, Emit.withoutHints_append,
          Emit.withoutHints_jumpTo, Emit.withoutHints_jumpTo]
        rfl
end

/-- 手がかりのない木のプログラムは、元の木のプログラムから先頭バイトの検査を除いたものである。 -/
theorem compile_withoutHints (options : Options) (groups : Nat) (root : Node) :
    env.compile options groups root.withoutHints = (env.compile options groups root).map fun p =>
      { p with code := p.code.map Instruction.withoutHint } := by
  unfold compile
  rw [size_withoutHints, emit_withoutHints]
  cases env.size options root with
  | error e => rfl
  | ok size =>
    change (Emit.withoutHints (env.emit options root) {} >>= _) = Except.map _ (env.emit options root {} >>= _)
    unfold Emit.withoutHints
    cases env.emit options root {} with
    | error e => rfl
    | ok p =>
      obtain ⟨code, counters⟩ := p
      by_cases hsize : code.length = size
      · simp [Except.map, bind, Except.bind, pure, Except.pure, hsize, Instruction.withoutHint]
      · simp [Except.map, bind, Except.bind, throw, throwThe, MonadExceptOf.throw, hsize]

/-! ## 照合の答え -/

variable {options : Options} {groups : Nat} {root : Node} {program : Program} {m m' : Matcher} {origin : Nat}

/-- どの捕獲も取り消せる木では、先頭バイトの検査を除いても、照合は同じ所で終わり、合っても合わなくても同じ
捕獲を残す。 -/
theorem returns_withoutHints (h : env.compile options groups root = .ok program)
    (hw : root.WellFormed groups) (hu : root.unmarked = []) (hr : root.Ready (env.fold.getD .ascii) options)
    (hnext : root.next? = none) (hm : m.limits = .unlimited) (hp : m.program = program)
    (hm' : m' = { m with program := { program with code := program.code.map Instruction.withoutHint } })
    (ho : origin ≤ m.text.size) :
    (∀ v, m'.Returns origin v ↔ m.Returns origin v) ∧ (m'.Aborts origin ↔ m.Aborts origin) := by
  have h' : env.compile options groups root.withoutHints =
      .ok { program with code := program.code.map Instruction.withoutHint } := by
    rw [compile_withoutHints, h]
    rfl
  have hu' : root.withoutHints.unmarked = [] := (Node.unmarked_withoutHints root).trans hu
  have ho' : origin ≤ m'.text.size := by
    rw [hm']
    exact ho
  have hsettles := compile_settles h hw hm hp hr hnext (Node.isOrderly_of_unmarked root hu) ho
  have hsettles' := compile_settles (m := m') h' (Node.wellFormed_withoutHints root hw)
    (by rw [hm', hm]) (by rw [hm']) (Node.ready_withoutHints root hu hr) (Node.next?_withoutHints root)
    (Node.isOrderly_of_unmarked _ hu') ho'
  have hsetting : m'.setting = m.setting := by
    rw [hm']
    simp [Matcher.setting, Matcher.encoding, hp]
  have haccepting : m'.accepting origin = m.accepting origin := by rw [hm']; rfl
  -- 成り行きの決まる歩数は木の合い方だけで決まり、合い方は手がかりによらない
  have htext : m'.text = m.text := by rw [hm']
  have hanswer : ∀ fuel, env.answer? options groups root.withoutHints m' origin fuel =
      env.answer? options groups root m origin fuel := by
    intro fuel
    simp only [answer?, hsetting, haccepting, (Node.alike_withoutHints root).explore]
  have hundoes' : m'.program.Undoes := by
    rw [hm']
    exact compile_undoes h' hu'
  refine ⟨Matcher.returns_iff_of_answers (hp ▸ compile_undoes h hu) hundoes' (by rw [hm', hp]) fun a => ?_, ?_⟩
  · rw [Matcher.returns_iff hsettles ho, Matcher.returns_iff hsettles' ho', htext]
    simp only [hanswer]
  · rw [Matcher.aborts_iff hsettles ho, Matcher.aborts_iff hsettles' ho', htext]
    simp only [hanswer]

end CodeEnv

namespace Regex

/-- どの捕獲も取り消せるようにし、先頭バイトの手がかりを除いて翻訳する。 -/
def compileWithoutHints (s : Source) : Except RegexError Regex := do
  let parsed ← (Pattern.parse s.encoding s.options s.pattern).mapError .parse
  let root ← (parsed.root.prepare ⟨s.encoding, s.fold, parsed.backrefs⟩ s.options).mapError .compile
  let program ← (s.env.compile s.options parsed.groups root.withUndo.withoutHints).mapError .compile
  return { program, plan := .ofHints s.encoding (Hints.ofTree s.encoding s.fold s.options root) }

/-- どの捕獲も取り消せる木では、先頭バイトの手がかりがあってもなくても、どの照合も同じ所で終わり、同じ長さと
捕獲になる。手がかりのない木が翻訳できれば、手がかりのある木も翻訳できる。 -/
theorem matchAt_withoutHints {s : Source} {re' : Regex} (h' : compileWithoutHints s = .ok re') :
    ∃ re, compileWithUndo s = .ok re ∧ ∀ options text start origin result,
      (∃ fuel, (re'.matcher .unlimited options text start).matchAt fuel origin = some result) ↔
        ∃ fuel, (re.matcher .unlimited options text start).matchAt fuel origin = some result := by
  obtain ⟨parsed, hparse, h'⟩ := Except.bind_eq_ok h'
  obtain ⟨root, hprepare, h'⟩ := Except.bind_eq_ok h'
  obtain ⟨program', hcompile', h'⟩ := Except.bind_eq_ok h'
  cases h'
  have hcompile' := Except.mapError_eq_ok hcompile'
  have hmap := s.env.compile_withoutHints s.options parsed.groups root.withUndo
  rw [hcompile'] at hmap
  cases hcompile : s.env.compile s.options parsed.groups root.withUndo with
  | error e =>
    rw [hcompile] at hmap
    cases hmap
  | ok program =>
    rw [hcompile] at hmap
    cases hmap
    refine ⟨{ program, plan := .ofHints s.encoding (Hints.ofTree s.encoding s.fold s.options root) }, ?_, ?_⟩
    · rw [compileWithUndo, hparse]
      change (Except.mapError RegexError.compile (parsed.root.prepare _ _) >>= _) = _
      rw [hprepare]
      change (Except.mapError RegexError.compile (s.env.compile _ _ root.withUndo) >>= _) = _
      rw [hcompile]
      rfl
    · intro options text start origin result
      have hplain := Pattern.plain_parse (Except.mapError_eq_ok hparse)
      have hprepare := Except.mapError_eq_ok hprepare
      have hprepared := Node.prepared_prepare hplain hprepare
      have hw := Node.wellFormed_withUndo root (Node.wellFormed_prepare hplain.wellFormed hprepare)
      let re : Regex := ⟨program, .ofHints s.encoding (Hints.ofTree s.encoding s.fold s.options root)⟩
      have hsame := fun ho : origin ≤ text.size =>
        CodeEnv.returns_withoutHints (m := re.matcher .unlimited options text start) hcompile hw
          (Node.unmarked_withUndo root) (Node.ready_withUndo root hprepared.ready)
          ((Node.next?_withUndo root).trans hprepared.next) rfl rfl rfl ho
      exact Matcher.exists_matchAt_iff (m := re.matcher .unlimited options text start) (by rfl)
        (fun _ e ho => CodeEnv.matchAt_ne_error hcompile hw rfl rfl ho e)
        (fun _ e ho => CodeEnv.matchAt_ne_error hcompile' (Node.wellFormed_withoutHints _ hw) rfl rfl ho e)
        (fun ho => (hsame ho).1) (fun ho => (hsame ho).2) result

/-- 本体の始まりを見る輪、後の文字を見る輪、任意の文字の繰り返しを含み、捕獲に合う例。 -/
theorem matchAt_withoutHints_stars :
    ∃ re re' v, compileWithoutHints { pattern := Pattern.ascii "(ab)*\\w*c.*d" } = .ok re' ∧
      compileWithUndo { pattern := Pattern.ascii "(ab)*\\w*c.*d" } = .ok re ∧
      v.length = some 6 ∧
      (∃ fuel, (re'.matcher .unlimited .none #[0x61, 0x62, 0x61, 0x63, 0x63, 0x64] 0).matchAt fuel 0 =
        some (.ok v)) ∧
      ∃ fuel, (re.matcher .unlimited .none #[0x61, 0x62, 0x61, 0x63, 0x63, 0x64] 0).matchAt fuel 0 =
        some (.ok v) := by
  obtain ⟨re', h', hok⟩ := exists_ok
    (x := compileWithoutHints { pattern := Pattern.ascii "(ab)*\\w*c.*d" })
    (p := fun re => (((re.matcher .unlimited .none #[0x61, 0x62, 0x61, 0x63, 0x63, 0x64] 0).matchAt 60 0).bind
      Result.toOption).any (·.length == some 6)) (by decide +kernel)
  obtain ⟨v, hv, hlength⟩ := exists_some_ok hok
  obtain ⟨re, h, hre⟩ := matchAt_withoutHints h'
  exact ⟨re, re', v, h', h, eq_of_beq hlength, ⟨60, hv⟩, (hre .none _ 0 0 (.ok v)).1 ⟨60, hv⟩⟩

end Regex
end MultibyteRegex

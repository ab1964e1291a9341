import Mathlib.Data.List.Induction
import MultibyteRegex.Proofs.KeySearch

/-!
# 最長の照合

最長を探すと、成功の命令は答えを控えて失敗する。控えた答えは、命令の動きにも後戻りにも触れないので、機械は成功を
すべて失敗とみなした実行と同じ道を通る。その道で成功の命令に着いた所のうち、初めのものがふつうの照合の答えであり、
長さが最も大きいもののうち初めのものが、最長の照合の答えである。
-/

namespace MultibyteRegex

/-! ## 旗 -/

namespace Options

variable {o p f g : Options}

theorem union_inter (o p f : Options) : (o.union p).inter f = (o.inter f).union (p.inter f) := by
  have hbits : (o.bits ||| p.bits) &&& f.bits = o.bits &&& f.bits ||| p.bits &&& f.bits :=
    UInt32.toBitVec_inj.1 BitVec.and_or_distrib_right
  simp [inter, union, hbits]

theorem remove_inter (o f g : Options) : (o.remove g).inter f = o.inter (g.compl.inter f) := by
  simp [remove, inter, UInt32.and_assoc]

theorem union_none (o : Options) : o.union none = o := by
  simp [union, none]

theorem inter_none (o : Options) : o.inter none = none := by
  simp [inter, none]

theorem contains_congr (h : o.inter f = p.inter f) : o.contains f = p.contains f :=
  congrArg (fun q => q.bits == f.bits) h

/-- `g` を立てても下ろしても、`g` と別の旗の有無は変わらない。 -/
theorem contains_toggle (o p : Options) (hoff : g.inter f = none) (hkeep : g.compl.inter f = f) :
    (o.union (p.union g)).contains f = (o.union (p.remove g)).contains f := by
  refine contains_congr ?_
  rw [union_inter, union_inter, union_inter, hoff, union_none, remove_inter, hkeep]

theorem contains_union_self (o p f : Options) : (o.union (p.union f)).contains f := by
  have hbits : (o.bits ||| (p.bits ||| f.bits)) &&& f.bits = f.bits := by
    apply UInt32.toBitVec_inj.1
    refine BitVec.eq_of_getLsbD_eq fun i hi => ?_
    simp only [UInt32.toBitVec_and, UInt32.toBitVec_or, BitVec.getLsbD_and, BitVec.getLsbD_or]
    cases f.bits.toBitVec.getLsbD i <;> simp
  simp [contains, union, hbits]

theorem contains_union_remove (o p : Options) (hf : f.compl.inter f = none) :
    (o.union (p.remove f)).contains f = o.contains f := by
  refine contains_congr ?_
  rw [union_inter, remove_inter, hf, inter_none, union_none]

/-- 照合の旗のうち、命令の条件と空の照合の扱いを決めるものが同じである。 -/
structure SameConditions (o p : Options) : Prop where
  notBol : o.contains .notBol = p.contains .notBol
  notEol : o.contains .notEol = p.contains .notEol
  notEmpty : o.contains .findNotEmpty = p.contains .findNotEmpty

/-- 最長を探す旗は、照合の条件に関わらない。 -/
theorem sameConditions_findLongest (o p : Options) :
    (o.union (p.union .findLongest)).SameConditions (o.union (p.remove .findLongest)) :=
  ⟨contains_toggle o p (by decide) (by decide), contains_toggle o p (by decide) (by decide),
    contains_toggle o p (by decide) (by decide)⟩

end Options

/-! ## 控えた答え -/

/-- 控えた答えだけを替える。 -/
def Registers.withBest (r : Registers) (b : Answer) : Registers := { r with best := b }

/-- 控えた答えの他は同じ動き。どちらも成功では止まらない。 -/
inductive Move.Mirrored (b : Answer) : Except EvalError Move → Except EvalError Move → Prop
  | error (e) : Mirrored b (.error e) (.error e)
  | go (r) : Mirrored b (.ok (.go (r.withBest b))) (.ok (.go r))
  | fail (r) : Mirrored b (.ok (.fail (r.withBest b))) (.ok (.fail r))

namespace Move.Mirrored

variable {b : Answer} {r : Registers} {x : Except EvalError Move}

theorem best_go (h : Mirrored b (.ok (.go r)) x) : r.best = b := by
  generalize hy : Except.ok (Move.go r) = y at h
  cases h <;> cases hy
  rfl

theorem best_fail (h : Mirrored b (.ok (.fail r)) x) : r.best = b := by
  generalize hy : Except.ok (Move.fail r) = y at h
  cases h <;> cases hy
  rfl

end Move.Mirrored

namespace Matcher

section

variable {m : Matcher} {o : Options} {origin : Nat} {r : Registers} {b : Answer}

theorem push_withBest (r : Registers) (f : Frame) :
    { m with options := o }.push (r.withBest b) f = (m.push r f).map (·.withBest b) := by
  unfold push
  cases h : r.stack.push m.limits.depth f <;> simp [Registers.withBest, h, Except.map]

theorem mirrored_push {f : Frame} {k k' : Registers → Except EvalError Move}
    (hk : ∀ r, Move.Mirrored b (k' (r.withBest b)) (k r)) :
    Move.Mirrored b ({ m with options := o }.push (r.withBest b) f >>= k') (m.push r f >>= k) := by
  rw [push_withBest]
  cases m.push r f with
  | error e => exact .error e
  | ok r => exact hk r

theorem mirrored_target {addr : Int} {k k' : Nat → Except EvalError Move}
    (hk : ∀ pc, Move.Mirrored b (k' pc) (k pc)) :
    Move.Mirrored b ((r.withBest b).target addr >>= k') (r.target addr >>= k) := by
  change Move.Mirrored b (r.target addr >>= k') _
  cases r.target addr with
  | error e => exact .error e
  | ok pc => exact hk pc

theorem mirrored_ite {p : Prop} [Decidable p] {x x' y y' : Except EvalError Move}
    (hx : Move.Mirrored b x' x) (hy : Move.Mirrored b y' y) :
    Move.Mirrored b (if p then x' else y') (if p then x else y) := by
  split
  · exact hx
  · exact hy

theorem mirrored_consume (n : Option Nat) (r : Registers) :
    Move.Mirrored b (.ok (.consume n (r.withBest b))) (.ok (.consume n r)) := by
  cases n with
  | none => exact .fail r
  | some n => exact .go (r.moveTo (r.pos + n))

theorem mirrored_check (c : Bool) (r : Registers) :
    Move.Mirrored b (.ok (.check c (r.withBest b))) (.ok (.check c r)) := by
  cases c with
  | false => exact .fail r
  | true => exact .go r.next

theorem anyStar_of_lt {newline : Bool} {peek : Option UInt8} (hp : r.pos < m.text.size) :
    m.anyStar newline peek r =
      (if peek.all (· == m.text[r.pos]) then m.push r (.alt (r.pc + 1) r.pos) else .ok r) >>= fun r' =>
        if !newline && m.text[r.pos] == 0x0a then .ok (.fail r')
        else m.anyStar newline peek { r' with pos := m.encoding.nextHead m.text r.pos } := by
  rw [anyStar, dif_pos hp]
  dsimp only
  cases (if peek.all (· == m.text[r.pos]) then m.push r (.alt (r.pc + 1) r.pos) else .ok r) <;> rfl

theorem anyStar_mirrored (newline : Bool) (peek : Option UInt8) (r : Registers) :
    Move.Mirrored b ({ m with options := o }.anyStar newline peek (r.withBest b)) (m.anyStar newline peek r) := by
  -- 一文字ごとに積むかどうかは、控えた答えに依らない
  have hmore {r : Registers} (hp : r.pos < m.text.size) {pushed : Except EvalError Registers}
      (he : (if peek.all (· == m.text[r.pos]) then m.push r (.alt (r.pc + 1) r.pos) else .ok r) = pushed) :
      { m with options := o }.anyStar newline peek (r.withBest b) =
        pushed.map (·.withBest b) >>= fun r' =>
          if !newline && m.text[r.pos] == 0x0a then .ok (.fail r')
          else { m with options := o }.anyStar newline peek
            { r' with pos := m.encoding.nextHead m.text r.pos } := by
    refine (anyStar_of_lt (m := { m with options := o }) (r := r.withBest b) hp).trans ?_
    refine congrArg (· >>= _) ?_
    rw [← he]
    change (if peek.all (· == m.text[r.pos]) then
      { m with options := o }.push (r.withBest b) (.alt (r.pc + 1) r.pos) else .ok (r.withBest b)) = _
    cases peek.all (· == m.text[r.pos])
    · rfl
    · exact push_withBest r _
  fun_induction anyStar m newline peek r with
  | case1 r hp c pushed e he =>
    rw [hmore hp he]
    exact .error e
  | case2 r hp c pushed r' he hc =>
    rw [(hmore hp he).trans (if_pos hc)]
    exact .fail r'
  | case3 r hp c pushed r' he hc ih =>
    rw [(hmore hp he).trans (if_neg hc)]
    exact ih
  | case4 r hp =>
    have hp' : ¬(r.withBest b).pos < { m with options := o }.text.size := hp
    rw [anyStar, dif_neg hp']
    exact .go r.next

theorem memStart_mirrored (n : Nat) (undo : Bool) (r : Registers) :
    Move.Mirrored b ({ m with options := o }.memStart n undo (r.withBest b)) (m.memStart n undo r) := by
  simp only [memStart, Registers.withBest]
  cases r.caps[n]? with
  | none => exact .error _
  | some prior =>
    cases undo with
    | false => exact .go { r with caps := r.caps.setIfInBounds n ⟨some r.pos, prior.stop⟩ }.next
    | true => exact mirrored_push fun r' => .go { r' with caps := r'.caps.setIfInBounds n ⟨some r'.pos, none⟩ }.next

theorem memEnd_mirrored (n : Nat) (undo : Bool) (r : Registers) :
    Move.Mirrored b ({ m with options := o }.memEnd n undo (r.withBest b)) (m.memEnd n undo r) := by
  simp only [memEnd, Registers.withBest]
  cases r.caps[n]? with
  | none => exact .error _
  | some prior =>
    cases undo with
    | false => exact .go { r with caps := r.caps.setIfInBounds n ⟨prior.start, some r.pos⟩ }.next
    | true =>
      exact mirrored_push fun r' => .go { r' with caps := r'.caps.setIfInBounds n ⟨prior.start, some r'.pos⟩ }.next

theorem repeatStart_mirrored (id : Nat) (addr : Int) (greedy : Bool) (r : Registers) :
    Move.Mirrored b ({ m with options := o }.repeatStart id addr greedy (r.withBest b))
      (m.repeatStart id addr greedy r) := by
  unfold repeatStart
  cases m.program.repeats[id]? with
  | none => exact .error _
  | some bounds =>
    exact mirrored_target fun exit => mirrored_push fun r => mirrored_ite (.go r.next)
      (mirrored_ite (mirrored_push fun r => .go r.next) (mirrored_push fun r => .go (r.jump exit)))

theorem nullCheckEnd_mirrored (id : Nat) (captures : Bool) (r : Registers) :
    Move.Mirrored b ({ m with options := o }.nullCheckEnd id captures (r.withBest b))
      (m.nullCheckEnd id captures r) := by
  simp only [nullCheckEnd, Registers.withBest]
  cases r.stack.findNullCheck? id with
  | none => exact .error _
  | some mark => exact mirrored_ite (mirrored_ite (.go (r.jump (r.pc + 2))) (.error _)) (.go r.next)

theorem repeatNext_mirrored (id : Nat) (greedy : Bool) (r : Registers) :
    Move.Mirrored b ({ m with options := o }.repeatNext id greedy (r.withBest b)) (m.repeatNext id greedy r) := by
  simp only [repeatNext]
  cases m.program.repeats[id]? with
  | none => exact .error _
  | some bounds =>
    simp only [Registers.withBest]
    cases r.stack.findRepeat? id with
    | none => exact .error _
    | some index =>
      dsimp only
      cases r.stack.repeatAt? index with
      | none => exact .error _
      | some at_ =>
        cases r.stack.setCount? index (· + 1) with
        | none => exact .error _
        | some stack =>
          have hgo (r : Registers) (more : Bool) : Move.Mirrored b
              (.ok (.go (if more then (r.withBest b).jump at_.1 else (r.withBest b).next)))
              (.ok (.go (if more then r.jump at_.1 else r.next))) := by
            cases more
            · exact .go r.next
            · exact .go (r.jump at_.1)
          dsimp only
          rw [show { r with stack, best := b } = Registers.withBest { r with stack } b from rfl]
          generalize { r with stack } = r
          exact mirrored_ite
            (mirrored_ite (mirrored_push fun _ => mirrored_push fun _ => hgo ..) (mirrored_push fun _ => hgo ..))
            (mirrored_ite
              (mirrored_push fun r => mirrored_ite (mirrored_push fun r => .go r.next) (.go (r.jump at_.1)))
              (mirrored_ite (mirrored_push fun r => .go r.next) (.go r.next)))

theorem failThrough_mirrored (mark : Frame → Bool) (r : Registers) :
    Move.Mirrored b (failThrough mark (r.withBest b)) (failThrough mark r) := by
  simp only [failThrough, Registers.withBest]
  cases (r.stack.popThrough mark r.caps).result with
  | error e => exact .error e
  | ok =>
    let p := r.stack.popThrough mark r.caps
    exact .fail { r with stack := p.stack, caps := p.caps }

/-- 成功の他の命令は、控えた答えにも、最長を探すかどうかにも依らずに動く。 -/
theorem execute_mirrored (ho : o.SameConditions m.options) {i : Instruction} (hi : i ≠ .accept) (r : Registers) :
    Move.Mirrored b ({ m with options := o }.execute origin i (r.withBest b)) (m.execute origin i r) := by
  cases i with
  | accept => exact absurd rfl hi
  | anyStar newline peek => exact anyStar_mirrored newline peek r
  | memStart n undo => exact memStart_mirrored n undo r
  | memEnd n undo => exact memEnd_mirrored n undo r
  | fail => exact .fail r
  | jump addr => exact mirrored_target fun pc => .go (r.jump pc)
  | push addr => exact mirrored_target fun _ => mirrored_push fun r => .go r.next
  | pushOrJump addr c => exact mirrored_target fun pc => mirrored_ite (mirrored_push fun r => .go r.next) (.go (r.jump pc))
  | pushIfPeek addr c =>
    exact mirrored_ite (mirrored_target fun _ => mirrored_push fun r => .go r.next) (.go r.next)
  | repeatStart id addr greedy => exact repeatStart_mirrored id addr greedy r
  | repeatNext id greedy => exact repeatNext_mirrored id greedy r
  | nullCheckStart id captures => exact mirrored_push fun r => .go r.next
  | nullCheckEnd id captures => exact nullCheckEnd_mirrored id captures r
  | pushPos => exact mirrored_push fun r => .go r.next
  | popPos =>
    simp only [execute, Registers.withBest]
    obtain ⟨_ | pos, stack⟩ := r.stack.voidToPos
    · exact .error _
    · exact .go ({ r with stack }.moveTo pos)
  | pushPosNot addr => exact mirrored_target fun _ => mirrored_push fun r => .go r.next
  | failPos => exact failThrough_mirrored _ r
  | pushAtomic => exact mirrored_push fun r => .go r.next
  | popAtomic =>
    simp only [execute, Registers.withBest]
    obtain ⟨_ | _, stack⟩ := r.stack.voidToAtomic
    · exact .error _
    · exact .go { r with stack }.next
  | lookBehind chars =>
    simp only [execute, Registers.withBest]
    rw [show ({ m with options := o } : Matcher).encoding = m.encoding from rfl]
    cases m.encoding.stepBack m.text 0 r.pos chars with
    | none => exact .fail r
    | some pos => exact .go (r.moveTo pos)
  | pushLookBehindNot addr chars =>
    refine mirrored_target fun pc => ?_
    rw [show ({ m with options := o } : Matcher).encoding = m.encoding from rfl,
      show (r.withBest b).pos = r.pos from rfl]
    cases m.encoding.stepBack m.text 0 r.pos chars with
    | none => exact .go (r.jump pc)
    | some pos => exact mirrored_push fun r => .go (r.moveTo pos)
  | failLookBehindNot => exact failThrough_mirrored _ r
  | semiEndBuf =>
    simp only [execute, ho.notEol]
    exact mirrored_check _ r
  | beginLine perLine =>
    simp only [execute, ho.notBol]
    exact mirrored_check _ r
  | endLine perLine =>
    simp only [execute, ho.notEol]
    exact mirrored_check _ r
  | wordBound atBound | wordBegin | wordEnd | beginBuf | endBuf | beginPosition => exact mirrored_check _ r
  | _ => exact mirrored_consume _ r

end
end Matcher

/-! ## 一歩 -/

/-- 控えた答えの他は同じ一歩。続くなら、もとの機械は答えを控えていない。止まるなら、控えた答えがそのまま答えになる。 -/
inductive Progress.Mirrored (b : Answer) : Except EvalError Progress → Except EvalError Progress → Prop
  | error (e) : Mirrored b (.error e) (.error e)
  | running (r) : r.best = none → Mirrored b (.ok (.running (r.withBest b))) (.ok (.running r))
  | done (v v') : v'.answer = b → Mirrored b (.ok (.done v')) (.ok (.done v))

namespace Progress.Mirrored

variable {b : Answer} {x : Except EvalError Progress}

theorem best_running {r : Registers} (h : Mirrored b (.ok (.running r)) x) : r.best = b := by
  generalize hy : Except.ok (Progress.running r) = y at h
  cases h <;> cases hy
  rfl

theorem answer_done {v : Verdict} (h : Mirrored b (.ok (.done v)) x) : v.answer = b := by
  generalize hy : Except.ok (Progress.done v) = y at h
  cases h with
  | done w v' hv =>
    cases hy
    exact hv
  | _ => cases hy

end Progress.Mirrored

namespace Matcher

/-- 成功の命令に着いた所。 -/
def arrival (m : Matcher) (r : Registers) : List Outcome :=
  if m.program.code[r.pc]? = some .accept then [⟨r.pos, r.caps⟩] else []

/-- 成功を失敗とみなした一歩。 -/
def pass (m : Matcher) (origin : Nat) (r : Registers) : Except EvalError Progress :=
  if m.program.code[r.pc]? = some .accept then m.backtrack r else m.step origin r

/-- 成功をすべて失敗とみなして最後まで続け、成功の命令に着いた所を順に並べる。 -/
def arrivals (m : Matcher) (origin : Nat) : Nat → Registers → Fueled (List Outcome)
  | 0, _ => none
  | fuel + 1, r =>
    match m.pass origin r with
    | .error e => some (.error e)
    | .ok (.done _) => some (.ok (m.arrival r))
    | .ok .aborted => some .aborted
    | .ok (.running r') => (m.arrivals origin fuel r').map (·.map (m.arrival r ++ ·))

/-- 空の照合を失敗とみなすときは、長さのない所では成功しない。 -/
def admits (m : Matcher) (origin : Nat) (o : Outcome) : Bool :=
  !(m.options.contains .findNotEmpty && o.pos - origin == 0)

/-- 成功の命令に着いた所から決まる答え。 -/
def found (origin : Nat) (o : Outcome) : Nat × Captures :=
  (o.pos - origin, o.caps.setIfInBounds 0 ⟨some origin, some o.pos⟩)

/-- これまでより長い照合だけを控える。 -/
def record (origin : Nat) (best : Answer) (o : Outcome) : Answer :=
  if best.all (·.1 < (found origin o).1) then some (found origin o) else best

variable {m : Matcher} {o : Options} {origin fuel : Nat} {r : Registers} {b : Answer} {os : List Outcome}

theorem backtrack_mirrored (h : r.best = none) :
    Progress.Mirrored b ({ m with options := o }.backtrack (r.withBest b)) (m.backtrack r) := by
  simp only [backtrack, Registers.withBest, h]
  cases (r.stack.popResume r.caps).result with
  | error e => exact .error e
  | ok target =>
    cases target with
    | none => cases b <;> exact .done _ _ rfl
    | some t =>
      have hite {p : Prop} [Decidable p] {x' y' x y : Except EvalError Progress}
          (hx : Progress.Mirrored b x' x) (hy : Progress.Mirrored b y' y) :
          Progress.Mirrored b (if p then x' else y') (if p then x else y) := by
        split <;> assumption
      let p := r.stack.popResume r.caps
      exact hite (.error _) (.running ⟨t.1, t.2, p.caps, p.stack, r.retries + 1, none⟩ rfl)

/-- 成功の他の命令は、控えた答えを変えない。 -/
theorem execute_best {i : Instruction} (hi : i ≠ .accept) {r' : Registers}
    (he : m.execute origin i r = .ok (.go r') ∨ m.execute origin i r = .ok (.fail r')) : r'.best = r.best := by
  have hself : Move.Mirrored r.best (m.execute origin i r) (m.execute origin i r) :=
    execute_mirrored (o := m.options) ⟨rfl, rfl, rfl⟩ hi r
  rcases he with he | he
  · rw [he] at hself
    exact hself.best_go
  · rw [he] at hself
    exact hself.best_fail

/-- 控えた答えは、成功を失敗とみなした一歩に触れない。 -/
theorem pass_mirrored (ho : o.SameConditions m.options) (h : r.best = none) :
    Progress.Mirrored b ({ m with options := o }.pass origin (r.withBest b)) (m.pass origin r) := by
  unfold pass
  change Progress.Mirrored b (if m.program.code[r.pc]? = some .accept then _ else _) _
  by_cases hacc : m.program.code[r.pc]? = some .accept
  · rw [if_pos hacc, if_pos hacc]
    exact backtrack_mirrored h
  · rw [if_neg hacc, if_neg hacc]
    unfold step
    rw [show (r.withBest b).pc = r.pc from rfl]
    cases hi : m.program.code[r.pc]? with
    | none => exact .error _
    | some i =>
      have hne : i ≠ .accept := fun he => hacc (hi.trans (congrArg some he))
      have hx : Move.Mirrored b (Matcher.execute { m with options := o } origin i (r.withBest b))
          (m.execute origin i r) := execute_mirrored ho hne r
      have hbest (r' : Registers) (he : m.execute origin i r = .ok (.go r') ∨ m.execute origin i r = .ok (.fail r')) :
          r'.best = r.best := execute_best hne he
      dsimp only
      generalize m.execute origin i r = x at hx hbest
      generalize Matcher.execute { m with options := o } origin i (r.withBest b) = x' at hx
      cases hx with
      | error e => exact .error e
      | go r' => exact .running r' ((hbest r' (.inl rfl)).trans h)
      | fail r' => exact backtrack_mirrored ((hbest r' (.inr rfl)).trans h)

/-- 答えを控えていなければ、成功を失敗とみなした一歩は何も控えない。 -/
theorem pass_self (h : r.best = none) : Progress.Mirrored none (m.pass origin r) (m.pass origin r) := by
  have hr : r.withBest none = r := by
    obtain ⟨pc, pos, caps, stack, retries, best⟩ := r
    cases h
    rfl
  have hself : Progress.Mirrored none (m.pass origin (r.withBest none)) (m.pass origin r) :=
    pass_mirrored (o := m.options) ⟨rfl, rfl, rfl⟩ h
  rwa [hr] at hself

theorem arrivals_succ (h : m.arrivals origin (fuel + 1) r = some (.ok os)) :
    (∃ w, m.pass origin r = .ok (.done w) ∧ os = m.arrival r) ∨
      ∃ r' later, m.pass origin r = .ok (.running r') ∧ m.arrivals origin fuel r' = some (.ok later) ∧
        os = m.arrival r ++ later := by
  unfold arrivals at h
  cases hp : m.pass origin r with
  | error e =>
    rw [hp] at h
    cases h
  | ok p =>
    rw [hp] at h
    cases p with
    | done w =>
      cases h
      exact .inl ⟨w, rfl, rfl⟩
    | aborted => cases h
    | running r' =>
      obtain ⟨x, hx, h⟩ := Option.map_eq_some_iff.1 h
      cases x with
      | error e => cases h
      | aborted => cases h
      | ok later =>
        cases h
        exact .inr ⟨r', later, rfl, hx, rfl⟩

/-- 一歩のうちに成功と認める所。 -/
def admitted (m : Matcher) (origin : Nat) (r : Registers) : List Outcome :=
  (m.arrival r).filter (m.admits origin)

/-- 成功の命令で認めるのは、空の照合を失敗とみなすのでなければ、そこで着いた所である。 -/
theorem admitted_of_accept (h : m.program.code[r.pc]? = some .accept) :
    m.admitted origin r =
      if m.options.contains .findNotEmpty && r.pos - origin == 0 then [] else [⟨r.pos, r.caps⟩] := by
  unfold admitted arrival
  rw [if_pos h, List.filter_cons, List.filter_nil]
  unfold admits
  dsimp only
  cases m.options.contains .findNotEmpty && r.pos - origin == 0 <;> rfl

theorem admitted_of_ne (h : m.program.code[r.pc]? ≠ some .accept) : m.admitted origin r = [] := by
  rw [admitted, arrival, if_neg h, List.filter_nil]

theorem step_of_fail {r' : Registers} (h : m.program.code[r.pc]? = some .accept)
    (hr : m.accept origin r = .fail r') : m.step origin r = m.backtrack r' := by
  unfold step
  rw [h]
  simp only [execute, hr]

theorem step_of_stop {v : Verdict} (h : m.program.code[r.pc]? = some .accept)
    (hv : m.accept origin r = .stop v) : m.step origin r = .ok (.done v) := by
  unfold step
  rw [h]
  simp only [execute, hv]

/-- 成功の他の命令では打ち切られない。 -/
theorem execute_ne_abort {i : Instruction} (hi : i ≠ .accept) : m.execute origin i r ≠ .ok .abort := by
  intro he
  have hself : Move.Mirrored r.best (m.execute origin i r) (m.execute origin i r) :=
    execute_mirrored (o := m.options) ⟨rfl, rfl, rfl⟩ hi r
  rw [he] at hself
  cases hself

/-- 一歩で打ち切られるのは、始まりより前で成功の命令に着いているときである。 -/
theorem step_eq_aborted_iff :
    m.step origin r = .ok .aborted ↔ m.program.code[r.pc]? = some .accept ∧ r.pos < origin := by
  constructor
  · intro h
    unfold step at h
    cases hi : m.program.code[r.pc]? with
    | none => simp [hi] at h
    | some i =>
      simp only [hi] at h
      have habort : m.execute origin i r = .ok .abort := by
        split at h
        · cases h
        · cases h
        · unfold backtrack at h
          dsimp only at h
          repeat' split at h
          all_goals cases h
        · cases h
        · assumption
      obtain rfl : i = .accept := Classical.not_not.1 fun hi => execute_ne_abort hi habort
      refine ⟨rfl, Nat.lt_of_not_le fun hle => ?_⟩
      simp only [execute, accept, Nat.not_lt.2 hle, if_false] at habort
      repeat' split at habort
      all_goals cases habort
  · rintro ⟨hi, hlt⟩
    simp only [step, hi, execute, accept, hlt, if_true]

/-- 打ち切られた照合は、始まりより前で成功の命令に着いている。 -/
theorem exists_accept_of_aborted (hr : m.Reachable origin r) (h : m.run origin fuel r = some .aborted) :
    ∃ r', m.Reachable origin r' ∧ m.program.code[r'.pc]? = some .accept ∧ r'.pos < origin := by
  induction fuel generalizing r with
  | zero => cases h
  | succ fuel ih =>
    unfold run at h
    split at h
    · cases h
    · cases h
    · rename_i hs
      exact ⟨r, hr, step_eq_aborted_iff.1 hs⟩
    · rename_i hs
      exact ih (.step hr hs) h

/-- 最長を探すときの一歩は、打ち切られなければ、認める所を控えてから、成功を失敗とみなして進む。 -/
theorem step_of_longest (hl : m.options.contains .findLongest)
    (hle : m.program.code[r.pc]? = some .accept → origin ≤ r.pos) :
    m.step origin r = m.pass origin (r.withBest ((m.admitted origin r).foldl (record origin) r.best)) := by
  by_cases h : m.program.code[r.pc]? = some .accept
  · have hpass : ∀ b, m.pass origin (r.withBest b) = m.backtrack (r.withBest b) := fun b => if_pos h
    rw [admitted_of_accept h, hpass]
    refine step_of_fail h ?_
    unfold accept
    dsimp only
    rw [if_neg (Nat.not_lt.2 (hle h))]
    by_cases hempty : m.options.contains .findNotEmpty && r.pos - origin == 0
    · rw [if_pos hempty, if_pos hempty]
      rfl
    · rw [if_neg hempty, if_neg hempty, if_pos hl]
      by_cases hlonger : r.best.all (·.1 < r.pos - origin)
      · rw [if_pos hlonger]
        exact congrArg (fun b => Move.fail (r.withBest b)) (if_pos hlonger).symm
      · rw [if_neg hlonger]
        exact congrArg (fun b => Move.fail (r.withBest b)) (if_neg hlonger).symm
  · rw [admitted_of_ne h]
    exact (if_neg h).symm

/-- 最長を探さないときの一歩は、打ち切られなければ、認める所があればそれを答え、なければ成功を失敗とみなして
進む。 -/
theorem step_of_first (hl : m.options.contains .findLongest = false)
    (hle : m.program.code[r.pc]? = some .accept → origin ≤ r.pos) :
    m.step origin r = match m.admitted origin r with
      | [] => m.pass origin r
      | o :: _ => .ok (.done ⟨some (found origin o).1, (found origin o).2⟩) := by
  by_cases h : m.program.code[r.pc]? = some .accept
  · have hpass : m.pass origin r = m.backtrack r := if_pos h
    rw [admitted_of_accept h, hpass]
    have hlt := Nat.not_lt.2 (hle h)
    by_cases hempty : m.options.contains .findNotEmpty && r.pos - origin == 0
    · rw [if_pos hempty]
      exact step_of_fail h ((if_neg hlt).trans (if_pos hempty))
    · rw [if_neg hempty]
      refine step_of_stop h ((if_neg hlt).trans ((if_neg hempty).trans (if_neg ?_)))
      simp [hl]
  · rw [admitted_of_ne h]
    exact (if_neg h).symm

/-! ## 実行 -/

/-- 止まるまで実行すれば、成功の命令に着いた所はどれも始まりより前でなく、認める所を順に控えた結果が、最長の照合の
答えになる。 -/
theorem run_longest (ho : o.SameConditions m.options) (hl : o.contains .findLongest) (h : r.best = none)
    {v : Verdict} (hv : { m with options := o }.run origin fuel (r.withBest b) = some (.ok v)) :
    ∃ os, m.arrivals origin fuel r = some (.ok os) ∧ (∀ p ∈ os, origin ≤ p.pos) ∧
      v.answer = (os.filter (m.admits origin)).foldl (record origin) b := by
  induction fuel generalizing r b with
  | zero => cases hv
  | succ fuel ih =>
    have hadmits : { m with options := o }.admitted origin (r.withBest b) = m.admitted origin r := by
      have hsame : { m with options := o }.admits origin = m.admits origin := by
        funext p
        simp only [admits, ho.notEmpty]
      unfold admitted
      rw [hsame]
      rfl
    have hle : m.program.code[r.pc]? = some .accept → origin ≤ r.pos := by
      refine fun hi => Nat.le_of_not_lt fun hlt => ?_
      have habort : { m with options := o }.step origin (r.withBest b) = .ok .aborted :=
        step_eq_aborted_iff.2 ⟨hi, hlt⟩
      unfold run at hv
      rw [habort] at hv
      cases hv
    have harrival : ∀ p ∈ m.arrival r, origin ≤ p.pos := by
      intro p hp
      unfold arrival at hp
      split at hp
      · rename_i hi
        obtain rfl := List.mem_singleton.1 hp
        exact hle hi
      · cases hp
    unfold run at hv
    rw [step_of_longest (m := { m with options := o }) (r := r.withBest b) hl hle, hadmits] at hv
    change (match { m with options := o }.pass origin
      (r.withBest ((m.admitted origin r).foldl (record origin) b)) with
      | .error e => _ | .ok (.done v) => _ | .ok .aborted => _ | .ok (.running r) => _) = _ at hv
    generalize hb' : (m.admitted origin r).foldl (record origin) b = b' at hv
    have hpass : Progress.Mirrored b' (Matcher.pass { m with options := o } origin (r.withBest b')) (m.pass origin r) :=
      pass_mirrored ho h
    unfold arrivals
    generalize m.pass origin r = x at hpass
    generalize Matcher.pass { m with options := o } origin (r.withBest b') = x' at hpass hv
    cases hpass with
    | error e => cases hv
    | done w v' hw =>
      cases hv
      exact ⟨_, rfl, harrival, by rw [hw, ← hb', admitted]⟩
    | running r' hr' =>
      obtain ⟨os, hos, hpos, hv⟩ := ih hr' hv
      refine ⟨m.arrival r ++ os, by simp [hos, Result.map], List.forall_mem_append.2 ⟨harrival, hpos⟩, ?_⟩
      rw [hv, List.filter_append, List.foldl_append, ← hb', admitted]

/-- 止まるまで実行すれば、認める所のうち初めのものが、ふつうの照合の答えになる。 -/
theorem run_first (hl : m.options.contains .findLongest = false) (h : r.best = none)
    (hos : m.arrivals origin fuel r = some (.ok os)) (hpos : ∀ p ∈ os, origin ≤ p.pos) :
    ∃ w, m.run origin fuel r = some (.ok w) ∧
      w.answer = (os.filter (m.admits origin)).head?.map (found origin) := by
  induction fuel generalizing r os with
  | zero => cases hos
  | succ fuel ih =>
    have hself : Progress.Mirrored none (m.pass origin r) (m.pass origin r) := pass_self h
    have hle : m.program.code[r.pc]? = some .accept → origin ≤ r.pos := by
      intro hi
      have harrival : (⟨r.pos, r.caps⟩ : Outcome) ∈ m.arrival r := by simp [arrival, hi]
      rcases arrivals_succ hos with ⟨w, -, rfl⟩ | ⟨r', later, -, -, rfl⟩
      · exact hpos _ harrival
      · exact hpos _ (List.mem_append_left _ harrival)
    unfold run
    rw [step_of_first hl hle]
    cases hadm : m.admitted origin r with
    | cons p ps =>
      -- 一歩のうちに認める所があれば、それが初めのものになる
      refine ⟨_, rfl, ?_⟩
      have hfirst : ∀ later, ((m.arrival r ++ later).filter (m.admits origin)).head? = some p := by
        intro later
        rw [List.filter_append]
        change (m.admitted origin r ++ _).head? = _
        rw [hadm]
        rfl
      rcases arrivals_succ hos with ⟨w, -, rfl⟩ | ⟨r', later, -, -, rfl⟩
      · rw [← List.append_nil (m.arrival r), hfirst]
        rfl
      · rw [hfirst]
        rfl
    | nil =>
      change (m.arrival r).filter (m.admits origin) = [] at hadm
      dsimp only
      rcases arrivals_succ hos with ⟨w, hw, rfl⟩ | ⟨r', later, hr', hlater, rfl⟩
      · rw [hw] at hself ⊢
        exact ⟨w, rfl, by rw [hself.answer_done, hadm]; rfl⟩
      · rw [hr'] at hself ⊢
        rw [List.filter_append, hadm]
        exact ih hself.best_running hlater fun p hp => hpos p (List.mem_append_right _ hp)

/-! ## 最も長いもののうち初めのもの -/

/-- 並びの中で、長さが最も大きいもののうち初めのものである。 -/
def FirstLongest (origin : Nat) (os : List Outcome) (o : Outcome) : Prop :=
  ∃ before after, os = before ++ o :: after ∧
    (∀ p ∈ before, p.pos - origin < o.pos - origin) ∧ ∀ p ∈ after, p.pos - origin ≤ o.pos - origin

theorem FirstLongest.le {p : Outcome} (h : FirstLongest origin os p) :
    ∀ q ∈ os, q.pos - origin ≤ p.pos - origin := by
  obtain ⟨before, after, rfl, hbefore, hafter⟩ := h
  intro q hq
  rcases List.mem_append.1 hq with hq | hq
  · exact Nat.le_of_lt (hbefore q hq)
  · rcases List.mem_cons.1 hq with rfl | hq
    · exact Nat.le_refl _
    · exact hafter q hq

theorem FirstLongest.ne_nil {p : Outcome} (h : FirstLongest origin os p) : os ≠ [] := by
  obtain ⟨before, after, rfl, -⟩ := h
  simp

/-- 順に控えて残るのは、最も長いもののうち初めのものである。 -/
theorem foldl_record (os : List Outcome) : (os = [] ∧ os.foldl (record origin) none = none) ∨
    ∃ p, FirstLongest origin os p ∧ os.foldl (record origin) none = some (found origin p) := by
  induction os using List.reverseRecOn with
  | nil => exact .inl ⟨rfl, rfl⟩
  | append_singleton os q ih =>
    right
    rw [List.foldl_concat]
    rcases ih with ⟨rfl, hbest⟩ | ⟨p, hp, hbest⟩
    · rw [hbest]
      exact ⟨q, ⟨[], [], rfl, nofun, nofun⟩, rfl⟩
    · rw [hbest]
      by_cases hlonger : p.pos - origin < q.pos - origin
      · refine ⟨q, ⟨os, [], rfl, fun p' hp' => Nat.lt_of_le_of_lt (hp.le p' hp') hlonger, nofun⟩, ?_⟩
        exact if_pos (decide_eq_true hlonger)
      · obtain ⟨before, after, rfl, hbefore, hafter⟩ := hp
        refine ⟨p, ⟨before, after ++ [q], by simp, hbefore, ?_⟩, ?_⟩
        · intro p' hp'
          rcases List.mem_append.1 hp' with hp' | hp'
          · exact hafter p' hp'
          · rw [List.mem_singleton.1 hp']
            exact Nat.not_lt.1 hlonger
        · exact if_neg fun h => hlonger (of_decide_eq_true h)

end Matcher

namespace Regex

variable {s : Source} {re : Regex} {text : Text} {start fuel x : Nat}

/-- 最長を探す照合が答えを返せば、ふつうの照合も答えを返し、合うかどうかは同じである。合うなら、成功をすべて失敗と
みなした実行が着く所のうち、長さが最も大きいもののうち初めのものを答える。打ち切られるのは、始まりより前で成功の命令に
着いたときである。 -/
theorem matchAt_findLongest (h : Regex.compile s = .ok re) (hs : s.options.contains .findLongest = false)
    (options : Options) (text : Text) (start : Nat) {result : Result Verdict}
    (hresult : (re.matcher .unlimited (options.union .findLongest) text start).matchAt fuel x = some result) :
    let m := re.matcher .unlimited (options.remove .findLongest) text start
    if text.size < x then
      result = .error .invalidArgument ∧ m.matchAt fuel x = some (.error .invalidArgument)
    else
      (result = .aborted ∧ ∃ r, (re.matcher .unlimited (options.union .findLongest) text start).Reachable x r ∧
        re.program.code[r.pc]? = some .accept ∧ r.pos < x) ∨
      ∃ v w os, result = .ok v ∧ m.matchAt fuel x = some (.ok w) ∧
        m.arrivals x fuel { pc := 0, pos := x, caps := .fresh re.program.groups } = some (.ok os) ∧
        (∀ p ∈ os, x ≤ p.pos) ∧ (v.length = none ↔ w.length = none) ∧
        ∀ n, v.length = some n → ∃ o, Matcher.FirstLongest x (os.filter (m.admits x)) o ∧
          n = o.pos - x ∧ v.caps = o.caps.setIfInBounds 0 ⟨some x, some o.pos⟩ ∧
          ∃ k ≤ n, w.length = some k := by
  intro m
  have hoptions : re.program.options = s.options := by
    obtain ⟨parsed, root, -, -, hcompile, -⟩ := compile_eq_ok h
    obtain ⟨size, code, counters, -, -, hprogram⟩ := CodeEnv.compile_eq_ok hcompile
    rw [hprogram]
  split
  · rename_i hout
    have hrefuse : ∀ options, (re.matcher .unlimited options text start).matchAt fuel x =
        some (.error .invalidArgument) := fun _ => if_pos hout
    rw [hrefuse] at hresult
    cases hresult
    exact ⟨rfl, hrefuse _⟩
  · rename_i hin
    have hx : x ≤ text.size := Nat.not_lt.1 hin
    have hrun : ∀ options, (re.matcher .unlimited options text start).matchAt fuel x =
        (re.matcher .unlimited options text start).run x fuel
          { pc := 0, pos := x, caps := .fresh re.program.groups } := fun _ => if_neg hin
    cases result with
    | error e => exact absurd hresult (matchAt_ne_error h hx e)
    | aborted =>
      rw [hrun] at hresult
      exact .inl ⟨rfl, Matcher.exists_accept_of_aborted .start hresult⟩
    | ok v =>
      right
      rw [hrun] at hresult
      obtain ⟨os, hos, hpos, hv⟩ := Matcher.run_longest (m := m) (b := none)
        (r := { pc := 0, pos := x, caps := .fresh re.program.groups })
        (Options.sameConditions_findLongest re.program.options options)
        (Options.contains_union_self re.program.options options .findLongest) rfl hresult
      have hfirst : m.options.contains .findLongest = false := by
        rw [← hs, ← hoptions]
        exact Options.contains_union_remove re.program.options options (by decide)
      obtain ⟨w, hw, hwa⟩ := Matcher.run_first hfirst rfl hos hpos
      refine ⟨v, w, os, rfl, (hrun _).trans hw, hos, hpos, ?_⟩
      rcases Matcher.foldl_record (os.filter (m.admits x)) with ⟨hnil, hbest⟩ | ⟨o, ho, hbest⟩
      · rw [hbest] at hv
        rw [hnil] at hwa
        have hvn : v.length = none := Option.map_eq_none_iff.1 hv
        have hwn : w.length = none := Option.map_eq_none_iff.1 hwa
        exact ⟨iff_of_true hvn hwn, fun n hn => by rw [hvn] at hn; cases hn⟩
      · obtain ⟨n, hn, hfound⟩ := Option.map_eq_some_iff.1 (hv.trans hbest)
        obtain ⟨q, qs, hq⟩ := List.exists_cons_of_ne_nil ho.ne_nil
        rw [hq] at hwa
        obtain ⟨k, hk, hkq⟩ := Option.map_eq_some_iff.1 hwa
        obtain ⟨rfl, hcaps⟩ := Prod.mk.inj hfound
        obtain ⟨rfl, -⟩ := Prod.mk.inj hkq
        refine ⟨iff_of_false (by simp [hn]) (by simp [hk]), fun n' hn' => ?_⟩
        obtain rfl : _ = n' := Option.some.inj (hn.symm.trans hn')
        exact ⟨o, ho, rfl, hcaps, _, ho.le q (by rw [hq]; exact List.mem_cons_self), hk⟩

/-- 短い枝を先に試すので、ふつうの照合は初めに着いた長さ 1 を、最長の照合は後で着いた長さ 3 を答える。 -/
theorem matchAt_findLongest_alternatives :
    ∃ re v, Regex.compile { pattern := Pattern.ascii "(a|ab)(c)?" } = .ok re ∧
      Options.none.contains .findLongest = false ∧
      (re.matcher .unlimited (Options.none.union .findLongest) #[0x61, 0x62, 0x63] 0).matchAt 40 0 =
        some (.ok v) ∧
      v.length = some 3 ∧
      let m := re.matcher .unlimited (Options.none.remove .findLongest) #[0x61, 0x62, 0x63] 0
      ∃ w os o, m.matchAt 40 0 = some (.ok w) ∧ w.length = some 1 ∧
        m.arrivals 0 40 { pc := 0, pos := 0, caps := .fresh re.program.groups } = some (.ok os) ∧
        Matcher.FirstLongest 0 (os.filter (m.admits 0)) o ∧ o.pos = 3 := by
  obtain ⟨re, h, hre⟩ := exists_ok (x := Regex.compile { pattern := Pattern.ascii "(a|ab)(c)?" })
    (p := fun re =>
      (((re.matcher .unlimited (Options.none.union .findLongest) #[0x61, 0x62, 0x63] 0).matchAt 40 0).bind
          Result.toOption).any (fun v => v.length = some 3) &&
        (((re.matcher .unlimited (Options.none.remove .findLongest) #[0x61, 0x62, 0x63] 0).matchAt 40 0).bind
          Result.toOption).any fun w => w.length = some 1) (by decide +kernel)
  obtain ⟨hlong, hshort⟩ := Bool.and_eq_true_iff.1 hre
  obtain ⟨v, hv, hlength⟩ := exists_some_ok hlong
  obtain ⟨w, hw, hfirst⟩ := exists_some_ok hshort
  have hall := matchAt_findLongest h (by decide) .none #[0x61, 0x62, 0x63] 0 hv
  rw [if_neg (by decide)] at hall
  obtain ⟨habort, -⟩ | ⟨v', w', os, hv', hw', hos, -, -, hlongest⟩ := hall
  · cases habort
  cases hv'
  cases hw.symm.trans hw'
  obtain ⟨o, ho, hn, -⟩ := hlongest 3 (of_decide_eq_true hlength)
  exact ⟨re, v, h, by decide, hv, of_decide_eq_true hlength, w, os, o, hw, of_decide_eq_true hfirst, hos, ho,
    hn.symm⟩

end Regex
end MultibyteRegex

import MultibyteRegex.Regex
import MultibyteRegex.Proofs.Compilation

/-!
# 内部の誤りが起きないこと

翻訳したプログラムの実行は、いつも命令の列の中にあり、括弧や輪を閉じる命令は自分の目印を見つける。
照合の途中で起きうる誤りは、上限を越えたことだけである。
-/

namespace MultibyteRegex

theorem exists_ok {ε α : Type} {x : Except ε α} {p : α → Bool} (h : x.toOption.any p) :
    ∃ a, x = .ok a ∧ p a := by
  cases x with
  | error e => cases h
  | ok a => exact ⟨a, rfl, h⟩

theorem exists_some_ok {α : Type} {x : Fueled α} {p : α → Bool} (h : (x.bind Result.toOption).any p) :
    ∃ a, x = some (.ok a) ∧ p a := by
  match x, h with
  | some (.ok a), h => exact ⟨a, rfl, h⟩

namespace CodeEnv

variable {env : CodeEnv} {options : Options} {groups : Nat} {root : Node} {program : Program}

theorem compile_eq_ok (h : env.compile options groups root = .ok program) :
    ∃ size code counters, env.size options root = .ok size ∧
      env.emit options root {} = .ok (code, counters) ∧
      program = {
        code := (code ++ [Instruction.accept]).toArray
        encoding := env.encoding
        options
        fold := env.fold.getD .ascii
        groups
        repeats := counters.repeats.toArray
        nullChecks := counters.nullChecks } := by
  obtain ⟨size, hs, h⟩ := Except.bind_eq_ok h
  obtain ⟨⟨code, counters⟩, hc, h⟩ := Except.bind_eq_ok h
  dsimp only at h
  split at h
  · cases h
  · cases h
    exact ⟨size, code, counters, hs, hc, rfl⟩

/-- 翻訳したプログラムの命令には、始まりから終わりまで約束を付けられる。 -/
theorem compile_verified (h : env.compile options groups root = .ok program)
    (hw : root.WellFormed groups) {m : Matcher} (hm : m.program = program) (origin : Nat) :
    ∃ T : Nat → Assertion, Verified m ⟨root.Spans env m options origin, env.Passage m root.behinds⟩ T ∧ T 0 [] origin ∧
      ∀ q, (T q).InScope (m.program.scopeAt q) := by
  obtain ⟨size, code, counters, hs, hc, rfl⟩ := compile_eq_ok h
  let E : Assertion := fun ms s => ms = [] ∧ s = origin
  have hcode : CodeAt m.program 0 (code ++ [Instruction.accept]) := by
    intro j i hj
    rw [hm, Nat.zero_add]
    simpa using hj
  have hE : E.InScope (m.program.scopeAt 0) := by
    rintro ms s ⟨rfl, -⟩
    rfl
  have hF : E.Fresh {} := by
    rintro ms s ⟨rfl, -⟩ f hf
    cases hf
  have hw' : root.WellFormed m.program.groups := by
    rw [hm]
    exact hw
  have hbody := (emit_meets (honours_passage root.behinds (root.Spans env m options origin)) root
    (List.Subset.refl _) hw' hs).triple hc
    (by simp [hm]) (L := fun _ _ _ => False) hE hF
  have hscope := hcode.left.scopeAt_balanced ((emit_regular root hs).balanced hc)
  obtain ⟨A, hA, hrange, hentry, hallows⟩ := (hbody.append (X := fun _ _ => False)
    (.instr (by rw [hscope]; exact hE.after _) fun T _ _ ms t ⟨s, ⟨_, hs⟩, ht⟩ => hs ▸ ht)) hcode
  refine ⟨A, fun q ms s hq => ?_, ?_, hA⟩
  · obtain ⟨i, hi, ha⟩ := hallows q ms s hq
    refine ⟨i, hi, ha.mono fun q ms s h => ?_⟩
    rcases h with h | ⟨_, h⟩ | h
    · exact h
    · exact h.elim
    · exact h.elim
  · rcases hentry [] origin ⟨rfl, rfl⟩ with h | ⟨_, h⟩
    · exact h
    · exact h.elim

end CodeEnv

theorem Instruction.Allows.closes {m : Matcher} {Q : Promise} {T : Nat → Assertion} {pc pos : Nat}
    {ms : List Frame} {i : Instruction} {o : Opener} (h : i.Allows m Q T pc ms pos)
    (ho : i.closes? = some o) : ∃ f ms', ms = f :: ms' ∧ f.opener? = some o := by
  cases i <;> cases ho
  · obtain ⟨_, _, b, k, ms', _, he, _⟩ := h
    exact ⟨_, ms', he, rfl⟩
  · obtain ⟨_, _, ms', he, _⟩ := h
    exact ⟨_, ms', he, rfl⟩
  · obtain ⟨_, ms', he, _⟩ := h
    exact ⟨_, ms', he, rfl⟩
  · obtain ⟨_, _, ms', he⟩ := h
    exact ⟨_, ms', he, rfl⟩
  · obtain ⟨ms', he, _⟩ := h
    exact ⟨_, ms', he, rfl⟩
  · obtain ⟨_, _, ms', he⟩ := h
    exact ⟨_, ms', he, rfl⟩

namespace Matcher

/-- `origin` から始まる照合で着く状態。 -/
inductive Reachable (m : Matcher) (origin : Nat) : Registers → Prop
  | start : Reachable m origin { pc := 0, pos := origin, caps := .fresh m.program.groups }
  | step {r r'} : Reachable m origin r → m.step origin r = .ok (.running r') →
      Reachable m origin r'

/-- `o` を閉じる命令の目印が、積み重ねの最も新しい `o` の枠である。その下には、外側の括弧や輪の目印が
命令を囲む順に並ぶ。 -/
def OwnMarker (m : Matcher) (r : Registers) (o : Opener) : Prop :=
  ∃ above f below ms, r.stack = above ++ f :: below ∧ f.opener? = some o ∧
    (∀ g ∈ above, g.opener? ≠ some o) ∧ Nested ms below ∧
    (f :: ms).map Frame.opener? = (m.program.scopeAt r.pc).map some

/-- 一歩の前の状態に矛盾がない。 -/
structure Consistent (m : Matcher) (origin : Nat) (r : Registers) : Prop where
  inCode : r.pc < m.program.code.size
  /-- 閉じる命令は、自分の目印を見つける。 -/
  ownMarker : ∀ i o, m.program.code[r.pc]? = some i → i.closes? = some o → m.OwnMarker r o
  /-- 回数を増やしたことの記録は、数える繰り返しの枠を指す。 -/
  liveRepeat : ∀ (above : Stack) (index : Nat) (below : Stack),
    r.stack = above ++ .repeatNext index :: below → (below.repeatAt? index).isSome
  onlyLimits : ∀ e, m.step origin r = .error e → e = .stackLimitExceeded ∨ e = .retryLimitExceeded

variable {m : Matcher} {Q : Promise} {T : Nat → Assertion} {origin : Nat} {r : Registers}

theorem holds_start (hT : T 0 [] origin) :
    Holds m Q T origin { pc := 0, pos := origin, caps := .fresh m.program.groups } :=
  ⟨⟨.nil, by simp [Captures.fresh], fun _ _ hb => by cases hb⟩, [], .nil, hT⟩

theorem Reachable.holds (hv : Verified m Q T) (hT : T 0 [] origin) (h : m.Reachable origin r) :
    Holds m Q T origin r := by
  induction h with
  | start => exact holds_start hT
  | step _ hs ih =>
    have hsound := step_sound hv ih
    rw [hs] at hsound
    exact hsound

theorem consistent_of_holds (hv : Verified m Q T) (hT : ∀ q, (T q).InScope (m.program.scopeAt q))
    (h : Holds m Q T origin r) : m.Consistent origin r := by
  obtain ⟨ms, hn, hnow⟩ := h.now
  obtain ⟨i, hi, ha⟩ := hv _ _ _ hnow
  refine ⟨(Array.getElem?_eq_some_iff.1 hi).1, ?_, fun above index below hs => h.live.repeatAt? hs,
    fun e he => ?_⟩
  · intro j o hj ho
    cases hi.symm.trans hj
    obtain ⟨f, ms, rfl, hf⟩ := ha.closes ho
    obtain ⟨above, below, hst, hne, -, hb⟩ := hn.split hf
    exact ⟨above, f, below, ms, hst, hf, hne, hb, hT _ _ _ hnow⟩
  · have hs := step_sound hv h
    rw [he] at hs
    exact hs.imp And.left And.left

end Matcher

section

variable {env : CodeEnv} {options : Options} {groups : Nat} {root : Node} {program : Program}
  (h : env.compile options groups root = .ok program) (hw : root.WellFormed groups) {m : Matcher}
  (hp : m.program = program) {fuel origin : Nat}
include h hw hp

/-- 木の合う所がどれも始まりより前で終わらなければ、照合が打ち切られることはない。 -/
theorem CodeEnv.matchAt_ne_aborted (hforward : ∀ t, root.Spans env m options origin t → origin ≤ t) :
    m.matchAt fuel origin ≠ some .aborted := by
  intro he
  obtain ⟨T, hv, hT, -⟩ := compile_verified h hw hp origin
  unfold Matcher.matchAt at he
  split at he
  · cases he
  · obtain ⟨t, hlt, hspans⟩ := (Matcher.run_sound hv (Matcher.holds_start hT)).2.2 he
    exact absurd (hforward t hspans) (Nat.not_le.2 hlt)

/-- 上限がなければ、本文の中から始めた照合が誤りで終わることはない。 -/
theorem CodeEnv.matchAt_ne_error (hm : m.limits = .unlimited) (ho : origin ≤ m.text.size) (e : EvalError) :
    m.matchAt fuel origin ≠ some (.error e) := by
  intro he
  obtain ⟨T, hv, hT, -⟩ := compile_verified h hw hp origin
  unfold Matcher.matchAt at he
  rw [if_neg (Nat.not_lt.2 ho)] at he
  rcases (Matcher.run_sound hv (Matcher.holds_start hT)).1 e he with ⟨-, hd⟩ | ⟨-, hr⟩
  · exact hd (by rw [hm]; rfl)
  · exact hr (by rw [hm]; rfl)

end

namespace Regex

theorem compile_eq_ok {s : Source} {re : Regex} (h : Regex.compile s = .ok re) :
    ∃ parsed root, Pattern.parse s.encoding s.options s.pattern = .ok parsed ∧
      parsed.root.prepare ⟨s.encoding, s.fold, parsed.backrefs⟩ s.options = .ok root ∧
      CodeEnv.compile { encoding := s.encoding, fold := s.fold } s.options parsed.groups root =
        .ok re.program ∧
      re.plan = .ofHints s.encoding (Hints.ofTree s.encoding s.fold s.options root) := by
  obtain ⟨parsed, hp, h⟩ := Except.bind_eq_ok h
  obtain ⟨root, hr, h⟩ := Except.bind_eq_ok h
  obtain ⟨program, hc, h⟩ := Except.bind_eq_ok h
  cases h
  exact ⟨parsed, root, Except.mapError_eq_ok hp, Except.mapError_eq_ok hr, Except.mapError_eq_ok hc,
    rfl⟩

/-- どの正規表現の、どの本文の、どの位置からの照合も、内部の誤りで止まらない。 -/
theorem matchAt_consistent {s : Source} {re : Regex} (h : Regex.compile s = .ok re)
    (limits : Limits) (options : Options) (text : Text) (start origin : Nat) :
    (∀ fuel e, (re.matcher limits options text start).matchAt fuel origin = some (.error e) →
      e = .stackLimitExceeded ∨ e = .retryLimitExceeded ∨
        e = .invalidArgument ∧ text.size < origin) ∧
    ∀ r, (re.matcher limits options text start).Reachable origin r →
      (re.matcher limits options text start).Consistent origin r := by
  obtain ⟨parsed, root, hparse, hprepare, hcompile, -⟩ := compile_eq_ok h
  have hw : root.WellFormed parsed.groups :=
    Node.wellFormed_prepare (Pattern.plain_parse hparse).wellFormed hprepare
  obtain ⟨T, hv, hT, hscope⟩ := CodeEnv.compile_verified hcompile hw
    (m := re.matcher limits options text start) rfl origin
  refine ⟨fun fuel e he => ?_, fun r hr => Matcher.consistent_of_holds hv hscope (hr.holds hv hT)⟩
  unfold Matcher.matchAt at he
  split at he
  · rename_i hlt
    cases he
    exact .inr (.inr ⟨rfl, hlt⟩)
  · rcases (Matcher.run_sound hv (Matcher.holds_start hT)).1 e he with ⟨h, -⟩ | ⟨h, -⟩
    · exact .inl h
    · exact .inr (.inl h)

theorem matchAt_consistent_nested :
    ∃ re, Regex.compile { pattern := Pattern.ascii "((?>a|b)+(?=c)|)*" } = .ok re ∧
      (∀ fuel e, (re.matcher .unlimited .none #[0x61, 0x63] 0).matchAt fuel 0 = some (.error e) →
        e = .stackLimitExceeded ∨ e = .retryLimitExceeded ∨
          e = .invalidArgument ∧ #[0x61, 0x63].size < 0) ∧
      ∀ r, (re.matcher .unlimited .none #[0x61, 0x63] 0).Reachable 0 r →
        (re.matcher .unlimited .none #[0x61, 0x63] 0).Consistent 0 r := by
  obtain ⟨re, h, -⟩ := exists_ok (x := Regex.compile { pattern := Pattern.ascii "((?>a|b)+(?=c)|)*" })
    (p := fun _ => true) (by decide +kernel)
  exact ⟨re, h, matchAt_consistent h .unlimited .none #[0x61, 0x63] 0 0⟩

end Regex
end MultibyteRegex

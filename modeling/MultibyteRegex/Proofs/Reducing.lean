import MultibyteRegex.Proofs.Stacking

/-!
# じかに重なる繰り返し

じかに重なる繰り返しは、同じ働きの一つに直す。直しても、試す合い方の順は、すでに試した合い方を除けば変わらない。
控えめな `+?` に `*` か `+` が付くときだけは、短い方から試す一つに直すと、長い方から試していた順が変わる。
-/

namespace MultibyteRegex

/-- 木を書き換えてから、命令に直す。 -/
def CodeEnv.translate (env : CodeEnv) (backrefs : List Nat) (options : Options) (groups : Nat) (n : Node) :
    Except CompileError Program := do
  let root ← n.prepare ⟨env.encoding, env.fold, backrefs⟩ options
  env.compile options groups root

namespace CodeEnv

/-- 書き換えた木が、書き直す前の捕獲を読まない。 -/
def isOrderlyRoot (env : CodeEnv) (backrefs : List Nat) (options : Options) (n : Node) : Bool :=
  (n.prepare ⟨env.encoding, env.fold, backrefs⟩ options).toOption.all (env.isOrderly options)

/-- 穴の所で繰り返しを直しても、囲む木が、同じ合い方を同じ順に試す。 -/
def keepsOrder (env : CodeEnv) (backrefs : List Nat) (options : Options) (c : Context) (body : Node) (l : Loop) : Bool :=
  c.opensAlike env ⟨env.encoding, env.fold, backrefs⟩ (body.iterate l) (.loop l body)
    (body.keepsOrder env ⟨env.encoding, env.fold, backrefs⟩ l) options false

variable {env : CodeEnv} {backrefs : List Nat} {options : Options} {groups : Nat} {c : Context} {body n root root' : Node}
  {l : Loop} {program program' : Program} {x : Setting}

theorem translate_eq_ok (h : env.translate backrefs options groups n = .ok program) : ∃ root,
    n.prepare ⟨env.encoding, env.fold, backrefs⟩ options = .ok root ∧
      n.prepareAt ⟨env.encoding, env.fold, backrefs⟩ options false = .ok root ∧
      env.compile options groups root = .ok program := by
  obtain ⟨root, hroot, h⟩ := Except.bind_eq_ok h
  refine ⟨root, hroot, ?_, h⟩
  unfold Node.prepare at hroot
  split at hroot
  · cases hroot
  · exact hroot

/-- 直した木で決まる答えは、直さない木でも同じに決まる。 -/
theorem extends_root (hplain : (c.fill (.loop l body)).Plain groups backrefs) (hkeeps : env.keepsOrder backrefs options c body l)
    (h : (c.fill (body.iterate l)).prepareAt ⟨env.encoding, env.fold, backrefs⟩ options false = .ok root)
    (h' : (c.fill (.loop l body)).prepareAt ⟨env.encoding, env.fold, backrefs⟩ options false = .ok root') :
    root.Extends env x options root' := by
  by_cases hne : body.iterate l = .loop l body
  · rw [hne] at h
    cases h.symm.trans h'
    exact .refl root
  have hloop : (Node.loop l body).Plain groups backrefs := c.every_hole hplain
  have hiterate : (c.fill (body.iterate l)).Plain groups backrefs :=
    c.every_fill hplain (Node.plain_iterate hloop.2 hloop.1)
  exact (c.extends_fill (Node.charCountAt_iterate hloop hne _) (fun hkeeps h h' => Node.extends_iterate hloop hne hkeeps h h')
    hiterate.wellFormed h h' hkeeps).1

/-- じかに重なる繰り返しを直しても、直さないのと同じ長さと捕獲に合う。直さない照合は、直した照合が終われば終わる。 -/
theorem returns_iterate (h : env.translate backrefs options groups (c.fill (body.iterate l)) = .ok program)
    (h' : env.translate backrefs options groups (c.fill (.loop l body)) = .ok program')
    (hplain : (c.fill (.loop l body)).Plain groups backrefs) (hkeeps : env.keepsOrder backrefs options c body l)
    (horderly : env.isOrderlyRoot backrefs options (c.fill (body.iterate l)))
    (horderly' : env.isOrderlyRoot backrefs options (c.fill (.loop l body))) {m : Matcher} (hm : m.limits = .unlimited)
    (hp : m.program = program) {origin : Nat} (ho : origin ≤ m.text.size) {v : Verdict} (hv : m.Returns origin v) :
    ∃ v', Matcher.Returns { m with program := program' } origin v' ∧ v'.answer = v.answer := by
  obtain ⟨root, hroot, hat, hcompile⟩ := translate_eq_ok h
  obtain ⟨root', hroot', hat', hcompile'⟩ := translate_eq_ok h'
  have hloop : (Node.loop l body).Plain groups backrefs := c.every_hole hplain
  have hplain' : (c.fill (body.iterate l)).Plain groups backrefs :=
    c.every_fill hplain (Node.plain_iterate hloop.2 hloop.1)
  have hprepared := Node.prepared_prepare hplain' hroot
  have hprepared' := Node.prepared_prepare hplain hroot'
  have horderly : env.isOrderly options root := by simpa [isOrderlyRoot, hroot, Except.toOption] using horderly
  have horderly' : env.isOrderly options root' := by simpa [isOrderlyRoot, hroot', Except.toOption] using horderly'
  have hsettles := compile_settles hcompile (Node.wellFormed_prepare hplain'.wellFormed hroot) hm hp hprepared.ready
    hprepared.next horderly ho
  have hsettles' := compile_settles (m := { m with program := program' }) hcompile'
    (Node.wellFormed_prepare hplain.wellFormed hroot') hm rfl hprepared'.ready hprepared'.next horderly' ho
  have hprograms : program'.encoding = m.program.encoding ∧ program'.fold = m.program.fold := by
    obtain ⟨size, code, counters, -, -, hprogram⟩ := compile_eq_ok hcompile
    obtain ⟨size', code', counters', -, -, hprogram'⟩ := compile_eq_ok hcompile'
    rw [hp, hprogram, hprogram']
    exact ⟨rfl, rfl⟩
  have hsetting : Matcher.setting { m with program := program' } = m.setting := by
    simp only [Matcher.setting, Matcher.encoding, hprograms]
  obtain ⟨fuel, -, ha⟩ := (Matcher.returns_iff hsettles ho v.answer).1 ⟨v, hv, rfl⟩
  obtain ⟨g, hg, hlt⟩ := (((extends_root hplain hkeeps hat hat').carried fuel).and
    (Filter.eventually_gt_atTop m.text.size)).exists
  refine (Matcher.returns_iff hsettles' ho v.answer).2 ⟨g, hlt, ?_⟩
  simp only [answer?, hsetting]
  exact hg (m.accepting_steady origin).below _ (Outlook.Below.refl _) none (.ok v.answer) ha

end CodeEnv

namespace Context

/-- 穴の後に一文字を続けた並びを、二回続ける木。 -/
def twice : Context := .loop { lower := 2, upper := some 2, greedy := true } (.list [] .hole [.str [0x63]])

/-- 空にも合う捕獲に `*` を付けた繰り返し。 -/
def emptiable : Node := .loop Quantifier.star.toLoop (.group (.capture 1 false) (.alt [.str [0x61], .empty]))

theorem returns_iterate_twice : ∃ p p' v,
    CodeEnv.translate { encoding := .ascii, fold := some .ascii } [] .none 1
      (twice.fill (emptiable.iterate Quantifier.plus.toLoop)) = .ok p ∧
    CodeEnv.translate { encoding := .ascii, fold := some .ascii } [] .none 1
      (twice.fill (.loop Quantifier.plus.toLoop emptiable)) = .ok p' ∧
    CodeEnv.keepsOrder { encoding := .ascii, fold := some .ascii } [] .none twice emptiable Quantifier.plus.toLoop ∧
    v.length = some 5 ∧ Matcher.Returns ⟨p, #[0x61, 0x61, 0x63, 0x61, 0x63], 0, .none, .unlimited⟩ 0 v ∧
    ∃ v', Matcher.Returns ⟨p', #[0x61, 0x61, 0x63, 0x61, 0x63], 0, .none, .unlimited⟩ 0 v' ∧ v'.answer = v.answer := by
  obtain ⟨p, hp, hrun⟩ := exists_ok (x := CodeEnv.translate { encoding := .ascii, fold := some .ascii } [] .none 1
      (twice.fill (emptiable.iterate Quantifier.plus.toLoop)))
    (p := fun p => ((Matcher.matchAt ⟨p, #[0x61, 0x61, 0x63, 0x61, 0x63], 0, .none, .unlimited⟩ 150 0).bind
      Result.toOption).any (·.length == some 5)) (by decide +kernel)
  obtain ⟨p', hp', -⟩ := exists_ok (x := CodeEnv.translate { encoding := .ascii, fold := some .ascii } [] .none 1
      (twice.fill (.loop Quantifier.plus.toLoop emptiable))) (p := fun _ => true) (by decide +kernel)
  obtain ⟨v, hv, hlength⟩ := exists_some_ok hrun
  have hkeeps : CodeEnv.keepsOrder { encoding := .ascii, fold := some .ascii } [] .none twice emptiable
      Quantifier.plus.toLoop := by decide +kernel
  have hplain : (twice.fill (.loop Quantifier.plus.toLoop emptiable)).Plain 1 [] :=
    ⟨⟨by simp [Loop.Ordered], rfl, rfl, rfl⟩, ⟨Node.Quantifier.plain_toLoop .plus, Node.Quantifier.plain_toLoop .star,
      ⟨by decide, by decide, rfl⟩, trivial, trivial, trivial⟩, trivial, trivial⟩
  exact ⟨p, p', v, hp, hp', hkeeps, eq_of_beq hlength, ⟨150, hv⟩,
    CodeEnv.returns_iterate hp hp' hplain hkeeps (by decide +kernel) (by decide +kernel) rfl rfl (Nat.zero_le 5) ⟨150, hv⟩⟩

end Context

namespace Node

/-- 一バイトの文字に `+?` を付けた繰り返し。 -/
def lazyRun : Node := .loop Quantifier.lazyPlus.toLoop (.str [0x61])

/-- `(?:a+?)*` は、直すと一文字で止まり、直さなければ最後まで進む。 -/
theorem iterate_lazyRun : ∃ p p' v v',
    CodeEnv.translate { encoding := .ascii, fold := some .ascii } [] .none 0 (lazyRun.iterate Quantifier.star.toLoop) =
      .ok p ∧
    CodeEnv.translate { encoding := .ascii, fold := some .ascii } [] .none 0 (.loop Quantifier.star.toLoop lazyRun) =
      .ok p' ∧
    Matcher.Returns ⟨p, #[0x61, 0x61, 0x61], 0, .none, .unlimited⟩ 0 v ∧
    Matcher.Returns ⟨p', #[0x61, 0x61, 0x61], 0, .none, .unlimited⟩ 0 v' ∧
    v.length = some 1 ∧ v'.length = some 3 := by
  obtain ⟨p, hp, hrun⟩ := exists_ok (x := CodeEnv.translate { encoding := .ascii, fold := some .ascii } [] .none 0
      (lazyRun.iterate Quantifier.star.toLoop))
    (p := fun p => ((Matcher.matchAt ⟨p, #[0x61, 0x61, 0x61], 0, .none, .unlimited⟩ 50 0).bind Result.toOption).any
      (·.length == some 1)) (by decide +kernel)
  obtain ⟨p', hp', hrun'⟩ := exists_ok (x := CodeEnv.translate { encoding := .ascii, fold := some .ascii } [] .none 0
      (.loop Quantifier.star.toLoop lazyRun))
    (p := fun p => ((Matcher.matchAt ⟨p, #[0x61, 0x61, 0x61], 0, .none, .unlimited⟩ 50 0).bind Result.toOption).any
      (·.length == some 3)) (by decide +kernel)
  obtain ⟨v, hv, hlength⟩ := exists_some_ok hrun
  obtain ⟨v', hv', hlength'⟩ := exists_some_ok hrun'
  exact ⟨p, p', v, v', hp, hp', ⟨50, hv⟩, ⟨50, hv'⟩, eq_of_beq hlength, eq_of_beq hlength'⟩

end Node
end MultibyteRegex

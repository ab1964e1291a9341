import MultibyteRegex.Proofs.Narrowing
import MultibyteRegex.Proofs.Surrounding

/-!
# 重ねた繰り返しの木

じかに重なる繰り返しを直した木は、書き換えて命令に直すと、直さない木と同じ答えに決まる。本体に命令がなければ、
どちらも続きに進むだけである。
-/

namespace MultibyteRegex

open Outlook (Within)

namespace Quantifier

theorem not_isFixed (q : Quantifier) : q.toLoop.isFixed = false := by cases q <;> rfl

theorem upper_ne_zero (q : Quantifier) : q.toLoop.upper ≠ some 0 := by cases q <;> simp [toLoop]

theorem ofLoop?_toLoop (q : Quantifier) : ofLoop? q.toLoop = some q := by cases q <;> rfl

theorem reduce_eq_cons (inner outer : Quantifier) : ∃ q qs, inner.reduce outer = q :: qs := by
  cases inner <;> cases outer <;> exact ⟨_, _, rfl⟩

/-- 読み取ったばかりの、よく使う繰り返し。 -/
theorem eq_toLoop {l : Loop} {q : Quantifier} (hl : l.Plain) (h : ofLoop? l = some q) : l = q.toLoop := by
  obtain ⟨hlower, hupper, hgreedy⟩ := of_ofLoop? h
  obtain ⟨-, hempty, hhead, hnext⟩ := hl
  obtain ⟨lower, upper, greedy, e, head, next⟩ := l
  cases q <;> simp_all [toLoop]

end Quantifier

namespace CodeEnv.EmptyAlike

/-- 一回は続けられる繰り返しに命令があるかどうかは、本体に命令があるかどうかである。 -/
theorem of_loop {env : CodeEnv} {options : Options} {l : Loop} (hu : l.upper ≠ some 0) (n : Node) :
    EmptyAlike (env.size options n) (env.size options (.loop l n)) := by
  rw [CodeEnv.size]
  cases env.size options n with
  | ok size => exact .ok (by rw [total_of_eq_zero, or_iff_left hu])
  | error e => exact .error e

theorem symm {s t : Except CompileError Nat} (h : EmptyAlike s t) : EmptyAlike t s := by
  cases h with
  | ok h => exact .ok h.symm
  | error e => exact .error e

end CodeEnv.EmptyAlike

namespace Node

variable {env : CodeEnv} {x : Setting} {penv : PrepareEnv} {options : Options} {undo : Bool} {n m t : Node}
  {q : Quantifier} {qs : List Quantifier} {f g : Nat}

/-- 本体に外から順に付けた繰り返し。 -/
def stack (qs : List Quantifier) (n : Node) : Node := qs.foldr (fun q n => .loop q.toLoop n) n

/-- 書き換えた本体に外から順に付け直した繰り返し。 -/
def restack (options : Options) (qs : List Quantifier) (n : Node) : Node :=
  qs.foldr (fun q n => rebuildLoop options q.toLoop n) n

theorem restack_cons : restack options (q :: qs) n =
    .loop (refit options q.toLoop (restack options qs n)) (restack options qs n) := by
  change rebuildLoop options q.toLoop (restack options qs n) = _
  unfold rebuildLoop
  simp only [q.not_isFixed, Bool.false_and, Bool.false_eq_true, if_false]
  rfl

theorem prepareAt_stack_undo : (stack (q :: qs) n).prepareAt penv options undo =
    (stack (q :: qs) n).prepareAt penv options true := by
  simp only [stack, List.foldr_cons, prepareAt, q.not_isFixed, Bool.not_false, Bool.or_true]

/-- よく使う繰り返しを重ねた本体の捕獲は、どれも取り消せる。 -/
theorem prepareAt_stack (h : (stack (q :: qs) n).prepareAt penv options undo = .ok m) :
    ∃ t, n.prepareAt penv options true = .ok t ∧ m = restack options (q :: qs) t := by
  induction qs generalizing q undo m with
  | nil =>
    obtain ⟨t, ht, h⟩ := Except.bind_eq_ok h
    rw [q.not_isFixed, Bool.not_false, Bool.or_true] at ht
    cases h
    exact ⟨t, ht, rfl⟩
  | cons q' qs ih =>
    obtain ⟨k, hk, h⟩ := Except.bind_eq_ok h
    obtain ⟨t, ht, rfl⟩ := ih hk
    cases h
    exact ⟨t, ht, rfl⟩

/-! ## 重ねても変わらないもの -/

theorem hasCapture_restack : (restack options qs n).hasCapture = n.hasCapture := by
  induction qs with
  | nil => rfl
  | cons q qs ih =>
    rw [restack_cons]
    exact ih

theorem size_restack : CodeEnv.EmptyAlike (env.size options n) (env.size options (restack options qs n)) := by
  induction qs with
  | nil => exact .refl _
  | cons q qs ih =>
    rw [restack_cons]
    exact ih.trans (.of_loop (l := refit options q.toLoop _) q.upper_ne_zero _)

/-- どの繰り返しも一回を求めるなら、本体の長さを求める。 -/
theorem minLength_restack : (restack options (q :: qs) n).minLength =
    if (q :: qs).all (·.toLoop.lower == 1) then min n.minLength maxSize else 0 := by
  have hlower (q : Quantifier) : q.toLoop.lower = 0 ∨ q.toLoop.lower = 1 := by cases q <;> simp [Quantifier.toLoop]
  induction qs generalizing q with
  | nil =>
    rw [restack_cons]
    simp only [minLength, satMul, refit]
    rcases hlower q with h | h <;> simp [h, restack]
  | cons q' qs ih =>
    rw [restack_cons]
    simp only [minLength, satMul, refit]
    rw [ih]
    rcases hlower q with h | h
    · simp [h]
    · have hall : (q :: q' :: qs).all (·.toLoop.lower == 1) = (q' :: qs).all (·.toLoop.lower == 1) := by
        rw [List.all_cons, h]
        rfl
      rw [hall, h, Nat.mul_one]
      split
      · rw [Nat.min_assoc, Nat.min_self]
      · exact Nat.zero_min maxSize

theorem isAny_restack : LoopShape.isAny (restack options (q :: qs) n) = false := by
  rw [restack_cons]
  rfl

theorem isLiteral_restack : (restack options (q :: qs) n).isLiteral = false := by
  rw [restack_cons]
  rfl

/-! ## 見通し -/

/-- 重ねた繰り返しの空回りの検査。 -/
def stackFlag (options : Options) (n : Node) (qs : List Quantifier) : EmptyBody := emptyBodyOf none (restack options qs n)

/-- 命令のない本体を繰り返しても、続きに進むだけである。 -/
theorem explore_of_size_eq_zero {l : Loop} {F : Cont Outlook} (h : (env.size options n).toOption.getD 0 = 0)
    (hF : F.Steady) (o : Outcome) : Within ((Node.loop l n).explore env x (fun _ => none) f options F o) (F o) ∧
      Within (F o) ((Node.loop l n).explore env x (fun _ => none) (f + 1) options F o) := by
  let l' : Loop := { l with lower := 0, upper := some 0 }
  have hexplore (f : Nat) : (Node.loop l n).explore env x (fun _ => none) f options F =
      l'.explore (fun _ => none) (n.explore env x (fun _ => none) f options) F f 0 := by
    simp only [explore, CodeEnv.shape_eq_nothing h]
    rfl
  rw [hexplore, hexplore]
  exact ⟨Loop.explore_stop hF rfl o, Loop.stop_explore hF rfl (Nat.succ_pos f) o⟩

/-- 重ねた繰り返しの木は、重ねた見通しと同じ答えに決まる。 -/
theorem carries_restack (hsize : (env.size options n).toOption.getD 0 ≠ 0) (qs : List Quantifier) :
    (∀ f, Cont.Carries (n.hasCapture = false) ((restack options qs n).explore env x (fun _ => none) f options)
      (Quantifier.runs (stackFlag options n) f (n.explore env x (fun _ => none) f options) qs)) ∧
    ∀ f, Cont.Carries (n.hasCapture = false)
      (Quantifier.runs (stackFlag options n) f (n.explore env x (fun _ => none) f options) qs)
      ((restack options qs n).explore env x (fun _ => none) (f + 2 * qs.length) options) := by
  induction qs with
  | nil => exact ⟨fun f => .refl (CodeEnv.traced_explore n), fun f => .refl (CodeEnv.traced_explore n)⟩
  | cons q qs ih =>
    obtain ⟨hlower, hupper⟩ := ih
    have hcapture : (restack options qs n).hasCapture = n.hasCapture := hasCapture_restack
    have hsize' : (env.size options (restack options qs n)).toOption.getD 0 ≠ 0 := fun h => hsize (size_restack.getD.2 h)
    have hl : Quantifier.ofLoop? (refit options q.toLoop (restack options qs n)) = some q := by cases q <;> rfl
    have hkept : emptyBodyOf none (restack options qs n) = .possible → n.hasCapture = false :=
      fun h => hcapture ▸ hasCapture_of_possible h
    have hsandwich (f : Nat) {R : Cont Outlook → Cont Outlook} (hR : Traced (fun _ => none) (n.hasCapture = false) R)
        {F : Cont Outlook} (hF : F.Steady) (o : Outcome) :=
      Quantifier.sandwich (f := f) (o := o) hl (CodeEnv.shape_fits env options _ (restack options qs n)) hsize' rfl hR hF hkept
    have hcapture' : (restack options (q :: qs) n).hasCapture = n.hasCapture := hasCapture_restack
    have htraced (f : Nat) : Traced (fun _ => none : Outlook) (n.hasCapture = false)
        ((restack options (q :: qs) n).explore env x (fun _ => none) f options) :=
      hcapture' ▸ CodeEnv.traced_explore _
    constructor
    · intro f
      have hrun := Quantifier.carries_run (e := stackFlag options n qs) (hlower f) (Nat.le_refl f) q
      refine ⟨htraced f, hrun.right, fun F G hF o => ?_⟩
      rw [restack_cons]
      exact (hsandwich f (hlower f).left hF.left o).1.trans (hrun.le hF o)
    · intro f
      let k := f + 2 * qs.length
      have hmono : Cont.Carries (n.hasCapture = false) ((restack options qs n).explore env x (fun _ => none) k options)
          ((restack options qs n).explore env x (fun _ => none) (k + 2) options) :=
        hcapture ▸ (Carried.mono (Nat.le_add_right k 2) (restack options qs n)).carries rfl
      have hrun := Quantifier.carries_run (e := stackFlag options n qs) (hupper f) (Nat.le_add_right f (2 * qs.length)) q
      have hmore := Quantifier.carries_run (e := stackFlag options n qs) hmono (Nat.le_refl k) q
      refine ⟨hrun.left, htraced _, fun F G hF o => ?_⟩
      have hlast := (hsandwich k hmono.right hF.right o).2
      rw [restack_cons]
      exact ((hrun.le hF o).trans (hmore.le hF.right.below o)).trans hlast

/-! ## 直した繰り返し -/

/-- 命令のない本体を、何重に繰り返しても、続きに進むだけである。 -/
theorem carried_of_size_eq_zero (h : (env.size options n).toOption.getD 0 = 0) {l l' : Loop} {n' : Node}
    (h' : (env.size options n').toOption.getD 0 = 0) :
    Carried env env x f (g + 1) options (.loop l n) (.loop l' n') := fun _ _ hF o =>
  ((explore_of_size_eq_zero h hF.left o).1.trans (hF.le o)).trans (explore_of_size_eq_zero h' hF.right o).2

theorem emptyBodyOf_eq_never {n : Node} : emptyBodyOf none n = .never ↔ n.minLength ≠ 0 := by
  unfold emptyBodyOf
  split_ifs with h hcapture <;> simp_all

/-- 直した繰り返しの木で決まる答えは、重ねた二つの繰り返しの木でも同じに決まる。 -/
theorem extends_reduce {inner outer : Quantifier} (horder : inner.KeepsOrder outer) (t : Node) :
    (restack options (inner.reduce outer) t).Extends env x options (restack options [outer, inner] t) := by
  obtain ⟨q, qs, hqs⟩ := inner.reduce_eq_cons outer
  have hlower : (inner.reduce outer).all (·.toLoop.lower == 1) = [outer, inner].all (·.toLoop.lower == 1) := by
    cases inner <;> cases outer <;> rfl
  rw [hqs] at hlower ⊢
  refine ⟨isAny_restack.trans isAny_restack.symm, by rw [minLength_restack, minLength_restack, hlower],
    hasCapture_restack.trans hasCapture_restack.symm, size_restack.symm.trans size_restack, fun f => ?_⟩
  filter_upwards [Filter.eventually_ge_atTop (f + 5)] with g' hle
  obtain ⟨g, rfl⟩ : ∃ g, g' = g + 4 := ⟨g' - 4, by omega⟩
  by_cases hsize : (env.size options t).toOption.getD 0 = 0
  · rw [restack_cons, restack_cons]
    exact carried_of_size_eq_zero (size_restack.getD.1 hsize) (size_restack.getD.1 hsize)
  intro F G hF o
  have hkept : ∀ qs, stackFlag options t qs = .possible → t.hasCapture = false :=
    fun qs h => hasCapture_restack ▸ hasCapture_of_possible h
  have hflag : inner.toLoop.lower = 0 ∨ stackFlag options t [] ≠ .never → stackFlag options t [inner] ≠ .never := by
    simp only [stackFlag, ne_eq, emptyBodyOf_eq_never, not_not, minLength_restack]
    rintro (h | h)
    · simp [h]
    · simp only [restack, List.foldr_nil] at h
      simp [h]
  have ht : Traced (fun _ => none : Outlook) (t.hasCapture = false) (t.explore env x (fun _ => none) f options) :=
    CodeEnv.traced_explore t
  have hmore : Cont.Carries (t.hasCapture = false) (t.explore env x (fun _ => none) f options)
      (t.explore env x (fun _ => none) g options) := (Carried.mono (by omega) t).carries rfl
  have hleft := ((carries_restack (x := x) hsize (q :: qs)).1 f).le hF.left.below o
  have hreduce := Quantifier.runs_reduce ht hF.left hkept (Nat.lt_succ_self f) outer horder hflag o
  have hruns := (Quantifier.carries_runs (stackFlag options t) hmore (show f + 1 ≤ g by omega) [outer, inner]).le hF o
  have hright := ((carries_restack (x := x) hsize [outer, inner]).2 g).le hF.right.below o
  rw [hqs] at hreduce
  exact ((hleft.trans hreduce).trans hruns).trans hright

/-- 二回以上続けられる繰り返しは、上限のない繰り返しと同じに、空回りに備える。 -/
theorem emptyBodyOf_of_many {u : Nat} (hu : 1 < u) (n : Node) : emptyBodyOf (some u) n = emptyBodyOf none n := by
  simp [emptyBodyOf, hu]

/-- 上限を下限まで縮めた繰り返し。 -/
def narrowed (l : Loop) : Loop := { l with upper := some (max l.lower 1) }

/-- 内側が何回でも続ける輪なら、回数で書いた外側の上限を縮めた木で決まる答えは、縮めない木でも同じに決まる。 -/
theorem extends_narrow {l : Loop} (hq : q = .star ∨ q = .plus) (hg : l.greedy = true) (hl : l.Ordered) {u : Nat}
    (hu : l.upper = some u) (hmany : 1 < u) (t : Node)
    (hform : q = .plus → l.lower ≤ 1 ∨ emptyBodyOf l.upper (restack options [q] t) = .never ∨
      (env.shape options (narrowed l) (restack options [q] t)).isGuarded =
        (env.shape options l (restack options [q] t)).isGuarded) :
    (rebuildLoop options (narrowed l) (restack options [q] t)).Extends env x options
      (rebuildLoop options l (restack options [q] t)) := by
  rw [rebuildLoop_of_not_literal isLiteral_restack, rebuildLoop_of_not_literal isLiteral_restack]
  have hpos : max l.lower 1 ≠ 0 := by omega
  refine ⟨rfl, rfl, rfl, (CodeEnv.EmptyAlike.of_loop ?_ _).symm.trans (.of_loop ?_ _), fun f => ?_⟩
  · exact fun h => hpos (Option.some.inj h)
  · intro h
    rw [show l.upper = some 0 from h] at hu
    cases hu
    omega
  filter_upwards [Filter.eventually_ge_atTop (f * (l.lower + f) + l.lower + f + u + 3)] with g' hle
  obtain ⟨g, rfl⟩ : ∃ g, g' = g + 2 := ⟨g' - 2, by omega⟩
  by_cases hsize : (env.size options t).toOption.getD 0 = 0
  · exact carried_of_size_eq_zero (size_restack.getD.1 hsize) (size_restack.getD.1 hsize)
  intro F G hF o
  have hsize' : (env.size options (restack options [q] t)).toOption.getD 0 ≠ 0 := fun h => hsize (size_restack.getD.2 h)
  have ht : Traced (fun _ => none : Outlook) (t.hasCapture = false) (t.explore env x (fun _ => none) f options) :=
    CodeEnv.traced_explore t
  have hmore : Cont.Carries (t.hasCapture = false) (t.explore env x (fun _ => none) f options)
      (t.explore env x (fun _ => none) g options) := (Carried.mono (by omega) t).carries rfl
  obtain ⟨hlower, hupper⟩ := carries_restack (x := x) hsize [q]
  have hruns := (Quantifier.carries_runs (stackFlag options t) hmore (Nat.le_refl g) [q]).trans (hupper g)
  let N : Loop := refit options (narrowed l) (restack options [q] t)
  let U : Loop := refit options l (restack options [q] t)
  have hleft := (LoopShape.explore_below (l := N) (env.shape options N (restack options [q] t)) (hlower f) hF.left.below
    (Nat.le_refl f)).le o
  have hright := (LoopShape.explore_below (l := U) (env.shape options U (restack options [q] t)) hruns hF
    (Nat.le_add_right g 2)).le o
  refine (hleft.trans ?_).trans hright
  have hfit := CodeEnv.shape_fits env options N (restack options [q] t)
  have hfit' := CodeEnv.shape_fits env options U (restack options [q] t)
  have hkept : stackFlag options t [] = .possible → t.hasCapture = false := hasCapture_of_possible
  rcases hq with rfl | rfl
  · refine Cont.narrow_star ht hkept hF.left hfit hfit' hsize' hg hg rfl (hl u hu) hmany rfl hu ?_ o
    change f * (l.lower + f) + u < g
    omega
  · refine Cont.narrow_plus ht hkept hF.left hfit hfit' hsize' hg hg rfl (hl u hu) hmany rfl hu (fun hone : l.lower ≤ 1 => ?_)
      (fun hmore : 1 < l.lower => ?_) (hform rfl) ?_ o
    · change emptyBodyOf (some (max l.lower 1)) _ = .never
      rw [Nat.max_eq_right hone]
      rfl
    · change emptyBodyOf (some (max l.lower 1)) _ = emptyBodyOf l.upper _
      rw [hu, emptyBodyOf_of_many hmany, emptyBodyOf_of_many (by omega)]
    · change f + l.lower + u < g
      omega

/-! ## 構文木 -/

/-- 直した一つの繰り返しが、重ねた二つと同じ順に試す。回数で書いた外側は、内側が `+` で本体が空に合い、二回以上を
求めるときは、上限を縮めても検査のある形かどうかが変わらないことが要る。 -/
def keepsOrder (env : CodeEnv) (penv : PrepareEnv) (body : Node) (l : Loop) (options : Options) : Bool :=
  match body with
  | .loop inner _ =>
    match Quantifier.ofLoop? inner, Quantifier.ofLoop? l with
    | some q, some p => decide (q.KeepsOrder p)
    | some .plus, none =>
      !l.greedy || !l.upper.any (1 < ·) || decide (l.lower ≤ 1) ||
        (body.prepareAt penv options true).toOption.all fun b =>
          emptyBodyOf l.upper b == .never ||
            (env.shape options (narrowed l) b).isGuarded == (env.shape options l b).isGuarded
    | _, _ => true
  | _ => true

/-- 繰り返しを付けると、付けたままか、よく使う二つを直すか、外側の上限を縮めるかのどれかになる。 -/
theorem iterate_cases {body : Node} {l : Loop} {G : GroupKind → Prop} {B : Nat → Prop}
    (h : (Node.loop l body).Every Loop.Plain G B) :
    body.iterate l = .loop l body ∨
    (∃ q p target, body = stack [q] target ∧ l = p.toLoop ∧ body.iterate l = stack (q.reduce p) target) ∨
    ∃ q target u, body = stack [q] target ∧ (q = .star ∨ q = .plus) ∧ l.greedy = true ∧ l.upper = some u ∧ 1 < u ∧
      body.iterate l = .loop (narrowed l) body := by
  cases body with
  | loop inner target =>
    obtain ⟨hl, hinner, -⟩ := h
    simp only [iterate]
    cases hq : Quantifier.ofLoop? inner with
    | none => exact .inl rfl
    | some q =>
      obtain rfl := Quantifier.eq_toLoop hinner hq
      cases hp : Quantifier.ofLoop? l with
      | some p =>
        obtain rfl := Quantifier.eq_toLoop hl hp
        exact .inr (.inl ⟨q, p, target, rfl, rfl, rfl⟩)
      | none =>
        dsimp only
        split
        · rename_i hc
          obtain ⟨hq', hg, hany⟩ := hc
          cases hu : l.upper with
          | none => simp [hu] at hany
          | some u => exact .inr (.inr ⟨q, target, u, rfl, hq', hg, rfl, by simpa [hu] using hany, rfl⟩)
        · exact .inl rfl
  | _ => exact .inl rfl

theorem ofLoop?_of_many {l : Loop} {u : Nat} (hu : l.upper = some u) (hmany : 1 < u) : Quantifier.ofLoop? l = none := by
  cases h : Quantifier.ofLoop? l with
  | none => rfl
  | some p =>
    have hupper := (Quantifier.of_ofLoop? h).2.1
    rw [hu] at hupper
    cases p <;> simp [Quantifier.toLoop] at hupper
    all_goals omega

theorem narrow_of_keepsOrder {l : Loop} {u : Nat} {b : Node} (hg : l.greedy = true) (hu : l.upper = some u) (hmany : 1 < u)
    (hb : (stack [.plus] n).prepareAt penv options true = .ok b)
    (hkeeps : (stack [.plus] n).keepsOrder env penv l options) :
    l.lower ≤ 1 ∨ emptyBodyOf l.upper b = .never ∨
      (env.shape options (narrowed l) b).isGuarded = (env.shape options l b).isGuarded := by
  simp only [stack, List.foldr_cons, List.foldr_nil] at hb hkeeps
  simpa [keepsOrder, Quantifier.ofLoop?_toLoop, ofLoop?_of_many hu hmany, hg, hu, hmany, hb, Except.toOption, or_assoc] using hkeeps

theorem charCountAt_stack (e : Encoding) (top : Bool) : (stack (q :: qs) n).charCountAt e top = .variable := by
  simp only [stack, List.foldr_cons, charCountAt, q.not_isFixed, Bool.false_eq_true, if_false]

/-- 直した木の長さは決まらない。 -/
theorem charCountAt_iterate {body : Node} {l : Loop} {G : GroupKind → Prop} {B : Nat → Prop}
    (hplain : (Node.loop l body).Every Loop.Plain G B) (hne : body.iterate l ≠ .loop l body) (e : Encoding) (top : Bool) :
    (body.iterate l).charCountAt e top = .variable := by
  rcases iterate_cases hplain with h | ⟨q, p, target, -, -, h⟩ | ⟨q, target, u, rfl, -, -, -, -, h⟩
  · exact absurd h hne
  · obtain ⟨k, ks, hks⟩ : ∃ k ks, q.reduce p = k :: ks := q.reduce_eq_cons p
    rw [h, hks, charCountAt_stack]
  · rw [h, charCountAt, charCountAt_stack]
    split <;> rfl

/-- 直した木で決まる答えは、直さない木でも同じに決まる。 -/
theorem extends_iterate {body : Node} {l : Loop} {G : GroupKind → Prop} {B : Nat → Prop}
    (hplain : (Node.loop l body).Every Loop.Plain G B) (hne : body.iterate l ≠ .loop l body)
    (hkeeps : body.keepsOrder env penv l options) (h : (body.iterate l).prepareAt penv options undo = .ok m)
    {m' : Node} (h' : (Node.loop l body).prepareAt penv options undo = .ok m') :
    m.Extends env x options m' ∧ m.isLiteral = false ∧ m'.isLiteral = false := by
  rcases iterate_cases hplain with heq | ⟨q, p, target, rfl, rfl, heq⟩ | ⟨q, target, u, rfl, hq, hg, hu, hmany, heq⟩
  · exact absurd heq hne
  · obtain ⟨k, ks, hks⟩ := q.reduce_eq_cons p
    rw [heq, hks] at h
    obtain ⟨t, ht, rfl⟩ := prepareAt_stack h
    have hstack : (stack [p, q] target).prepareAt penv options undo = .ok m' := h'
    obtain ⟨t', ht', rfl⟩ := prepareAt_stack hstack
    cases ht.symm.trans ht'
    have horder : q.KeepsOrder p := by simpa [keepsOrder, stack, Quantifier.ofLoop?_toLoop] using hkeeps
    exact ⟨hks ▸ extends_reduce horder t, isLiteral_restack, isLiteral_restack⟩
  · rw [heq] at h
    obtain ⟨b, hb, h⟩ := Except.bind_eq_ok h
    obtain ⟨b', hb', h'⟩ := Except.bind_eq_ok h'
    cases h
    cases h'
    obtain ⟨t, ht, rfl⟩ := prepareAt_stack hb
    obtain ⟨t', ht', rfl⟩ := prepareAt_stack hb'
    cases ht.symm.trans ht'
    refine ⟨extends_narrow hq hg hplain.1.ordered hu hmany t ?_, ?_, ?_⟩
    · rintro rfl
      exact narrow_of_keepsOrder hg hu hmany (prepareAt_stack_undo ▸ hb) hkeeps
    · rw [rebuildLoop_of_not_literal isLiteral_restack]
      rfl
    · rw [rebuildLoop_of_not_literal isLiteral_restack]
      rfl

end Node
end MultibyteRegex

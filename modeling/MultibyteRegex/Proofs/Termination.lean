import MultibyteRegex.Proofs.Halting
import MultibyteRegex.Proofs.Numbering
import MultibyteRegex.Proofs.Overlooking

/-!
# 照合が終わること

後読みのない木の合い方は、どの位置からも有限個しかない。捕獲を比べる、上限のない輪の中では、進まない一回が書く範囲が
位置で決まっていればよい。肯定の先読みの外の捕獲は空の範囲になり、先読みの中の捕獲は、先読みが捕獲を読まなければ、
捕獲によらずに決まる。
-/

namespace MultibyteRegex

/-! ## 先読みの中の捕獲 -/

section

variable {R : Nat → Cont Outlook → Cont Outlook} {d d' : Captures} {o o' o₁ o₁' : Outcome} {os os' : List Outcome}

/-- 捕獲を読まなければ、並んで進む合い方の最初の合い方も、並んで進む。 -/
theorem Lists.head_parallel
    (hR : ∀ {r : Outlook → Outlook → Prop}, r (fun _ => none) (fun _ => none) → ∀ fuel, Overlooks r (R fuel))
    (hos : Lists R o os) (hos' : Lists R o' os') (h : Outcome.Parallel d d' o o') (ho₁ : os.head? = some o₁)
    (ho₁' : os'.head? = some o₁') : Outcome.Parallel d d' o₁ o₁' := by
  -- 着いた合い方をそのまま答えにして、並んで進む合い方の答えどうしの関係で比べる
  let found (o : Outcome) : Outlook := fun _ => some (.ok (some (o.pos, o.caps)))
  let r (a a' : Outlook) : Prop := a = .last ∨ a = (fun _ => none) ∨
    ∃ o₂ o₂', Outcome.Parallel d d' o₂ o₂' ∧ a = found o₂ ∧ a' = found o₂'
  have hmatch : Cont.Matches r d d' (fun o _ => found o) fun o _ => found o :=
    fun o₂ o₂' h₂ _ _ _ => .inr (.inr ⟨o₂, o₂', h₂, rfl, rfl⟩)
  obtain ⟨os, rfl⟩ := List.head?_eq_some_iff.1 ho₁
  obtain ⟨os', rfl⟩ := List.head?_eq_some_iff.1 ho₁'
  obtain ⟨fuel, hfuel, hfuel'⟩ := (hos.and hos').exists
  have hr : r (found o₁) (found o₁') := by
    have hr := (hR (r := r) (.inr (.inl rfl)) fuel).keeps hmatch o o' h .last .last (.inl rfl)
    rwa [hfuel, hfuel'] at hr
  have hinj : ∀ {o₂ o₃ : Outcome}, found o₂ = found o₃ → o₂ = o₃ := by
    intro o₂ o₃ he
    have he := congrFun he none
    simp only [found, Option.some.injEq, Result.ok.injEq, Prod.mk.injEq] at he
    obtain ⟨pos, caps⟩ := o₂
    obtain ⟨rfl, rfl⟩ := he
    rfl
  rcases hr with hr | hr | ⟨o₂, o₂', h₂, hr, hr'⟩
  · cases congrFun hr none
  · cases congrFun hr none
  · rwa [hinj hr, hinj hr']

theorem exists_fixes
    (hR : ∀ {r : Outlook → Outlook → Prop}, r (fun _ => none) (fun _ => none) → ∀ fuel, Overlooks r (R fuel))
    (size : Nat) (writes : Nat → Prop) : ∃ t, Fixes size writes R t := by
  classical
  let Writes (size pos n : Nat) (slot : Option Slot) : Prop := ∃ o os o', o.caps.size = size ∧ o.pos = pos ∧
    Lists R o os ∧ os.head? = some o' ∧ o'.caps[n]? ≠ o.caps[n]? ∧ o'.caps[n]? = slot
  refine ⟨fun size pos n => if h : ∃ slot, Writes size pos n slot then h.choose else none,
    fun o os o' _ hos ho' n _ => ?_⟩
  by_cases hkept : o'.caps[n]? = o.caps[n]?
  · exact .inl hkept
  have hex : ∃ slot, Writes o.caps.size o.pos n slot := ⟨_, o, os, o', rfl, rfl, hos, ho', hkept, rfl⟩
  obtain ⟨o₁, os₁, o₁', hsize, hpos, hos₁, ho₁', hne, hslot⟩ := hex.choose_spec
  refine .inr (Eq.trans ?_ (dif_pos hex).symm)
  rw [← hslot]
  exact ((hos.head_parallel hR hos₁ (.refl hpos hsize) ho' ho₁').slot n).elim (fun h => absurd h.1 hkept) Eq.symm

end

/-! ## 節 -/

namespace CodeEnv

mutual
/-- 進まない合い方の書く範囲が、位置で決まる。捕獲のある肯定の先読みは、捕獲を読まない。 -/
def isCalm (env : CodeEnv) (options : Options) : Node → Bool
  | .list nodes => env.allCalm options nodes
  | .alt nodes => env.allCalm options nodes
  | .loop _ body => env.isCalm options body
  | .scoped inner body => env.isCalm inner body
  | .group .ahead body => body.captures.isEmpty || env.isBlind options body
  | .group .notAhead _ => true
  | .group _ body => env.isCalm options body
  | _ => true

def allCalm (env : CodeEnv) (options : Options) : List Node → Bool
  | [] => true
  | n :: ns => env.isCalm options n && env.allCalm options ns
end

mutual
/-- 捕獲を比べる、上限のない輪の本体は、進まなければ位置で決まる範囲だけを書く。後読みはない。 -/
def isSteady (env : CodeEnv) (options : Options) : Node → Bool
  | .list nodes => env.allSteady options nodes
  | .alt nodes => env.allSteady options nodes
  | .loop l body => (l.upper.isSome || !env.comparesCaptures options l body || env.isCalm options body) &&
      env.isSteady options body
  | .scoped inner body => env.isSteady inner body
  | .group .behind _ => false
  | .group .notBehind _ => false
  | .group _ body => env.isSteady options body
  | _ => true

def allSteady (env : CodeEnv) (options : Options) : List Node → Bool
  | [] => true
  | n :: ns => env.isSteady options n && env.allSteady options ns
end

mutual
/-- 進まない合い方が捕獲に書く範囲は、`t` のとおりである。 -/
def Calms (env : CodeEnv) (x : Setting) (t : Target) (options : Options) : Node → Prop
  | .list nodes => env.AllCalms x t options nodes
  | .alt nodes => env.AllCalms x t options nodes
  | .loop _ body => env.Calms x t options body
  | .scoped inner body => env.Calms x t inner body
  | .group (.capture n _) body =>
    (∀ size pos, t size pos n = some ⟨some pos, some pos⟩) ∧ env.Calms x t options body
  | .group .ahead body => Fixes x.text.size (· ∈ body.captures)
      (fun fuel => body.explore env x (fun _ => none : Outlook) fuel options) t
  | .group .notAhead _ => True
  | .group _ body => env.Calms x t options body
  | _ => True

def AllCalms (env : CodeEnv) (x : Setting) (t : Target) (options : Options) : List Node → Prop
  | [] => True
  | n :: ns => env.Calms x t options n ∧ env.AllCalms x t options ns
end

variable {env : CodeEnv} {x : Setting} {t t' : Target} {table : FoldTable} {groups : Nat}

mutual
theorem calms_congr : (n : Node) → {options : Options} → env.Calms x t options n →
    (∀ k ∈ n.captures, ∀ size pos, t' size pos k = t size pos k) → env.Calms x t' options n
  | .list ns, _, h, ht => allCalms_congr ns h ht
  | .alt ns, _, h, ht => allCalms_congr ns h ht
  | .loop _ body, _, h, ht => calms_congr body h ht
  | .scoped _ body, _, h, ht => calms_congr body h ht
  | .group (.capture n undo) body, _, h, ht => by
    rw [Node.captures_capture] at ht
    obtain ⟨hn, hbody⟩ := List.forall_mem_cons.1 ht
    exact ⟨fun size pos => (hn size pos).trans (h.1 size pos), calms_congr body h.2 hbody⟩
  | .group .ahead body, _, h, ht => fun o os o' ho hos ho' n hn => by
    rw [ht n hn]
    exact h o os o' ho hos ho' n hn
  | .group .atomic body, _, h, ht => calms_congr body h ht
  | .group .behind body, _, h, ht => calms_congr body h ht
  | .group .notBehind body, _, h, ht => calms_congr body h ht
  | .group .notAhead _, _, _, _ => trivial
  | .empty, _, _, _ | .str _, _, _, _ | .raw _, _, _, _ | .cclass _, _, _, _ | .word _, _, _, _ | .any, _, _, _
  | .anchor _, _, _, _ | .backref _, _, _, _ => trivial

theorem allCalms_congr : (ns : List Node) → {options : Options} → env.AllCalms x t options ns →
    (∀ k ∈ (Node.labels ns).filterMap Label.capture?, ∀ size pos, t' size pos k = t size pos k) →
    env.AllCalms x t' options ns
  | [], _, _, _ => trivial
  | n :: ns, _, h, ht => by
    rw [Node.captures_cons] at ht
    obtain ⟨hn, hns⟩ := List.forall_mem_append.1 ht
    exact ⟨calms_congr n h.1 hn, allCalms_congr ns h.2 hns⟩
end

mutual
/-- 捕獲の番号が重ならなければ、進まない合い方の書く範囲を、番号ごとに決められる。 -/
theorem exists_calms : (n : Node) → {options : Options} → env.isCalm options n → n.captures.Nodup →
    ∃ t, env.Calms x t options n
  | .list ns, _, h, hnodup => exists_allCalms ns h hnodup
  | .alt ns, _, h, hnodup => exists_allCalms ns h hnodup
  | .loop _ body, _, h, hnodup => exists_calms body h hnodup
  | .scoped _ body, _, h, hnodup => exists_calms body h hnodup
  | .group (.capture n undo) body, _, h, hnodup => by
    rw [Node.captures_capture] at hnodup
    obtain ⟨hn, hbody⟩ := List.nodup_cons.1 hnodup
    obtain ⟨t, ht⟩ := exists_calms body h hbody
    refine ⟨fun size pos k => if k = n then some ⟨some pos, some pos⟩ else t size pos k, fun _ _ => if_pos rfl,
      calms_congr body ht fun k hk _ _ => if_neg ?_⟩
    rintro rfl
    exact hn hk
  | .group .ahead body, options, h, _ => by
    simp only [isCalm, Bool.or_eq_true, List.isEmpty_iff] at h
    rcases h with h | h
    · exact ⟨fun _ _ _ => none, fun o os o' _ _ _ n hn => by simp [h] at hn⟩
    · exact exists_fixes (fun hbot fuel => overlooks_explore hbot body h) x.text.size (· ∈ body.captures)
  | .group .atomic body, _, h, hnodup => exists_calms body h hnodup
  | .group .behind body, _, h, hnodup => exists_calms body h hnodup
  | .group .notBehind body, _, h, hnodup => exists_calms body h hnodup
  | .group .notAhead _, _, _, _ => ⟨fun _ _ _ => none, trivial⟩
  | .empty, _, _, _ | .str _, _, _, _ | .raw _, _, _, _ | .cclass _, _, _, _ | .word _, _, _, _ | .any, _, _, _
  | .anchor _, _, _, _ | .backref _, _, _, _ => ⟨fun _ _ _ => none, trivial⟩

theorem exists_allCalms : (ns : List Node) → {options : Options} → env.allCalm options ns →
    ((Node.labels ns).filterMap Label.capture?).Nodup → ∃ t, env.AllCalms x t options ns
  | [], _, _, _ => ⟨fun _ _ _ => none, trivial⟩
  | n :: ns, _, h, hnodup => by
    rw [Node.captures_cons] at hnodup
    obtain ⟨hn, hns, hdisjoint⟩ := List.nodup_append.1 hnodup
    simp only [allCalm, Bool.and_eq_true] at h
    obtain ⟨t, ht⟩ := exists_calms n h.1 hn
    obtain ⟨t', ht'⟩ := exists_allCalms ns h.2 hns
    refine ⟨fun size pos k => if k ∈ n.captures then t size pos k else t' size pos k,
      calms_congr n ht fun k hk _ _ => if_pos hk, allCalms_congr ns ht' fun k hk _ _ => if_neg fun hk' => ?_⟩
    exact hdisjoint k hk' k hk rfl
end

theorem minLength_of_size_eq_zero {n : Node} {options : Options} (hw : n.WellFormed groups)
    (h : env.size options n = .ok 0) : n.minLength = 0 := by
  by_contra hne
  let x : Setting := ⟨.ascii, .ascii, #[], 0, .none⟩
  let o : Outcome := ⟨0, #[]⟩
  have hmem : o ∈ n.outcomes x options o := (stays_of_size_eq_zero n hw h).mem o
  exact Nat.lt_irrefl 0 ((Node.advancing_outcomes (x := x) n o (Nat.le_refl 0) o hmem).lt (Nat.pos_of_ne_zero hne))

mutual
theorem halts_explore : (n : Node) → {options : Options} → {k : Nat} → n.WellFormed groups →
    n.Ready table options → env.isSteady options n → n.captures.Nodup → env.size options n = .ok k →
    Halts x.text.size n.minLength (· ∈ n.captures) (fun t => env.Calms x t options n)
      fun fuel => n.explore env x (fun _ => none : Outlook) fuel options
  | .empty, _, _, _, _, _, _, _ => .stay
  | .list nodes, _, _, hw, hr, hs, hnodup, h => halts_exploreList nodes hw hr hs hnodup h
  | .alt nodes, _, _, hw, hr, hs, hnodup, h => halts_exploreAlt nodes hw hr hs hnodup h
  | .str _, _, _, _, _, _, _, _ => .leaf
  | .raw _, _, _, _, _, _, _, _ => .leaf
  | .cclass _, _, _, _, _, _, _, _ => .leaf
  | .word _, _, _, _, _, _, _, _ => .leaf
  | .any, _, _, _, _, _, _, _ => .leaf
  | .anchor _, _, _, _, _, _, _, _ => .leaf
  | .backref _, _, _, _, _, _, _, _ => .leaf
  | .scoped _ body, _, _, hw, hr, hs, hnodup, h => halts_explore body hw hr.2 hs hnodup h
  | .loop l body, options, _, hw, hr, hs, hnodup, h => by
    obtain ⟨-, -, hpos, -, hready⟩ := hr
    obtain ⟨k, hk, -⟩ := Except.bind_eq_ok h
    simp only [isSteady, Bool.and_eq_true, Bool.or_eq_true, Bool.not_eq_true', Option.isSome_iff_ne_none] at hs
    obtain ⟨hguard, hs⟩ := hs
    have hfits := LoopShape.of_fits env.expandLimit l body k
    rw [← shape_of_size hk] at hfits
    obtain ⟨t, ht⟩ : ∃ t, l.upper = none → env.comparesCaptures options l body → env.Calms x t options body := by
      rcases hguard with (hu | hc) | hcalm
      · exact ⟨fun _ _ _ => none, fun hn => absurd hn hu⟩
      · exact ⟨fun _ _ _ => none, fun _ hc' => by simp [hc] at hc'⟩
      · obtain ⟨t, ht⟩ := exists_calms (x := x) body hcalm hnodup
        exact ⟨t, fun _ _ => ht⟩
    exact (halts_explore body hw.2 hready hs hnodup hk).loop _ hfits hw.1
      (fun h0 => minLength_of_size_eq_zero hw.2 (h0 ▸ hk)) (by rintro rfl; exact Nat.one_pos) hpos
      fun hu hg he => ht hu (by simp [comparesCaptures, hg, he])
  | .group (.capture n undo) body, options, _, hw, hr, hs, hnodup, h => by
    obtain ⟨k, hk, -⟩ := Except.bind_eq_ok h
    rw [Node.captures_capture] at hnodup
    exact ((halts_explore body hw.2 hr.2 hs (List.nodup_cons.1 hnodup).2 hk).capture n).mono id
      (fun _ => List.mem_cons.2) fun _ => id
  | .group .atomic body, options, _, hw, hr, hs, hnodup, h => by
    obtain ⟨k, hk, -⟩ := Except.bind_eq_ok h
    exact (halts_explore body hw.2 hr.2 hs hnodup hk).first (fun _ o' => o') fun _ _ h => h
  | .group .ahead body, options, _, hw, hr, hs, hnodup, h => by
    obtain ⟨k, hk, -⟩ := Except.bind_eq_ok h
    exact (halts_explore body hw.2 hr.2 hs hnodup hk).ahead
  | .group .notAhead body, options, _, hw, hr, hs, hnodup, h => by
    obtain ⟨k, hk, -⟩ := Except.bind_eq_ok h
    exact (halts_explore body hw.2 hr.2.2 hs hnodup hk).notAhead
  | .group .behind _, _, _, _, _, hs, _, _ => by cases hs
  | .group .notBehind _, _, _, _, _, hs, _, _ => by cases hs

theorem halts_exploreList : (ns : List Node) → {options : Options} → {k : Nat} →
    Node.AllWellFormed groups ns → Node.ReadyList table options ns → env.allSteady options ns →
    ((Node.labels ns).filterMap Label.capture?).Nodup → env.sizeList options ns = .ok k →
    Halts x.text.size (Node.sumMinLength ns) (· ∈ (Node.labels ns).filterMap Label.capture?)
      (fun t => env.AllCalms x t options ns)
      fun fuel => Node.exploreList env x (fun _ => none : Outlook) fuel options ns
  | [], _, _, _, _, _, _, _ => .stay
  | n :: ns, options, _, hw, hr, hs, hnodup, h => by
    obtain ⟨k, hk, h⟩ := Except.bind_eq_ok h
    obtain ⟨k', hk', -⟩ := Except.bind_eq_ok h
    simp only [allSteady, Bool.and_eq_true] at hs
    rw [Node.captures_cons] at hnodup ⊢
    obtain ⟨hn, hns, -⟩ := List.nodup_append.1 hnodup
    refine ((halts_explore n hw.1 hr.2.1 hs.1 hn hk).comp (halts_exploreList ns hw.2 hr.2.2 hs.2 hns hk')).mono
      (fun hlt => ?_) (fun _ => List.mem_append.2) fun _ => id
    simp only [Node.sumMinLength, satAdd] at hlt
    omega

theorem halts_exploreAlt : (ns : List Node) → {options : Options} → {k : Nat} →
    Node.AllWellFormed groups ns → Node.ReadyAlt table options ns → env.allSteady options ns →
    ((Node.labels ns).filterMap Label.capture?).Nodup → env.sizeAlt options ns = .ok k →
    Halts x.text.size (Node.leastMinLength ns) (· ∈ (Node.labels ns).filterMap Label.capture?)
      (fun t => env.AllCalms x t options ns)
      fun fuel => Node.exploreAlt env x (fun _ => none : Outlook) fuel options ns
  | [], _, _, _, _, _, _, _ => .stay
  | [n], _, _, hw, hr, hs, hnodup, h => by
    rw [Node.captures_cons] at hnodup ⊢
    exact (halts_explore n hw.1 hr.2.2.1 (by simpa [allSteady] using hs) (List.nodup_append.1 hnodup).1 h).mono id
      (fun _ => List.mem_append_left _) fun _ h => h.1
  | n :: n' :: ns, options, _, hw, hr, hs, hnodup, h => by
    obtain ⟨k, hk, h⟩ := Except.bind_eq_ok h
    obtain ⟨k', hk', -⟩ := Except.bind_eq_ok h
    rw [allSteady, Bool.and_eq_true] at hs
    rw [Node.captures_cons] at hnodup ⊢
    obtain ⟨hn, hns, -⟩ := List.nodup_append.1 hnodup
    exact ((halts_explore n hw.1 hr.2.2.1 hs.1 hn hk).either
      (halts_exploreAlt (n' :: ns) hw.2 hr.2.2.2 hs.2 hns hk')).mono id (fun _ => List.mem_append.2) fun _ => id
end

end CodeEnv

/-! ## 照合 -/

/-- 合い方が有限個で、どれも始まりより前でなければ、成功の命令に着いた答えは必ず決まる。 -/
theorem Matcher.exists_foldr_accepting (m : Matcher) {origin : Nat} {os : List Outcome}
    (h : ∀ o ∈ os, origin ≤ o.pos) (best : Answer) :
    ∃ a, os.foldr (m.accepting origin) .last best = some (.ok a) := by
  induction os generalizing best with
  | nil => exact ⟨best, rfl⟩
  | cons o os ih =>
    obtain ⟨ho, hos⟩ := List.forall_mem_cons.1 h
    simp only [List.foldr_cons, accepting]
    rw [if_neg (Nat.not_lt.2 ho)]
    repeat' split
    all_goals first | exact ⟨_, rfl⟩ | exact ih hos _

/-- 空回りを必ず抜ける木では、`fuel` が足りれば答えが決まる。 -/
theorem CodeEnv.exists_answer? {env : CodeEnv} {table : FoldTable} {options : Options} {groups size : Nat}
    {root : Node} (hw : root.WellFormed groups) (hr : root.Ready table options) (hs : env.isSteady options root)
    (hnodup : root.captures.Nodup) (h : env.size options root = .ok size) {m : Matcher} {origin : Nat}
    (ho : origin ≤ m.text.size) :
    ∃ a, ∀ᶠ fuel in Filter.atTop, env.answer? options groups root m origin fuel = some (.ok a) := by
  have hhalts : Halts m.setting.text.size _ _ _ _ := halts_explore root hw hr hs hnodup h
  obtain ⟨os, hos, hproceeds⟩ := hhalts ⟨origin, .fresh groups⟩ ho
  obtain ⟨a, ha⟩ := m.exists_foldr_accepting (fun o ho => (hproceeds o ho).le) none
  refine ⟨a, ?_⟩
  filter_upwards [hos] with fuel hos
  rw [answer?, hos, ha]

/-- 捕獲を比べる、上限のない輪の中では、捕獲のある肯定の先読みが捕獲を読まない。後読みもない。 -/
def Source.isSteady (s : Source) : Bool := s.tree?.all (s.env.isSteady s.options)

namespace Regex

theorem nodup_captures {s : Source} {re : Regex} (h : Regex.compile s = .ok re) {root : Node}
    (htree : s.tree? = some root) : root.captures.Nodup := by
  obtain ⟨parsed, hparse, hprepare, -⟩ := exists_prepare h htree
  have hnumbered := (Pattern.numbered_parse hparse).keeps (Node.prepares_of_prepare hprepare).keeps
  rw [hnumbered.captures]
  exact List.nodup_range'

/-- 制限のない照合は、どの位置から始めても終わる。 -/
theorem matchAt_returns {s : Source} {re : Regex} (h : Regex.compile s = .ok re) (horderly : s.isOrderly)
    (hsteady : s.isSteady) (options : Options) (text : Text) (start : Nat) {origin : Nat}
    (ho : origin ≤ text.size) : ∃ v, (re.matcher .unlimited options text start).Returns origin v := by
  obtain ⟨groups, root, htree, hcompile, hw, hprepared⟩ := exists_tree h
  have horderly : s.env.isOrderly s.options root := by simpa [Source.isOrderly, htree] using horderly
  have hsteady : s.env.isSteady s.options root := by simpa [Source.isSteady, htree] using hsteady
  let m := re.matcher .unlimited options text start
  obtain ⟨size, code, counters, hs, -, -⟩ := CodeEnv.compile_eq_ok hcompile
  obtain ⟨a, ha⟩ := CodeEnv.exists_answer? hw hprepared.ready hsteady (nodup_captures h htree) hs (m := m) ho
  obtain ⟨fuel, hanswer, hfuel⟩ := (ha.and (Filter.eventually_gt_atTop m.text.size)).exists
  have hsettles := CodeEnv.compile_settles hcompile hw (m := m) rfl rfl hprepared.ready hprepared.next
    horderly ho fuel hfuel
  rw [hanswer] at hsettles
  obtain ⟨fuel', hends⟩ := hsettles.matchAt ho
  obtain ⟨v, hv, hanswer⟩ := hends fuel' (Nat.le_refl fuel')
  cases v <;> cases hanswer
  exact ⟨_, fuel', hv⟩

theorem matchAt_returns_nested :
    ∃ re, Regex.compile { pattern := Pattern.ascii "(?:(a*)*(?=(b))|\\1b)*" } = .ok re ∧
      Source.isOrderly { pattern := Pattern.ascii "(?:(a*)*(?=(b))|\\1b)*" } ∧
      Source.isSteady { pattern := Pattern.ascii "(?:(a*)*(?=(b))|\\1b)*" } ∧
      0 ≤ (#[0x61, 0x61, 0x62] : Text).size ∧
      ∃ v, (re.matcher .unlimited .none #[0x61, 0x61, 0x62] 0).Returns 0 v := by
  obtain ⟨re, h, -⟩ := exists_ok (x := Regex.compile { pattern := Pattern.ascii "(?:(a*)*(?=(b))|\\1b)*" })
    (p := fun _ => true) (by decide +kernel)
  have horderly : Source.isOrderly { pattern := Pattern.ascii "(?:(a*)*(?=(b))|\\1b)*" } := by decide +kernel
  have hsteady : Source.isSteady { pattern := Pattern.ascii "(?:(a*)*(?=(b))|\\1b)*" } := by decide +kernel
  exact ⟨re, h, horderly, hsteady, Nat.zero_le _,
    matchAt_returns h horderly hsteady .none #[0x61, 0x61, 0x62] 0 (Nat.zero_le _)⟩

end Regex

/-! ## 終わらない照合 -/

namespace Matcher

variable {m : Matcher} {origin k k' : Nat} {r r' r'' : Registers}

/-- `r` から `k` 歩で `r'` に着く。 -/
def Treads (m : Matcher) (origin k : Nat) (r r' : Registers) : Prop :=
  ∀ fuel, m.run origin (fuel + k) r = m.run origin fuel r'

theorem Treads.trans (h : m.Treads origin k r r') (h' : m.Treads origin k' r' r'') :
    m.Treads origin (k' + k) r r'' := by
  intro fuel
  rw [← Nat.add_assoc, h, h']

theorem treads_backtrack {i : Instruction} {pc pos : Nat} {caps : Captures} {st : Stack}
    (hm : m.limits = .unlimited) (hi : m.program.code[r.pc]? = some i) (he : m.execute origin i r = .ok (.fail r))
    (hpop : r.stack.popResume r.caps = ⟨st, caps, .ok (some (pc, pos))⟩) :
    m.Treads origin 1 r ⟨pc, pos, caps, st, r.retries + 1, r.best⟩ := by
  intro fuel
  simp [run, step, hi, he, backtrack, hpop, hm, Limits.unlimited]

theorem treads_resume {i : Instruction} {pc pos : Nat} {st : Stack} (hm : m.limits = .unlimited)
    (hi : m.program.code[r.pc]? = some i) (he : m.execute origin i r = .ok (.fail r))
    (hst : r.stack = .alt pc pos :: st) :
    m.Treads origin 1 r { r with pc, pos, stack := st, retries := r.retries + 1 } :=
  treads_backtrack hm hi he (hst ▸ Stack.popResume_of_resume rfl)

/-- `I` の状態から何歩かで必ず `I` の状態に戻るなら、いつまでも止まらない。 -/
theorem run_eq_none_of_recurrent {I : Registers → Prop}
    (h : ∀ r, I r → ∃ k r', I r' ∧ m.Treads origin (k + 1) r r') (fuel : Nat) (hr : I r) :
    m.run origin fuel r = none := by
  induction fuel using Nat.strong_induction_on generalizing r with
  | _ fuel ih =>
    obtain ⟨k, r', hr', hrun⟩ := h r hr
    by_cases hlt : fuel < k + 1
    · -- 戻るまでに止まるなら、戻った先でも止まっている。
      refine Option.eq_none_iff_forall_not_mem.2 fun v hv => ?_
      have hv := run_mono hv (Nat.le_of_lt hlt)
      rw [← Nat.zero_add (k + 1), hrun 0] at hv
      cases hv
    · obtain ⟨fuel, rfl⟩ := Nat.exists_eq_add_of_le' (Nat.not_lt.1 hlt)
      rw [hrun]
      exact ih fuel (by omega) hr'

end Matcher

/-! ### 先読みの中の捕獲が行き来する輪 -/

namespace Swing

/-- `(?:(?=\1?(.))x?)*` のコード。 -/
def code : Array Instruction :=
  #[.push 12, .nullCheckStart 0 true, .pushPos, .push 1, .backref 1 false, .memStart 1 true, .any false, .memEnd 1 true,
    .popPos, .push 1, .exact .one [0x78], .nullCheckEnd 0 true, .jump (-13), .accept]

/-- コードを、二文字の本文で照合する。 -/
def matcher (program : Program) : Matcher where
  program := { program with encoding := .utf8, groups := 1, code }
  text := #[0x61, 0x62]
  searchStart := 0
  options := program.options.union .none
  limits := .unlimited

/-- 初めの文字の捕獲。 -/
def former : Captures := #[{}, ⟨some 0, some 1⟩]

/-- 次の文字の捕獲。 -/
def latter : Captures := #[{}, ⟨some 1, some 2⟩]

variable {program : Program} {caps : Captures} {st : Stack} {retries : Nat} {best : Answer}

theorem treads_latter :
    (matcher program).Treads 0 13 ⟨0, 0, former, st, retries, best⟩
      ⟨0, 0, latter, .memEnd 1 none :: .memStart 1 ⟨some 0, some 1⟩ :: .void :: .void ::
        .nullCheck 0 0 (some former) :: .alt 13 0 :: st, retries + 1, best⟩ := by
  let above : Stack := .memEnd 1 none :: .memStart 1 ⟨some 0, some 1⟩ :: .void :: .void ::
    .nullCheck 0 0 (some former) :: .alt 13 0 :: st
  have hletter : (matcher program).Treads 0 10 ⟨0, 0, former, st, retries, best⟩
      ⟨10, 0, latter, .alt 11 0 :: above, retries, best⟩ := fun _ => rfl
  have hskip : (matcher program).Treads 0 1 ⟨10, 0, latter, .alt 11 0 :: above, retries, best⟩
      ⟨11, 0, latter, above, retries + 1, best⟩ := Matcher.treads_resume rfl rfl rfl rfl
  have hloop : (matcher program).Treads 0 2 ⟨11, 0, latter, above, retries + 1, best⟩
      ⟨0, 0, latter, above, retries + 1, best⟩ := fun _ => rfl
  exact (hletter.trans hskip).trans hloop

theorem treads_former (hcaps : caps = #[{}, {}] ∨ caps = latter) :
    (matcher program).Treads 0 13 ⟨0, 0, caps, st, retries, best⟩
      ⟨0, 0, former, .memEnd 1 none :: .memStart 1 (caps.getD 1 {}) :: .void :: .nullCheck 0 0 (some caps) ::
        .alt 13 0 :: st, retries + 2, best⟩ := by
  let below : Stack := .nullCheck 0 0 (some caps) :: .alt 13 0 :: st
  let above : Stack := .memEnd 1 none :: .memStart 1 (caps.getD 1 {}) :: .void :: below
  have hopen : (matcher program).Treads 0 4 ⟨0, 0, caps, st, retries, best⟩
      ⟨4, 0, caps, .alt 5 0 :: .ahead 0 :: below, retries, best⟩ := fun _ => rfl
  have hskip : (matcher program).Treads 0 1 ⟨4, 0, caps, .alt 5 0 :: .ahead 0 :: below, retries, best⟩
      ⟨5, 0, caps, .ahead 0 :: below, retries + 1, best⟩ :=
    Matcher.treads_resume rfl rfl (by rcases hcaps with rfl | rfl <;> rfl) rfl
  have hletter : (matcher program).Treads 0 5 ⟨5, 0, caps, .ahead 0 :: below, retries + 1, best⟩
      ⟨10, 0, former, .alt 11 0 :: above, retries + 1, best⟩ := by
    rcases hcaps with rfl | rfl <;> exact fun _ => rfl
  have hskip' : (matcher program).Treads 0 1 ⟨10, 0, former, .alt 11 0 :: above, retries + 1, best⟩
      ⟨11, 0, former, above, retries + 2, best⟩ := Matcher.treads_resume rfl rfl rfl rfl
  have hloop : (matcher program).Treads 0 2 ⟨11, 0, former, above, retries + 2, best⟩
      ⟨0, 0, former, above, retries + 2, best⟩ := by
    rcases hcaps with rfl | rfl <;> exact fun _ => rfl
  exact (((hopen.trans hskip).trans hletter).trans hskip').trans hloop

theorem matchAt_eq_none (program : Program) (fuel : Nat) : (matcher program).matchAt fuel 0 = none := by
  refine Matcher.run_eq_none_of_recurrent
    (I := fun r => r.pc = 0 ∧ r.pos = 0 ∧ (r.caps = former ∨ r.caps = #[{}, {}] ∨ r.caps = latter)) ?_ fuel
    ⟨rfl, rfl, .inr (.inl rfl)⟩
  rintro ⟨pc, pos, caps, st, retries, best⟩ ⟨rfl, rfl, hcaps⟩
  rcases hcaps with rfl | hcaps
  · exact ⟨12, _, ⟨rfl, rfl, .inr (.inr rfl)⟩, treads_latter⟩
  · exact ⟨12, _, ⟨rfl, rfl, .inl rfl⟩, treads_former hcaps⟩

end Swing

/-! ### 捨てた続きの捕獲が残る輪 -/

namespace Stale

/-- `(?:(a)||)*()b` のコード。 -/
def code : Array Instruction :=
  #[.push 10, .nullCheckStart 0 true, .push 4, .memStart 1 true, .exact .one [0x61], .memEnd 1 true, .jump 2, .push 1,
    .jump 0, .nullCheckEnd 0 true, .jump (-11), .memStart 2 false, .memEnd 2 false, .exact .one [0x62], .accept]

/-- コードを、一文字の本文で照合する。 -/
def matcher (program : Program) : Matcher where
  program := { program with encoding := .utf8, groups := 2, code }
  text := #[0x61]
  searchStart := 0
  options := program.options.union .none
  limits := .unlimited

/-- `s` の空の範囲。 -/
def empty (s : Nat) : Slot := ⟨some s, some s⟩

/-- 文字 `a` の範囲。 -/
def letter : Slot := ⟨some 0, some 1⟩

/-- `s` から一回を始めたときに積む枠。 -/
def round (s : Nat) (caps : Captures) (st : Stack) : Stack := .nullCheck 0 s (some caps) :: .alt 11 s :: st

variable {program : Program} {s pc pos k retries retries' : Nat} {g v : Slot} {caps : Captures} {st st' : Stack}
  {best : Answer}

theorem popResume_round :
    (round s #[{}, g, v] st).popResume #[{}, g, empty 1] = ⟨st, #[{}, g, empty 1], .ok (some (11, s))⟩ :=
  (Stack.popResume_cons rfl rfl).trans (Stack.popResume_of_resume rfl)

/-- 輪を抜けると、二番の捕獲を今の位置に書いてから失敗する。 -/
theorem treads_exit (hs : s ≤ 1) (hpop : st.popResume #[{}, g, empty s] = ⟨st', caps, .ok (some (pc, pos))⟩) :
    (matcher program).Treads 0 3 ⟨11, s, #[{}, g, v], st, retries, best⟩ ⟨pc, pos, caps, st', retries + 1, best⟩ := by
  have hb : (matcher program).text.hasAt [0x62] s = false := by
    obtain rfl | rfl : s = 0 ∨ s = 1 := by omega
    all_goals rfl
  have hwrite : (matcher program).Treads 0 2 ⟨11, s, #[{}, g, v], st, retries, best⟩
      ⟨13, s, #[{}, g, empty s], st, retries, best⟩ := fun _ => rfl
  refine hwrite.trans (Matcher.treads_backtrack (i := .exact .one [0x62]) rfl rfl ?_ hpop)
  simp [Matcher.execute, Move.consume, hb]

/-- 本文の終わりでは、一つ目の空の合い方は輪を抜けて、二番の捕獲にそこを残す。 -/
theorem treads_round (hv : v = {} ∨ v = empty 0 ∨ v = empty 1) :
    (matcher program).Treads 0 11 ⟨0, 1, #[{}, letter, v], st, retries, best⟩
      ⟨9, 1, #[{}, letter, empty 1], round 1 #[{}, letter, v] st, retries + 2, best⟩ := by
  let below : Stack := round 1 #[{}, letter, v] st
  have hopen : (matcher program).Treads 0 4 ⟨0, 1, #[{}, letter, v], st, retries, best⟩
      ⟨4, 1, #[{}, ⟨some 1, none⟩, v], .memStart 1 letter :: .alt 7 1 :: below, retries, best⟩ := fun _ => rfl
  have hskip : (matcher program).Treads 0 1
      ⟨4, 1, #[{}, ⟨some 1, none⟩, v], .memStart 1 letter :: .alt 7 1 :: below, retries, best⟩
      ⟨7, 1, #[{}, letter, v], below, retries + 1, best⟩ :=
    Matcher.treads_backtrack (i := .exact .one [0x61]) rfl rfl rfl
      ((Stack.popResume_cons rfl rfl).trans (Stack.popResume_of_resume rfl))
  have hempty : (matcher program).Treads 0 3 ⟨7, 1, #[{}, letter, v], below, retries + 1, best⟩
      ⟨11, 1, #[{}, letter, v], .alt 9 1 :: below, retries + 1, best⟩ := by
    rcases hv with rfl | rfl | rfl <;> exact fun _ => rfl
  exact ((hopen.trans hskip).trans hempty).trans (treads_exit (Nat.le_refl 1) (Stack.popResume_of_resume rfl))

theorem treads_same :
    (matcher program).Treads 0 15 ⟨0, 1, #[{}, letter, empty 1], st, retries, best⟩
      ⟨11, 1, #[{}, letter, empty 1], st, retries + 3, best⟩ := by
  have hcheck : (matcher program).Treads 0 1
      ⟨9, 1, #[{}, letter, empty 1], round 1 #[{}, letter, empty 1] st, retries + 2, best⟩
      ⟨11, 1, #[{}, letter, empty 1], round 1 #[{}, letter, empty 1] st, retries + 2, best⟩ := fun _ => rfl
  exact ((treads_round (.inr (.inr rfl))).trans hcheck).trans (treads_exit (Nat.le_refl 1) popResume_round)

/-- 二番の捕獲が変わった一回は輪を続け、次の一回で終える。 -/
theorem treads_other (hv : v = {} ∨ v = empty 0) :
    (matcher program).Treads 0 31 ⟨0, 1, #[{}, letter, v], st, retries, best⟩
      ⟨11, 1, #[{}, letter, empty 1], st, retries + 6, best⟩ := by
  have hcheck : (matcher program).Treads 0 2
      ⟨9, 1, #[{}, letter, empty 1], round 1 #[{}, letter, v] st, retries + 2, best⟩
      ⟨0, 1, #[{}, letter, empty 1], round 1 #[{}, letter, v] st, retries + 2, best⟩ := by
    rcases hv with rfl | rfl <;> exact fun _ => rfl
  exact (((treads_round (hv.imp_right .inl)).trans hcheck).trans treads_same).trans
    (treads_exit (Nat.le_refl 1) popResume_round)

/-- 文字 `a` の後をすべて捨てると、二番の捕獲には本文の終わりが残る。 -/
theorem treads_first
    (hrest : ∀ st, (matcher program).Treads 0 k ⟨0, 1, #[{}, letter, v], st, retries, best⟩
      ⟨11, 1, #[{}, letter, empty 1], st, retries', best⟩) :
    (matcher program).Treads 0 (5 + (k + 9)) ⟨0, 0, #[{}, {}, v], st, retries, best⟩
      ⟨9, 0, #[{}, {}, empty 1], .alt 9 0 :: round 0 #[{}, {}, v] st, retries' + 1, best⟩ := by
  let above : Stack := .memEnd 1 none :: .memStart 1 {} :: .alt 7 0 :: round 0 #[{}, {}, v] st
  have hletter : (matcher program).Treads 0 9 ⟨0, 0, #[{}, {}, v], st, retries, best⟩
      ⟨0, 1, #[{}, letter, v], above, retries, best⟩ := fun _ => rfl
  have hexit : (matcher program).Treads 0 3 ⟨11, 1, #[{}, letter, empty 1], above, retries', best⟩
      ⟨7, 0, #[{}, {}, empty 1], round 0 #[{}, {}, v] st, retries' + 1, best⟩ :=
    treads_exit (Nat.le_refl 1) ((Stack.popResume_cons rfl rfl).trans
      ((Stack.popResume_cons rfl rfl).trans (Stack.popResume_of_resume rfl)))
  have hempty : (matcher program).Treads 0 2
      ⟨7, 0, #[{}, {}, empty 1], round 0 #[{}, {}, v] st, retries' + 1, best⟩
      ⟨9, 0, #[{}, {}, empty 1], .alt 9 0 :: round 0 #[{}, {}, v] st, retries' + 1, best⟩ := fun _ => rfl
  exact (hletter.trans (hrest above)).trans (hexit.trans hempty)

theorem treads_finish (hv : v = {} ∨ v = empty 0) :
    (matcher program).Treads 0 47 ⟨0, 0, #[{}, {}, v], st, retries, best⟩
      ⟨0, 0, #[{}, {}, empty 1], .alt 9 0 :: round 0 #[{}, {}, v] st, retries + 7, best⟩ := by
  have hloop : (matcher program).Treads 0 2
      ⟨9, 0, #[{}, {}, empty 1], .alt 9 0 :: round 0 #[{}, {}, v] st, retries + 7, best⟩
      ⟨0, 0, #[{}, {}, empty 1], .alt 9 0 :: round 0 #[{}, {}, v] st, retries + 7, best⟩ := by
    rcases hv with rfl | rfl <;> exact fun _ => rfl
  exact (treads_first fun _ => treads_other hv).trans hloop

theorem treads_start :
    (matcher program).Treads 0 35 ⟨0, 0, #[{}, {}, empty 1], st, retries, best⟩
      ⟨0, 0, #[{}, {}, empty 0], round 0 #[{}, {}, empty 1] st, retries + 5, best⟩ := by
  let below : Stack := round 0 #[{}, {}, empty 1] st
  have hcheck : (matcher program).Treads 0 1 ⟨9, 0, #[{}, {}, empty 1], .alt 9 0 :: below, retries + 4, best⟩
      ⟨11, 0, #[{}, {}, empty 1], .alt 9 0 :: below, retries + 4, best⟩ := fun _ => rfl
  have hexit : (matcher program).Treads 0 3 ⟨11, 0, #[{}, {}, empty 1], .alt 9 0 :: below, retries + 4, best⟩
      ⟨9, 0, #[{}, {}, empty 0], below, retries + 5, best⟩ :=
    treads_exit (Nat.zero_le 1) (Stack.popResume_of_resume rfl)
  have hloop : (matcher program).Treads 0 2 ⟨9, 0, #[{}, {}, empty 0], below, retries + 5, best⟩
      ⟨0, 0, #[{}, {}, empty 0], below, retries + 5, best⟩ := fun _ => rfl
  exact (((treads_first fun _ => treads_same).trans hcheck).trans hexit).trans hloop

theorem matchAt_eq_none (program : Program) (fuel : Nat) : (matcher program).matchAt fuel 0 = none := by
  refine Matcher.run_eq_none_of_recurrent
    (I := fun r => r.pc = 0 ∧ r.pos = 0 ∧ ∃ v, r.caps = #[{}, {}, v] ∧ ((v = {} ∨ v = empty 0) ∨ v = empty 1)) ?_ fuel
    ⟨rfl, rfl, {}, rfl, .inl (.inl rfl)⟩
  rintro ⟨pc, pos, caps, st, retries, best⟩ ⟨rfl, rfl, v, rfl, hv | rfl⟩
  · exact ⟨46, _, ⟨rfl, rfl, empty 1, rfl, .inr rfl⟩, treads_finish hv⟩
  · exact ⟨34, _, ⟨rfl, rfl, empty 0, rfl, .inl (.inr rfl)⟩, treads_start⟩

end Stale

namespace Regex

/-- 先読みの中の捕獲が、自分を参照して二つの範囲を行き来する例。 -/
theorem matchAt_endless : ∃ re, Regex.compile { pattern := Pattern.ascii "(?:(?=\\1?(.))x?)*" } = .ok re ∧
    ∀ fuel, (re.matcher .unlimited .none #[0x61, 0x62] 0).matchAt fuel 0 = none := by
  obtain ⟨⟨⟨code, encoding, options, fold, groups, repeats, nullChecks⟩, plan⟩, h, hp⟩ := exists_ok
    (x := Regex.compile { pattern := Pattern.ascii "(?:(?=\\1?(.))x?)*" })
    (p := fun re : Regex => re.program.encoding == .utf8 && re.program.groups == 1 && re.program.code == Swing.code)
    (by decide +kernel)
  simp only [Bool.and_eq_true, beq_iff_eq] at hp
  obtain ⟨⟨rfl, rfl⟩, rfl⟩ := hp
  exact ⟨_, h, Swing.matchAt_eq_none ⟨_, _, options, fold, _, repeats, nullChecks⟩⟩

/-- 捨てた続きが取り消しなしに書いた捕獲が残り、空回りの検査のたびに別の範囲になる例。 -/
theorem matchAt_endless_stale : ∃ re, Regex.compile { pattern := Pattern.ascii "(?:(a)||)*()b" } = .ok re ∧
    Source.isSteady { pattern := Pattern.ascii "(?:(a)||)*()b" } ∧
    ∀ fuel, (re.matcher .unlimited .none #[0x61] 0).matchAt fuel 0 = none := by
  obtain ⟨⟨⟨code, encoding, options, fold, groups, repeats, nullChecks⟩, plan⟩, h, hp⟩ := exists_ok
    (x := Regex.compile { pattern := Pattern.ascii "(?:(a)||)*()b" })
    (p := fun re : Regex => re.program.encoding == .utf8 && re.program.groups == 2 && re.program.code == Stale.code)
    (by decide +kernel)
  simp only [Bool.and_eq_true, beq_iff_eq] at hp
  obtain ⟨⟨rfl, rfl⟩, rfl⟩ := hp
  exact ⟨_, h, by decide +kernel, Stale.matchAt_eq_none ⟨_, _, options, fold, _, repeats, nullChecks⟩⟩

end Regex
end MultibyteRegex

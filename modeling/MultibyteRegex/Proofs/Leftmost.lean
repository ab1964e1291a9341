import MultibyteRegex.Proofs.KeySearch

/-!
# 前からの検索が最も左の照合を返すこと

一バイトの符号化では、検索は、始まりの検査に合う位置のうち最も左で合うものを返す。任意の文字の繰り返しから
読んだ検査は、前に幅のない検査があったり後方参照が続いたりすると、合う位置まで除いてしまう。
-/

namespace MultibyteRegex
namespace Matcher

variable {m : Matcher} {fuel x : Nat} {P Q : Nat → Prop} {cs : List Nat} {r r' : Option Found}

/-- `P` を満たす位置のうち、`before` の順で初めて合う照合。なければ、どの位置でも合わない。 -/
def Foremost (m : Matcher) (before : Nat → Nat → Prop) (P : Nat → Prop) : Option Found → Prop
  | none => ∀ x, P x → ∃ caps, m.Returns x ⟨none, caps⟩
  | some f => P f.start ∧ m.Returns f.start ⟨some f.length, f.caps⟩ ∧
      ∀ x, before x f.start → P x → ∃ caps, m.Returns x ⟨none, caps⟩

namespace Foremost

variable {before : Nat → Nat → Prop}

theorem unique (htotal : ∀ x y, before x y ∨ x = y ∨ before y x) (h : m.Foremost before P r)
    (h' : m.Foremost before P r') : r = r' := by
  have hfail : ∀ {x length caps caps'}, m.Returns x ⟨some length, caps⟩ → ¬m.Returns x ⟨none, caps'⟩ :=
    fun h h' => by cases h.unique h'
  cases r with
  | none =>
    cases r' with
    | none => rfl
    | some f =>
      obtain ⟨caps, hnone⟩ := h _ h'.1
      exact absurd hnone (hfail h'.2.1)
  | some f =>
    cases r' with
    | none =>
      obtain ⟨caps, hnone⟩ := h' _ h.1
      exact absurd hnone (hfail h.2.1)
    | some f' =>
      obtain ⟨hf, hret, hmin⟩ := h
      obtain ⟨hf', hret', hmin'⟩ := h'
      rcases htotal f.start f'.start with hlt | heq | hgt
      · obtain ⟨caps, hnone⟩ := hmin' _ hlt hf
        exact absurd hnone (hfail hret)
      · obtain ⟨start, length, caps⟩ := f
        obtain ⟨start', length', caps'⟩ := f'
        obtain rfl : start = start' := heq
        cases hret.unique hret'
        rfl
      · obtain ⟨caps, hnone⟩ := hmin _ hgt hf'
        exact absurd hnone (hfail hret')

theorem extend (h : m.Foremost before Q r) (hQ : ∀ x, Q x → P x)
    (hP : ∀ x, P x → ¬Q x → ∃ caps, m.Returns x ⟨none, caps⟩) : m.Foremost before P r := by
  have hnone : ∀ x, (Q x → ∃ caps, m.Returns x ⟨none, caps⟩) → P x → ∃ caps, m.Returns x ⟨none, caps⟩ :=
    fun x hq hp => (Classical.em (Q x)).elim hq (hP x hp)
  cases r with
  | none => exact fun x hp => hnone x (h x) hp
  | some f => exact ⟨hQ _ h.1, h.2.1, fun x hlt hp => hnone x (h.2.2 x hlt) hp⟩

theorem restrict (h : m.Foremost before P r) (hQ : ∀ x, Q x → P x) (hstart : ∀ f, r = some f → Q f.start) :
    m.Foremost before Q r := by
  cases r with
  | none => exact fun x hq => h x (hQ x hq)
  | some f => exact ⟨hstart f rfl, h.2.1, fun x hlt hq => h.2.2 x hlt (hQ x hq)⟩

/-- 合わない位置を出し入れしても、初めて合う照合は変わらない。 -/
theorem exchange (h : m.Foremost before P r) (hP : ∀ x, P x → Q x ∨ ∃ caps, m.Returns x ⟨none, caps⟩)
    (hQ : ∀ x, Q x → P x ∨ ∃ caps, m.Returns x ⟨none, caps⟩) : m.Foremost before Q r := by
  have hrestrict : m.Foremost before (fun x => P x ∧ Q x) r := by
    refine h.restrict (fun x hx => hx.1) fun f hf => ?_
    subst hf
    obtain ⟨hstart, hreturns, -⟩ := h
    refine ⟨hstart, (hP _ hstart).resolve_right fun ⟨caps, hnone⟩ => ?_⟩
    cases hreturns.unique hnone
  exact hrestrict.extend (fun x hx => hx.2) fun x hq hne => (hQ x hq).resolve_left fun hp => hne ⟨hp, hq⟩

/-- 絞った範囲で初めて合う照合が元の範囲でも初めて合うのは、元の範囲で初めて合う照合が絞った範囲にあるとき、かつ
そのときに限る。 -/
theorem widen_iff (htotal : ∀ x y, before x y ∨ x = y ∨ before y x) (hQ : ∀ x, Q x → P x)
    (hex : ∃ r', m.Foremost before P r') (h : m.Foremost before Q r) :
    m.Foremost before P r ↔ ∀ f, m.Foremost before P (some f) → Q f.start := by
  constructor
  · intro hall f hf
    cases hall.unique htotal hf
    exact h.1
  · intro hadmit
    obtain ⟨r', hr'⟩ := hex
    have hrestrict : m.Foremost before Q r' := hr'.restrict hQ fun f hf => hadmit f (hf ▸ hr')
    rwa [h.unique htotal hrestrict]

end Foremost

theorem first_foremost {before : Nat → Nat → Prop} (hasymm : ∀ x y, before x y → ¬before y x)
    (hcs : cs.Pairwise before) (h : m.first fuel cs = some (.ok r)) : m.Foremost before (· ∈ cs) r := by
  induction cs with
  | nil =>
    cases h
    exact nofun
  | cons x cs ih =>
    obtain ⟨hx, hcs⟩ := List.pairwise_cons.1 hcs
    unfold first at h
    split at h
    · cases h
    · cases h
    · cases h
    · rename_i length caps hm
      cases h
      refine ⟨List.mem_cons_self, ⟨fuel, hm⟩, fun y hlt hy => ?_⟩
      rcases List.mem_cons.1 hy with rfl | hy
      · exact absurd hlt (hasymm _ _ hlt)
      · exact absurd hlt (hasymm _ _ (hx y hy))
    · rename_i caps hm
      refine (ih hcs h).extend (fun y => List.mem_cons_of_mem _) fun y hy hne => ?_
      obtain rfl := (List.mem_cons.1 hy).resolve_right hne
      exact ⟨caps, fuel, hm⟩

/-- `P` を満たす位置のうち、最も左で合う照合。 -/
abbrev Leftmost (m : Matcher) (P : Nat → Prop) : Option Found → Prop :=
  m.Foremost (· < ·) P

/-- `P` を満たす位置のうち、最も右で合う照合。 -/
abbrev Rightmost (m : Matcher) (P : Nat → Prop) : Option Found → Prop :=
  m.Foremost (· > ·) P

theorem exists_fuel (h : ∀ x ∈ cs, ∃ v, m.Returns x v) :
    ∃ fuel, ∀ x ∈ cs, ∃ v, m.matchAt fuel x = some (.ok v) := by
  induction cs with
  | nil => exact ⟨0, nofun⟩
  | cons x cs ih =>
    obtain ⟨⟨v, fuel, hx⟩, hcs⟩ := List.forall_mem_cons.1 h
    obtain ⟨fuel', hcs⟩ := ih hcs
    refine ⟨max fuel fuel', fun y hy => ?_⟩
    rcases List.mem_cons.1 hy with rfl | hy
    · exact ⟨v, matchAt_mono hx (Nat.le_max_left ..)⟩
    · obtain ⟨v, hv⟩ := hcs y hy
      exact ⟨v, matchAt_mono hv (Nat.le_max_right ..)⟩

theorem first_ends (h : ∀ x ∈ cs, ∃ v, m.matchAt fuel x = some (.ok v)) :
    ∃ r, m.first fuel cs = some (.ok r) := by
  induction cs with
  | nil => exact ⟨none, rfl⟩
  | cons x cs ih =>
    obtain ⟨⟨⟨length, caps⟩, hx⟩, hcs⟩ := List.forall_mem_cons.1 h
    unfold first
    rw [hx]
    cases length with
    | none => exact ih hcs
    | some length => exact ⟨_, rfl⟩

theorem exists_foremost {before : Nat → Nat → Prop} (hasymm : ∀ x y, before x y → ¬before y x)
    (hcs : cs.Pairwise before) (h : ∀ x ∈ cs, ∃ v, m.Returns x v) :
    ∃ fuel r, m.first fuel cs = some (.ok r) ∧ m.Foremost before (· ∈ cs) r := by
  obtain ⟨fuel, hfuel⟩ := exists_fuel h
  obtain ⟨r, hr⟩ := first_ends hfuel
  exact ⟨fuel, r, hr, first_foremost hasymm hcs hr⟩

end Matcher

/-- `x` から始まる照合が、任意の文字の繰り返しから読んだ検査に合う。 -/
def Plan.Admits (p : Plan) (text : Text) (start x : Nat) : Prop :=
  (p.edges.anyStarNewline → x = start) ∧ (p.edges.anyStar → x = start ∨ text[x - 1]? = some 0x0a)

namespace Regex

variable {s : Source} {re : Regex}

/-- 範囲の位置を順に試す検索は、検査に合う位置で初めて合う照合を返す。検査に合うのに試さない位置では合わない。 -/
theorem search_foremost (h : Regex.compile s = .ok re) (he : s.encoding = .ascii) {options : Options} {text : Text}
    {start range : Nat} {before : Nat → Nat → Prop} {Within Admits : Nat → Prop} {interval : List Nat}
    (hsize : text.size ≤ maxSize) (hlong : (s.options.union options).contains .findLongest = false)
    (hstart : start ≤ text.size) (hrange : range ≤ text.size) (hasymm : ∀ x y, before x y → ¬before y x)
    (htotal : ∀ x y, before x y ∨ x = y ∨ before y x)
    (hsorted : ((⟨re.plan, re.program.encoding, re.program.fold, text⟩ : Quarry).plain.candidates start range).Pairwise
      before)
    (hinterval : interval.Pairwise before) (hwithin : ∀ x, x ∈ interval ↔ Within x)
    (hcandidate : ∀ x ∈ (⟨re.plan, re.program.encoding, re.program.fold, text⟩ : Quarry).plain.candidates start range,
      Within x ∧ Admits x)
    (hreturns : ∀ x, Within x → ∃ v, (re.matcher .unlimited options text start).Returns x v)
    (hskipped : ∀ x, Within x → Admits x →
      x ∉ (⟨re.plan, re.program.encoding, re.program.fold, text⟩ : Quarry).plain.candidates start range →
        ∃ caps, (re.matcher .unlimited options text start).Returns x ⟨none, caps⟩) :
    ∃ fuel r, re.search .unlimited fuel options text start range = some (.ok r) ∧
      (re.matcher .unlimited options text start).Foremost before (fun x => Within x ∧ Admits x) r ∧
      ((re.matcher .unlimited options text start).Foremost before Within r ↔
        ∀ f, (re.matcher .unlimited options text start).Foremost before Within (some f) → Admits f.start) := by
  obtain ⟨fuel, r, hr, hfirst⟩ :=
    Matcher.exists_foremost hasymm hsorted fun x hx => hreturns x (hcandidate x hx).1
  have hadmitted := hfirst.extend hcandidate fun x hx => hskipped x hx.1 hx.2
  obtain ⟨-, r', -, hr'⟩ :=
    Matcher.exists_foremost hasymm hinterval fun x hx => hreturns x ((hwithin x).1 hx)
  simp only [hwithin] at hr'
  refine ⟨fuel, r, search_of_first h he hsize hlong hstart hrange hr, hadmitted, ?_⟩
  exact (hadmitted.widen_iff htotal (fun x hx => hx.1) ⟨r', hr'⟩).trans
    (forall_congr' fun f => imp_congr_right fun hf => and_iff_right hf.1)

/-- 前からの検索は、検査に合う最も左の照合を返す。それが範囲全体で最も左の照合になるのは、範囲全体で
最も左の照合が検査に合うとき、かつそのときに限る。 -/
theorem search_leftmost (h : Regex.compile s = .ok re) (he : s.encoding = .ascii) (options : Options)
    (hlong : (s.options.union options).contains .findLongest = false) (text : Text)
    (hsize : text.size ≤ maxSize) {start range : Nat} (hle : start ≤ range) (hrange : range ≤ text.size)
    (hends : ∀ x, start ≤ x → x ≤ range →
      ∃ fuel, ((re.matcher .unlimited options text start).matchAt fuel x).isSome) :
    ∃ fuel r, re.search .unlimited fuel options text start range = some (.ok r) ∧
      (re.matcher .unlimited options text start).Leftmost
        (fun x => (start ≤ x ∧ x ≤ range) ∧ re.plan.Admits text start x) r ∧
      ((re.matcher .unlimited options text start).Leftmost (fun x => start ≤ x ∧ x ≤ range) r ↔
        ∀ f, (re.matcher .unlimited options text start).Leftmost (fun x => start ≤ x ∧ x ≤ range) (some f) →
          re.plan.Admits text start f.start) := by
  obtain ⟨parsed, root, -, -, hcompile, -⟩ := compile_eq_ok h
  obtain ⟨size, code, counters, -, -, hprogram⟩ := CodeEnv.compile_eq_ok hcompile
  have henc : re.program.encoding = .ascii := by rw [hprogram, ← he]
  let m := re.matcher .unlimited options text start
  let q : Quarry := ⟨re.plan, re.program.encoding, re.program.fold, text⟩
  let Within : Nat → Prop := fun x => start ≤ x ∧ x ≤ range
  have hreturns : ∀ x, Within x → ∃ v, m.Returns x v :=
    fun x ⟨hlo, hhi⟩ => exists_returns h (.of_ascii he hsize) (Nat.le_trans hhi hrange) (hends x hlo hhi)
  obtain ⟨hsorted, hmem⟩ := Quarry.plain_candidates_forward (q := q) henc hle
  refine search_foremost h he hsize hlong (Nat.le_trans hle hrange) hrange (fun _ _ => Nat.lt_asymm)
    Nat.lt_trichotomy hsorted (List.pairwise_lt_range' (s := start) (n := range + 1 - start))
    (fun x => ?_) (fun x hx => ?_) hreturns fun x ⟨hlo, hhi⟩ ⟨hstarNewline, hstar⟩ hx => ?_
  · rw [List.mem_range'_1]
    omega
  · obtain ⟨⟨w, hw, hlo, hhi⟩, hline⟩ := (hmem x).1 hx
    obtain ⟨hlow, hhigh, hstar⟩ := Plan.window?_within hw (Nat.le_refl _) hle
    refine ⟨by omega, fun hs => ?_, fun hs => by simpa [Quarry.isLineHead] using hline hs⟩
    have := hstar hs
    omega
  · obtain ⟨⟨length, caps⟩, fuel, hv⟩ := hreturns x ⟨hlo, hhi⟩
    cases length with
    | none => exact ⟨caps, fuel, hv⟩
    | some length =>
      obtain ⟨t, hxt, ht, hsound⟩ := succeeds_sound h he hsize ⟨length, caps, hv⟩
      obtain ⟨w, hw, hlow, hhigh⟩ := hsound.window? hxt ht hlo hhi hstarNewline
      exact absurd ((hmem x).2 ⟨⟨w, hw, hlow, hhigh⟩, fun hs => by simpa [Quarry.isLineHead] using hstar hs⟩) hx

theorem search_leftmost_alternatives :
    ∃ re, Regex.compile { pattern := Pattern.ascii "(a|b)c", encoding := .ascii } = .ok re ∧
      (Options.none.union .none).contains .findLongest = false ∧
      (#[0x61, 0x62, 0x63] : Text).size ≤ maxSize ∧ 0 ≤ 3 ∧ 3 ≤ (#[0x61, 0x62, 0x63] : Text).size ∧
      (∀ x, 0 ≤ x → x ≤ 3 →
        ∃ fuel, ((re.matcher .unlimited .none #[0x61, 0x62, 0x63] 0).matchAt fuel x).isSome) ∧
      ∃ fuel r, re.search .unlimited fuel .none #[0x61, 0x62, 0x63] 0 3 = some (.ok r) ∧
        (re.matcher .unlimited .none #[0x61, 0x62, 0x63] 0).Leftmost
          (fun x => (0 ≤ x ∧ x ≤ 3) ∧ re.plan.Admits #[0x61, 0x62, 0x63] 0 x) r ∧
        ((re.matcher .unlimited .none #[0x61, 0x62, 0x63] 0).Leftmost (fun x => 0 ≤ x ∧ x ≤ 3) r ↔
          ∀ f, (re.matcher .unlimited .none #[0x61, 0x62, 0x63] 0).Leftmost (fun x => 0 ≤ x ∧ x ≤ 3) (some f) →
            re.plan.Admits #[0x61, 0x62, 0x63] 0 f.start) := by
  obtain ⟨re, h, hok⟩ := exists_ok
    (x := Regex.compile { pattern := Pattern.ascii "(a|b)c", encoding := .ascii })
    (p := fun re => (List.range 4).all fun x =>
      ((re.matcher .unlimited .none #[0x61, 0x62, 0x63] 0).matchAt 20 x).isSome) (by decide +kernel)
  have hends : ∀ x, 0 ≤ x → x ≤ 3 →
      ∃ fuel, ((re.matcher .unlimited .none #[0x61, 0x62, 0x63] 0).matchAt fuel x).isSome :=
    fun x _ hx => ⟨20, List.all_eq_true.1 hok x (List.mem_range.2 (by omega))⟩
  exact ⟨re, h, by decide, by decide, by decide, by decide, hends,
    search_leftmost h rfl .none (by decide) _ (by decide) (by decide) (by decide) hends⟩

/-- 空白の次の語の頭から `.*` が始まるパターンは、行の途中に合う所があるのに見つからない。 -/
theorem search_leftmost_word :
    ∃ re caps, Regex.compile { pattern := Pattern.ascii "\\b.*x", encoding := .ascii } = .ok re ∧
      re.search .unlimited 20 .none #[0x20, 0x61, 0x78] 0 3 = some (.ok none) ∧
      (re.matcher .unlimited .none #[0x20, 0x61, 0x78] 0).matchAt 20 1 = some (.ok ⟨some 2, caps⟩) := by
  obtain ⟨re, hcompile, hok⟩ := exists_ok
    (x := Regex.compile { pattern := Pattern.ascii "\\b.*x", encoding := .ascii })
    (p := fun re =>
      ((re.search .unlimited 20 .none #[0x20, 0x61, 0x78] 0 3).bind Result.toOption).any Option.isNone &&
        (((re.matcher .unlimited .none #[0x20, 0x61, 0x78] 0).matchAt 20 1).bind Result.toOption).any
          (·.length == some 2)) (by decide +kernel)
  obtain ⟨hsearch, hmatch⟩ := Bool.and_eq_true_iff.1 hok
  obtain ⟨r, hr, hnone⟩ := exists_some_ok hsearch
  obtain ⟨⟨length, caps⟩, hv, hlength⟩ := exists_some_ok hmatch
  obtain rfl := Option.isNone_iff_eq_none.1 hnone
  obtain rfl := eq_of_beq hlength
  exact ⟨re, caps, hcompile, hr, hv⟩

end Regex
end MultibyteRegex

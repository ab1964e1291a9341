import MultibyteRegex.Proofs.Leftmost

/-!
# 後ろへの検索が最も右の照合を返すこと

一バイトの符号化では、後ろへの検索は、始まりの検査に合う位置のうち最も右で合うものを返す。改行にも合う任意の
文字の繰り返しで始まるパターンでは、範囲が検索を始めた位置だけになる。前への検索では、後で合うなら始めた位置
でも合うが、後ろへの検索では、始めた位置で合わなくても手前で合うことがある。
-/

namespace MultibyteRegex
namespace Regex

variable {s : Source} {re : Regex}

/-- 後ろへの検索は、検査に合う最も右の照合を返す。それが範囲全体で最も右の照合になるのは、範囲全体で
最も右の照合が検査に合うとき、かつそのときに限る。 -/
theorem search_rightmost (h : Regex.compile s = .ok re) (he : s.encoding = .ascii) (options : Options)
    (hlong : (s.options.union options).contains .findLongest = false) (text : Text)
    (hsize : text.size ≤ maxSize) {start range : Nat} (hlt : range < start) (hstart : start ≤ text.size)
    (hends : ∀ x, range ≤ x → x ≤ start →
      ∃ fuel, ((re.matcher .unlimited options text start).matchAt fuel x).isSome) :
    ∃ fuel r, re.search .unlimited fuel options text start range = some (.ok r) ∧
      (re.matcher .unlimited options text start).Rightmost
        (fun x => (range ≤ x ∧ x ≤ start) ∧ (re.plan.edges.anyStarNewline → x = start)) r ∧
      ((re.matcher .unlimited options text start).Rightmost (fun x => range ≤ x ∧ x ≤ start) r ↔
        ∀ f, (re.matcher .unlimited options text start).Rightmost (fun x => range ≤ x ∧ x ≤ start) (some f) →
          re.plan.edges.anyStarNewline → f.start = start) := by
  obtain ⟨parsed, root, -, -, hcompile, -⟩ := compile_eq_ok h
  obtain ⟨size, code, counters, -, -, hprogram⟩ := CodeEnv.compile_eq_ok hcompile
  have henc : re.program.encoding = .ascii := by rw [hprogram, ← he]
  let m := re.matcher .unlimited options text start
  let q : Quarry := ⟨re.plan, re.program.encoding, re.program.fold, text⟩
  let Within : Nat → Prop := fun x => range ≤ x ∧ x ≤ start
  have hle := Nat.le_of_lt hlt
  have hreturns : ∀ x, Within x → ∃ v, m.Returns x v :=
    fun x ⟨hlo, hhi⟩ => exists_returns h (.of_ascii he hsize) (Nat.le_trans hhi hstart) (hends x hlo hhi)
  obtain ⟨hsorted, hmem⟩ := Quarry.plain_candidates_backward (q := q) henc hlt
  refine search_foremost h he hsize hlong hstart (by omega) (fun _ _ => Nat.lt_asymm) (fun x y => by omega) hsorted
    (List.pairwise_reverse.2 (List.pairwise_lt_range' (s := range) (n := start + 1 - range)))
    (fun x => ?_) (fun x hx => ?_) hreturns fun x ⟨hlo, hhi⟩ hstar hx => ?_
  · rw [List.mem_reverse, List.mem_range'_1]
    omega
  · obtain ⟨w, hw, hlo, hhi⟩ := (hmem x).1 hx
    obtain ⟨hlow, hhigh, hstar⟩ := Plan.window?_within hw hle (Nat.le_refl _)
    refine ⟨by omega, fun hs => ?_⟩
    have := hstar hs
    omega
  · obtain ⟨⟨length, caps⟩, fuel, hv⟩ := hreturns x ⟨hlo, hhi⟩
    cases length with
    | none => exact ⟨caps, fuel, hv⟩
    | some length =>
      obtain ⟨t, hxt, ht, hsound⟩ := succeeds_sound h he hsize ⟨length, caps, hv⟩
      obtain ⟨w, hw, hlow, hhigh⟩ := hsound.window? hxt ht hlo hhi hstar
      exact absurd ((hmem x).2 ⟨w, hw, hlow, hhigh⟩) hx

theorem search_rightmost_alternatives :
    ∃ re, Regex.compile { pattern := Pattern.ascii "(a|b)c", encoding := .ascii } = .ok re ∧
      (Options.none.union .none).contains .findLongest = false ∧
      (#[0x61, 0x63, 0x62, 0x63] : Text).size ≤ maxSize ∧ 0 < 4 ∧
      4 ≤ (#[0x61, 0x63, 0x62, 0x63] : Text).size ∧
      (∀ x, 0 ≤ x → x ≤ 4 →
        ∃ fuel, ((re.matcher .unlimited .none #[0x61, 0x63, 0x62, 0x63] 4).matchAt fuel x).isSome) ∧
      ∃ fuel r, re.search .unlimited fuel .none #[0x61, 0x63, 0x62, 0x63] 4 0 = some (.ok r) ∧
        (re.matcher .unlimited .none #[0x61, 0x63, 0x62, 0x63] 4).Rightmost
          (fun x => (0 ≤ x ∧ x ≤ 4) ∧ (re.plan.edges.anyStarNewline → x = 4)) r ∧
        ((re.matcher .unlimited .none #[0x61, 0x63, 0x62, 0x63] 4).Rightmost (fun x => 0 ≤ x ∧ x ≤ 4) r ↔
          ∀ f, (re.matcher .unlimited .none #[0x61, 0x63, 0x62, 0x63] 4).Rightmost
              (fun x => 0 ≤ x ∧ x ≤ 4) (some f) →
            re.plan.edges.anyStarNewline → f.start = 4) := by
  obtain ⟨re, h, hok⟩ := exists_ok
    (x := Regex.compile { pattern := Pattern.ascii "(a|b)c", encoding := .ascii })
    (p := fun re => (List.range 5).all fun x =>
      ((re.matcher .unlimited .none #[0x61, 0x63, 0x62, 0x63] 4).matchAt 20 x).isSome) (by decide +kernel)
  have hends : ∀ x, 0 ≤ x → x ≤ 4 →
      ∃ fuel, ((re.matcher .unlimited .none #[0x61, 0x63, 0x62, 0x63] 4).matchAt fuel x).isSome :=
    fun x _ hx => ⟨20, List.all_eq_true.1 hok x (List.mem_range.2 (by omega))⟩
  exact ⟨re, h, by decide, by decide, by decide, by decide, hends,
    search_rightmost h rfl .none (by decide) _ (by decide) (by decide) (by decide) hends⟩

/-- 改行にも合う `.*` で始まるパターンは、本文の終わりから探すと、手前に合う所があるのに見つからない。 -/
theorem search_rightmost_star :
    ∃ re caps, Regex.compile { pattern := Pattern.ascii ".*x", options := .multiline, encoding := .ascii } =
        .ok re ∧
      re.search .unlimited 20 .none #[0x61, 0x78, 0x62] 3 0 = some (.ok none) ∧
      (re.matcher .unlimited .none #[0x61, 0x78, 0x62] 3).matchAt 20 1 = some (.ok ⟨some 1, caps⟩) := by
  obtain ⟨re, hcompile, hok⟩ := exists_ok
    (x := Regex.compile { pattern := Pattern.ascii ".*x", options := .multiline, encoding := .ascii })
    (p := fun re =>
      ((re.search .unlimited 20 .none #[0x61, 0x78, 0x62] 3 0).bind Result.toOption).any Option.isNone &&
        (((re.matcher .unlimited .none #[0x61, 0x78, 0x62] 3).matchAt 20 1).bind Result.toOption).any
          (·.length == some 1)) (by decide +kernel)
  obtain ⟨hsearch, hmatch⟩ := Bool.and_eq_true_iff.1 hok
  obtain ⟨r, hr, hnone⟩ := exists_some_ok hsearch
  obtain ⟨⟨length, caps⟩, hv, hlength⟩ := exists_some_ok hmatch
  obtain rfl := Option.isNone_iff_eq_none.1 hnone
  obtain rfl := eq_of_beq hlength
  exact ⟨re, caps, hcompile, hr, hv⟩

end Regex
end MultibyteRegex

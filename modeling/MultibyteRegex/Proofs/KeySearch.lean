import MultibyteRegex.Proofs.Planning
import MultibyteRegex.Proofs.Scanning

/-!
# 手がかりによる検索が答えを変えないこと

一バイトの符号化では、探すものの周りだけを試す検索は、始まりの範囲のどの位置も試す検索と同じ答えを返す。
多バイトの符号化では、長さの上限で切った文字列の後ろに次の文字列をつないでしまうので、答えが変わりうる。
-/

namespace MultibyteRegex
namespace Regex

variable {s : Source} {re : Regex} {options : Options} {text : Text} {start range fuel x : Nat}

theorem matchAt_ne_error (h : Regex.compile s = .ok re) (hx : x ≤ text.size) (e : EvalError) :
    (re.matcher .unlimited options text start).matchAt fuel x ≠ some (.error e) := by
  obtain ⟨parsed, root, hparse, hprepare, hcompile, -⟩ := compile_eq_ok h
  have hw : root.WellFormed parsed.groups :=
    Node.wellFormed_prepare (Pattern.plain_parse hparse).wellFormed hprepare
  exact CodeEnv.matchAt_ne_error hcompile hw rfl rfl hx e

theorem matchAt_eq_ok (h : Regex.compile s = .ok re) (hb : s.Balanced text) (hx : x ≤ text.size)
    {r : Result Verdict} (hr : (re.matcher .unlimited options text start).matchAt fuel x = some r) :
    ∃ v, r = .ok v := by
  cases r with
  | ok v => exact ⟨v, rfl⟩
  | error e => exact absurd hr (matchAt_ne_error h hx e)
  | aborted => exact absurd hr (matchAt_ne_aborted h hb)

theorem exists_returns (h : Regex.compile s = .ok re) (hb : s.Balanced text) (hx : x ≤ text.size)
    (hends : ∃ fuel, ((re.matcher .unlimited options text start).matchAt fuel x).isSome) :
    ∃ v, (re.matcher .unlimited options text start).Returns x v := by
  obtain ⟨fuel, hfuel⟩ := hends
  obtain ⟨r, hr⟩ := Option.isSome_iff_exists.1 hfuel
  obtain ⟨v, rfl⟩ := matchAt_eq_ok h hb hx hr
  exact ⟨v, fuel, hr⟩

theorem plan_eq (h : Regex.compile s = .ok re) {root : Node} (htree : s.tree? = some root) :
    re.plan = .ofHints s.encoding (Hints.ofTree s.encoding s.fold s.options root) := by
  obtain ⟨parsed, -, -, hplan⟩ := exists_prepare h htree
  exact hplan

theorem spans_of_matchAt (h : Regex.compile s = .ok re) {root : Node} (htree : s.tree? = some root)
    {m : Matcher} (hm : m.program = re.program) (hread : Readable s.env m root.behinds) {length : Nat}
    {caps : Captures} (hx : m.matchAt fuel x = some (.ok ⟨some length, caps⟩)) :
    root.Spans s.env m s.options x (x + length) ∧ x + length ≤ m.text.size := by
  obtain ⟨groups, root', htree', hcompile, hwf, -⟩ := exists_tree h
  cases htree.symm.trans htree'
  obtain ⟨T, hv, hT, -⟩ := CodeEnv.compile_verified hcompile hwf hm x
  unfold Matcher.matchAt at hx
  split at hx
  · cases hx
  · rename_i hle
    obtain ⟨t, hspans, hxt, hlength, -⟩ := (Matcher.run_sound hv (Matcher.holds_start hT)).2.1 _ hx length rfl
    obtain ⟨-, ht⟩ := hread.le (fun _ => id) hspans (Nat.not_lt.1 hle)
    have hsum : x + length = t := by omega
    exact hsum ▸ ⟨hspans, ht⟩

/-- 一バイトの符号化では、手順が言うことは、どの照合でも成り立つ。 -/
theorem succeeds_sound (h : Regex.compile s = .ok re) (he : s.encoding = .ascii)
    (hsize : text.size ≤ maxSize)
    (hx : (re.matcher .unlimited options text start).Succeeds fuel x) :
    ∃ t, x ≤ t ∧ t ≤ text.size ∧ re.plan.Sound (re.matcher .unlimited options text start) x t := by
  obtain ⟨groups, root, htree, hcompile, -, -⟩ := exists_tree h
  obtain ⟨size, code, counters, -, -, hprogram⟩ := CodeEnv.compile_eq_ok hcompile
  have hsingle : SingleByte s.env (re.matcher .unlimited options text start) := by
    refine ⟨he, ?_, ?_, hsize⟩ <;> simp [Matcher.encoding, matcher, hprogram, Source.env, he]
  have hread := hsingle.readable root.behinds
  obtain ⟨length, caps, hx⟩ := hx
  obtain ⟨hspans, hin⟩ := spans_of_matchAt h htree rfl hread hx
  have hjoin := root.joinsEvenly_ascii s.env.fold s.options
  have hx : x ≤ text.size := by
    have : x + length ≤ text.size := hin
    omega
  rw [← hsingle.text] at hjoin
  refine ⟨x + length, Nat.le_add_right .., hin, ?_⟩
  rw [plan_eq h htree, he, ← hsingle.text]
  exact Plan.ofHints_sound (Hints.ofTree_sound hread hjoin hspans hx)
    (Encoding.isOverlong_of_ne_utf8 (by simp [hsingle.text])) _

theorem search_eq_scan (hstart : start ≤ text.size) (hrange : range ≤ text.size) (limits : Limits) :
    re.search limits fuel options text start range = (re.matcher limits options text start).scan fuel
      ((re.matcher limits options text start).options.contains .findLongest)
      (((re.matcher limits options text start).quarry re.plan).candidates start range) :=
  if_neg (by omega)

/-- 手がかりを使わずに、始まりの範囲のどの位置も試す。 -/
def withoutFinder (re : Regex) : Regex := { re with plan := { re.plan with finder := .nothing } }

/-- 落とすのが合わない位置だけなら、どの位置も試して終わるとき、探すものを使う検索も終わって同じ答えになる。 -/
theorem search_of_thins (h : Regex.compile s = .ok re) (hb : s.Balanced text) {r : Result (Option Found)}
    (hin : ∀ x ∈ ((re.matcher .unlimited options text start).quarry re.plan).plain.candidates start range,
      start ≤ text.size → range ≤ text.size → x ≤ text.size)
    (hthins : start ≤ text.size → range ≤ text.size →
      Thins ((re.matcher .unlimited options text start).Succeeds fuel)
        (((re.matcher .unlimited options text start).quarry re.plan).candidates start range)
        (((re.matcher .unlimited options text start).quarry re.plan).plain.candidates start range))
    (hr : re.withoutFinder.search .unlimited fuel options text start range = some r) :
    re.search .unlimited fuel options text start range = some r := by
  by_cases hout : text.size < start ∨ text.size < range
  · unfold search at hr ⊢
    rwa [if_pos hout] at hr ⊢
  · obtain ⟨hstart, hrange⟩ : start ≤ text.size ∧ range ≤ text.size := by omega
    rw [search_eq_scan hstart hrange] at hr ⊢
    exact Matcher.scan_thins (hthins hstart hrange) (fun x _ hx => hx)
      (fun x hx r hr => matchAt_eq_ok h hb (hin x hx hstart hrange) hr) hr

theorem search_of_withoutFinder (h : Regex.compile s = .ok re) (he : s.encoding = .ascii)
    (hsize : text.size ≤ maxSize) {r : Result (Option Found)}
    (hr : re.withoutFinder.search .unlimited fuel options text start range = some r) :
    re.search .unlimited fuel options text start range = some r := by
  obtain ⟨parsed, root, -, -, hcompile, -⟩ := compile_eq_ok h
  obtain ⟨size, code, counters, -, -, hprogram⟩ := CodeEnv.compile_eq_ok hcompile
  have henc : re.program.encoding = .ascii := by rw [hprogram, ← he]
  refine search_of_thins h (.of_ascii he hsize) (fun x hx hstart hrange => ?_) (fun hstart hrange => ?_) hr
  · obtain ⟨w, hw, -, hxw⟩ := Quarry.le_of_mem_plain henc hx
    have := (Plan.window?_within hw (Nat.min_le_left ..) (Nat.le_max_left ..)).2.1
    omega
  · by_cases hnothing : re.plan.finder.isNothing
    · rw [Quarry.plain_eq_self hnothing]
      exact .refl ..
    · refine (Quarry.candidates_thins henc start range).mono fun x hx => ?_
      obtain ⟨t, -, -, hsound⟩ := succeeds_sound h he hsize hx
      refine hsound.near fun hn => hnothing ?_
      rw [hn]
      rfl

/-- 最も長い照合を求めない検索は、始まりの範囲のどの位置も順に試した答えを返す。 -/
theorem search_of_first (h : Regex.compile s = .ok re) (he : s.encoding = .ascii) (hsize : text.size ≤ maxSize)
    (hlong : (s.options.union options).contains .findLongest = false) (hstart : start ≤ text.size)
    (hrange : range ≤ text.size) {r : Result (Option Found)}
    (hr : (re.matcher .unlimited options text start).first fuel
      ((⟨re.plan, re.program.encoding, re.program.fold, text⟩ : Quarry).plain.candidates start range) = some r) :
    re.search .unlimited fuel options text start range = some r := by
  obtain ⟨parsed, root, -, -, hcompile, -⟩ := compile_eq_ok h
  obtain ⟨size, code, counters, -, -, hprogram⟩ := CodeEnv.compile_eq_ok hcompile
  have hoptions : (re.withoutFinder.matcher .unlimited options text start).options.contains .findLongest =
      false := by
    simpa [matcher, withoutFinder, hprogram] using hlong
  refine search_of_withoutFinder h he hsize ?_
  unfold search
  rw [if_neg (by omega)]
  simp only [hoptions, Bool.false_eq_true, if_false]
  exact hr

/-! ## 多バイトの符号化 -/

/-- 平仮名の「あ」。 -/
def hiragana : Encoding → List UInt8
  | .ascii => []
  | .eucJp => [0xa4, 0xa2]
  | .sjis => [0x82, 0xa0]
  | .utf8 => [0xe3, 0x81, 0x82]

/-- 手がかりの長さの上限を越える文字列の後に、もう一つ文字列が続くパターン。 -/
def longSource (e : Encoding) : Source :=
  { pattern := Pattern.ascii "x?a" ++ (List.replicate 12 (hiragana e)).flatten ++ Pattern.ascii "(b)"
    encoding := e }

/-- 初めから終わりまで `longSource` に合う本文。 -/
def longText (e : Encoding) : Text :=
  (0x78 :: 0x61 :: (List.replicate 12 (hiragana e)).flatten ++ [0x62]).toArray

/-- 切った文字列の後ろに次の文字列をつなぐので、合うはずの所が見つからない。 -/
theorem search_long {e : Encoding} (he : e ≠ .ascii) : ∃ re f, Regex.compile (longSource e) = .ok re ∧
    re.search .unlimited 20 .none (longText e) 0 (longText e).size = some (.ok none) ∧
    re.withoutFinder.search .unlimited 20 .none (longText e) 0 (longText e).size = some (.ok (some f)) ∧
    f.start = 0 ∧ f.length = (longText e).size := by
  obtain ⟨re, hcompile, hok⟩ := exists_ok (x := Regex.compile (longSource e))
    (p := fun re =>
      ((re.search .unlimited 20 .none (longText e) 0 (longText e).size).bind Result.toOption).any
          Option.isNone &&
        ((re.withoutFinder.search .unlimited 20 .none (longText e) 0 (longText e).size).bind
          Result.toOption).any (·.any fun f => f.start == 0 && f.length == (longText e).size)) (by
    cases e with
    | ascii => exact absurd rfl he
    | _ => decide +kernel)
  obtain ⟨hkeyed, hplain⟩ := Bool.and_eq_true_iff.1 hok
  obtain ⟨r, hr, hnone⟩ := exists_some_ok hkeyed
  obtain ⟨r', hr', hsome⟩ := exists_some_ok hplain
  obtain ⟨f, rfl, hf⟩ := (Option.any_eq_true ..).1 hsome
  obtain rfl := Option.isNone_iff_eq_none.1 hnone
  exact ⟨re, f, hcompile, hr, hr', by simpa using hf⟩

/-- 符号化が `e` なら、手がかりを使っても使わなくても、検索の答えはいつも同じである。 -/
def Invisible (e : Encoding) : Prop :=
  ∀ (s : Source) (re : Regex), s.encoding = e → Regex.compile s = .ok re →
    ∀ (options : Options) (text : Text) (start range : Nat), text.size ≤ maxSize →
      start ≤ text.size → range ≤ text.size → ∀ (fuel fuel' : Nat) (r r' : Result (Option Found)),
        re.search .unlimited fuel options text start range = some r →
        re.withoutFinder.search .unlimited fuel' options text start range = some r' → r = r'

theorem search_mono {r : Result (Option Found)} {limits : Limits} {fuel' : Nat}
    (h : re.search limits fuel options text start range = some r) (hle : fuel ≤ fuel') :
    re.search limits fuel' options text start range = some r := by
  by_cases hout : text.size < start ∨ text.size < range
  · unfold search at h ⊢
    rwa [if_pos hout] at h ⊢
  · rw [search_eq_scan (by omega) (by omega)] at h ⊢
    exact Matcher.scan_mono h hle

theorem search_unique {r r' : Result (Option Found)} {limits : Limits} {fuel' : Nat}
    (h : re.search limits fuel options text start range = some r)
    (h' : re.search limits fuel' options text start range = some r') : r = r' := by
  have hmax := search_mono h (Nat.le_max_left fuel fuel')
  have hmax' := search_mono h' (Nat.le_max_right fuel fuel')
  exact Option.some.inj (hmax.symm.trans hmax')

/-- 手がかりの使い方が検索の答えに現れないのは、一バイトの符号化だけである。 -/
theorem invisible_iff (e : Encoding) : Invisible e ↔ e = .ascii := by
  constructor
  · intro hinv
    apply Classical.byContradiction
    intro he
    obtain ⟨re, f, hcompile, hkeyed, hplain, -, -⟩ := search_long he
    have hsize : (longText e).size ≤ maxSize := by
      cases e <;> decide
    have := hinv (longSource e) re rfl hcompile .none (longText e) 0 (longText e).size hsize
      (Nat.zero_le _) (Nat.le_refl _) 20 20 _ _ hkeyed hplain
    cases this
  · rintro rfl s re he h options text start range hsize - - fuel fuel' r r' hr hr'
    exact search_unique hr (search_of_withoutFinder h he hsize hr')

/-- 「あ」を 12 個並べた後に `b` が続くパターンは、合う所があるのに見つからない。 -/
theorem search_long_utf8 : ∃ re f, Regex.compile (longSource .utf8) = .ok re ∧
    re.search .unlimited 20 .none (longText .utf8) 0 (longText .utf8).size = some (.ok none) ∧
    re.withoutFinder.search .unlimited 20 .none (longText .utf8) 0 (longText .utf8).size =
      some (.ok (some f)) ∧ f.start = 0 ∧ f.length = (longText .utf8).size :=
  search_long (by decide)

end Regex
end MultibyteRegex

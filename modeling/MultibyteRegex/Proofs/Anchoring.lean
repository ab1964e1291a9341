import MultibyteRegex.Proofs.Leftmost
import MultibyteRegex.Proofs.Soundness
import MultibyteRegex.Proofs.Straying

/-!
# 終わりの検査のある検索

終わりの検査は、始まりの範囲の下端をバイト数で前へ進めるので、下端が文字の途中に来うる。下端が切れ目にあるか、
文字列を探すか、UTF-8 なら、前への検索は切れ目のうち最も左で合うものを返す。EUC-JP とシフト JIS では、途中から
一文字ずつ進んで切れ目を外すことがある。
-/

namespace MultibyteRegex

namespace Encoding

variable {e : Encoding} {text : Text} {x : Nat}

theorem isOverlong_of_size_le (h : text.size ≤ x) : e.isOverlong text x = false := by
  have hget : text.getD x 0 = 0 := dif_neg (Nat.not_lt.2 h)
  simp [isOverlong, hget, width_of_lt (e := e) (b := 0) (by decide)]

end Encoding

namespace Plan

variable {e : Encoding} {hints : Hints}

theorem ofHints_length : (ofHints e hints).length = hints.length := by
  unfold ofHints
  dsimp only
  split <;> rfl

theorem ofHints_member {set : ByteSet} (h : (ofHints e hints).finder = .member set) :
    (ofHints e hints).distance = .zero := by
  unfold ofHints at h ⊢
  dsimp only at h ⊢
  split at h
  · unfold finderOf at h
    split at h
    · cases h
    · split at h <;> cases h
  · rfl
  · rfl

end Plan

namespace Source

/-- 文字列がどれも、正しい文字だけを並べたものである。 -/
def isWellFormed (s : Source) : Bool := s.tree?.all (·.allLiterals s.encoding.isWellFormed)

end Source

namespace Source.Hinted

variable {s : Source} {hints : Hints} {m : Matcher} {root : Node} {x y : Nat}

theorem sound (h : s.Hinted hints m root x y) (hjoin : s.encoding = .ascii ∨ s.joinsEvenly)
    (hshort : s.encoding.isOverlong m.text x = false) : (Plan.ofHints s.encoding hints).Sound m x y := by
  have hjoin : root.joinsEvenly s.encoding s.fold s.options := by
    rcases hjoin with he | hjoin
    · rw [he]
      exact root.joinsEvenly_ascii s.fold s.options
    · simpa [Source.joinsEvenly, h.tree] using hjoin
  rw [h.hints]
  rw [h.code] at hjoin hshort
  exact Plan.ofHints_sound
    (Hints.ofTree_sound h.readable hjoin h.spans (Nat.le_trans h.le h.within)) hshort s.encoding

end Source.Hinted

namespace Regex

variable {s : Source} {re : Regex} {limits : Limits} {options : Options} {text : Text} {start range fuel x : Nat}

/-- 始まりの範囲 `w` の下端が切れ目にあるか、そこから文字列を探すか、UTF-8 の文字の途中では合わない。 -/
def Resyncs (re : Regex) (s : Source) (text : Text) (w : Nat × Nat) : Prop :=
  s.encoding.Head text w.1 ∨ (re.plan.finder.isKey ∧ w.1 ≠ w.2) ∨
    (s.encoding = .utf8 ∧ s.isWellFormed ∧ (s.fold.getD .ascii).KeepsTrail)

/-- 下端が文字の途中なら、切れ目を過ぎるまでは合わない。 -/
theorem head_of_succeeds (h : Regex.compile s = .ok re) (hbehind : s.looksBehind = false)
    (hw : s.encoding.isWellFormed text.toList) (he : s.encoding = .utf8) (hliterals : s.isWellFormed)
    (hkeeps : (s.fold.getD .ascii).KeepsTrail) (hstart : s.encoding.Head text start) {w : Nat × Nat}
    (hwindow : re.plan.window? text start start range = some w) (hlo : w.1 ≤ x)
    (hcatch : ∀ y, s.encoding.Head text y → w.1 ≤ y → y ≤ x → s.encoding.Head text x)
    (hx : (re.matcher limits options text start).Succeeds fuel x) : s.encoding.Head text x := by
  obtain ⟨length, caps, hx⟩ := hx
  obtain ⟨groups, root, htree, -⟩ := exists_tree h
  have hhints : s.hints? = some (.ofTree s.encoding s.fold s.options root) := by simp [Source.hints?, htree]
  obtain ⟨root', ht⟩ := hinted_of_matchAt h hbehind hhints hx
  cases htree.symm.trans ht.tree
  have hplan := plan_eq h htree
  generalize hm : re.matcher limits options text start = m at ht
  have htext : m.text = text := by rw [← hm]; rfl
  subst htext
  have hcode : s.encoding = m.encoding := ht.code
  have hle : x ≤ m.text.size := Nat.le_trans ht.le ht.within
  rw [hcode] at hw he hstart hcatch hplan ⊢
  refine Classical.byContradiction fun hhead => ?_
  have hstrays : m.Strays x := .of_not_head he (ht.fold ▸ hkeeps) hw hle hhead
  have hliterals : root.allLiterals m.encoding.isWellFormed := by
    simpa [Source.isWellFormed, htree, hcode] using hliterals
  have hspare := root.spans_spares ht.readable hstrays (fun _ => id) hliterals ht.spans
  have hend := (Hints.ofTree_bounds ht.readable ht.spans hle).right
  -- 余りの分だけ終わりの検査に届かないのに、合えば検査が成り立つ
  refine Plan.not_end_of_inside (p := re.plan) hw he hstart hwindow hlo hstrays.lt
    (fun z hz hwz hzx => hhead (hcatch z hz hwz hzx)) ht.le ?_ ?_
  · rw [hplan, Plan.ofHints_length]
    exact hspare
  · rw [hplan, Plan.ofHints_edges]
    exact hend

theorem exists_sound (h : Regex.compile s = .ok re) (hbehind : s.looksBehind = false)
    (hjoin : s.encoding = .ascii ∨ s.joinsEvenly) (hshort : ∀ x < text.size, s.encoding.isOverlong text x = false)
    (hx : (re.matcher limits options text start).Succeeds fuel x) :
    ∃ t, x ≤ t ∧ t ≤ text.size ∧ re.plan.Sound (re.matcher limits options text start) x t := by
  obtain ⟨length, caps, hx⟩ := hx
  obtain ⟨groups, root, htree, -⟩ := exists_tree h
  have hhints : s.hints? = some (.ofTree s.encoding s.fold s.options root) := by simp [Source.hints?, htree]
  obtain ⟨root', ht⟩ := hinted_of_matchAt h hbehind hhints hx
  have hlong : s.encoding.isOverlong text x = false := by
    rcases Nat.lt_or_ge x text.size with hlt | hge
    · exact hshort x hlt
    · exact Encoding.isOverlong_of_size_le hge
  have hsound := ht.sound hjoin hlong
  rw [← plan_eq h htree] at hsound
  exact ⟨x + length, ht.le, ht.within, hsound⟩

/-- 範囲の中で合う切れ目は、始まりの範囲に残り、近くに探すものが現れる。 -/
theorem window?_of_succeeds (h : Regex.compile s = .ok re) (hbehind : s.looksBehind = false)
    (hjoin : s.encoding = .ascii ∨ s.joinsEvenly) (hnewline : re.plan.edges.anyStarNewline = false)
    (hshort : ∀ x < text.size, s.encoding.isOverlong text x = false) (hlo : start ≤ x) (hhi : x ≤ range)
    (hx : (re.matcher limits options text start).Succeeds fuel x) :
    ∃ w, re.plan.window? text start start range = some w ∧ w.1 ≤ x ∧ x ≤ w.2 ∧
      (re.plan.finder ≠ .nothing → ((re.matcher limits options text start).quarry re.plan).Near x) := by
  obtain ⟨t, hxt, ht, hsound⟩ := exists_sound h hbehind hjoin hshort hx
  obtain ⟨w, hw, hwx, hxw⟩ := hsound.window? hxt ht hlo hhi (by simp [hnewline])
  exact ⟨w, hw, hwx, hxw, hsound.near⟩

theorem program_encoding (h : Regex.compile s = .ok re) : re.program.encoding = s.encoding := by
  obtain ⟨groups, root, -, hcompile, -, -⟩ := exists_tree h
  obtain ⟨size, code, counters, -, -, hprogram⟩ := CodeEnv.compile_eq_ok hcompile
  rw [hprogram]
  rfl

theorem distance_of_member (h : Regex.compile s = .ok re) {set : ByteSet} (hset : re.plan.finder = .member set) :
    re.plan.distance = .zero := by
  obtain ⟨groups, root, htree, -⟩ := exists_tree h
  rw [plan_eq h htree] at hset ⊢
  exact Plan.ofHints_member hset

/-- 試す候補は小さい順に並び、合うのは切れ目だけで、合う切れ目はすべて候補にある。 -/
theorem candidates_resync (h : Regex.compile s = .ok re) (hbehind : s.looksBehind = false)
    (hjoin : s.encoding = .ascii ∨ s.joinsEvenly) (hnewline : re.plan.edges.anyStarNewline = false)
    (hstar : re.plan.edges.anyStar = false) (hw : s.encoding.isWellFormed text.toList)
    (hshort : ∀ x < text.size, s.encoding.isOverlong text x = false) (hstart : s.encoding.Head text start)
    (hle : start ≤ range) (hrange : range ≤ text.size)
    (hresync : ∀ w ∈ re.plan.window? text start start range, re.Resyncs s text w) {m : Matcher}
    (hm : re.matcher limits options text start = m) :
    ((m.quarry re.plan).candidates start range).Pairwise (· < ·) ∧
      (∀ x ∈ (m.quarry re.plan).candidates start range, (start ≤ x ∧ x ≤ range) ∧
        ∀ fuel, m.Succeeds fuel x → s.encoding.Head text x) ∧
      ∀ fuel x, start ≤ x → x ≤ range → s.encoding.Head text x → m.Succeeds fuel x →
        x ∈ (m.quarry re.plan).candidates start range := by
  have hkept := fun fuel x (hlo : start ≤ x) (hhi : x ≤ range) (hx : m.Succeeds fuel x) =>
    window?_of_succeeds h hbehind hjoin hnewline hshort hlo hhi (hm ▸ hx)
  rw [hm] at hkept
  have htext : m.text = text := by rw [← hm]; rfl
  have hcode : (m.quarry re.plan).encoding = s.encoding := by
    rw [← hm]
    exact program_encoding h
  subst htext
  cases hwindow : re.plan.window? m.text start start range with
  | none =>
    have hnil : (m.quarry re.plan).candidates start range = [] := by
      unfold Quarry.candidates
      simp only [Matcher.quarry, Nat.min_eq_left hle, Nat.max_eq_right hle, hwindow]
    rw [hnil]
    refine ⟨.nil, by simp, fun fuel x hlo hhi _ hx => ?_⟩
    obtain ⟨w, hw, -⟩ := hkept fuel x hlo hhi hx
    cases hwindow.symm.trans hw
  | some w =>
    obtain ⟨hlow, hhigh, -⟩ := Plan.window?_within hwindow (Nat.le_refl _) hle
    have hsize := Nat.le_trans hhigh hrange
    have hin : ∀ x, w.1 ≤ x ∧ x ≤ w.2 → start ≤ x ∧ x ≤ range := fun x hx => by omega
    have hkept : ∀ fuel x, start ≤ x → x ≤ range → m.Succeeds fuel x →
        w.1 ≤ x ∧ x ≤ w.2 ∧ (re.plan.finder ≠ .nothing → (m.quarry re.plan).Near x) :=
      fun fuel x hlo hhi hx => by
        obtain ⟨v, hv, hrest⟩ := hkept fuel x hlo hhi hx
        cases hwindow.symm.trans hv
        exact hrest
    -- 文字列を探さないなら、下端から切れ目を飛ばさず、切れ目でない候補では合わない
    have hsync : (re.plan.finder.isKey ∧ w.1 ≠ w.2) ∨ s.encoding.Meets m.text w.1 ∧ ∀ fuel x, w.1 ≤ x →
        (∀ y, s.encoding.Head m.text y → w.1 ≤ y → y ≤ x → s.encoding.Head m.text x) →
        m.Succeeds fuel x → s.encoding.Head m.text x := by
      rcases hresync w hwindow with hhead | hkey | ⟨he, hliterals, hkeeps⟩
      · exact .inr ⟨hhead.meets, fun fuel x hwx hcatch _ => hcatch w.1 hhead (Nat.le_refl _) hwx⟩
      · exact .inl hkey
      · refine .inr ⟨?_, fun fuel x hwx hcatch hx =>
          head_of_succeeds h hbehind hw he hliterals hkeeps hstart hwindow hwx hcatch (hm ▸ hx)⟩
        rw [he] at hw ⊢
        exact Encoding.meets_utf8 hw w.1
    rw [← hcode] at hw
    rcases hsync with ⟨hkey, hne⟩ | ⟨hmeets, hcatches⟩
    · obtain ⟨hsorted, hmem, hall⟩ :=
        Quarry.candidates_isKey (q := m.quarry re.plan) hw hle hwindow hsize hstar hkey hne
      rw [hcode] at hmem hall
      refine ⟨hsorted, fun x hx => ⟨hin x (hmem x hx).1, fun _ _ => (hmem x hx).2⟩,
        fun fuel x hlo hhi hhead hx => ?_⟩
      obtain ⟨hwx, hxw, hnear⟩ := hkept fuel x hlo hhi hx
      exact hall x hhead hwx hxw (hnear fun hnothing => by rw [hnothing] at hkey; cases hkey)
    · rw [← hcode] at hmeets
      obtain ⟨hsorted, hmem, hall⟩ :=
        Quarry.candidates_meets (q := m.quarry re.plan) hw hle hwindow hsize hstar (fun _ => distance_of_member h) hmeets
      rw [hcode] at hmem hall
      refine ⟨hsorted, fun x hx => ⟨hin x (hmem x hx).1, fun fuel =>
        hcatches fuel x (hmem x hx).1.1 (hmem x hx).2⟩, fun fuel x hlo hhi hhead hx => ?_⟩
      obtain ⟨hwx, hxw, hnear⟩ := hkept fuel x hlo hhi hx
      exact hall x hhead hwx hxw hnear

/-- 始まりの範囲の下端から切れ目に揃う検索は、切れ目のうち最も左で合うものを返し、合う切れ目がなければ見つからない。 -/
theorem search_heads (h : Regex.compile s = .ok re) (hbehind : s.looksBehind = false)
    (hjoin : s.encoding = .ascii ∨ s.joinsEvenly) (options : Options)
    (hlong : (s.options.union options).contains .findLongest = false)
    (hnewline : re.plan.edges.anyStarNewline = false) (hstar : re.plan.edges.anyStar = false) {text : Text}
    (hw : s.encoding.isWellFormed text.toList) (hshort : ∀ x < text.size, s.encoding.isOverlong text x = false)
    {start range : Nat} (hstart : s.encoding.Head text start) (hle : start ≤ range) (hrange : range ≤ text.size)
    (hresync : ∀ w ∈ re.plan.window? text start start range, re.Resyncs s text w)
    (hends : ∀ x, start ≤ x → x ≤ range →
      ∃ fuel, ((re.matcher .unlimited options text start).matchAt fuel x).isSome) :
    ∃ fuel r, re.search .unlimited fuel options text start range = some (.ok r) ∧
      (re.matcher .unlimited options text start).Leftmost
        (fun x => (start ≤ x ∧ x ≤ range) ∧ s.encoding.Head text x) r := by
  obtain ⟨groups, root, -, hcompile, -⟩ := exists_tree h
  obtain ⟨size, code, counters, -, -, hprogram⟩ := CodeEnv.compile_eq_ok hcompile
  have hoptions : (re.matcher .unlimited options text start).options.contains .findLongest = false := by
    simpa [matcher, hprogram] using hlong
  have hreturns : ∀ x, start ≤ x ∧ x ≤ range →
      ∃ v, (re.matcher .unlimited options text start).Returns x v :=
    fun x hx => exists_returns h (.inl hbehind) (by omega) (hends x hx.1 hx.2)
  obtain ⟨hsorted, hmem, hall⟩ := candidates_resync h hbehind hjoin hnewline hstar hw hshort hstart hle hrange
    hresync (rfl : re.matcher .unlimited options text start = _)
  obtain ⟨fuel, r, hr, hleft⟩ :=
    Matcher.exists_foremost (fun _ _ => Nat.lt_asymm) hsorted fun x hx => hreturns x (hmem x hx).1
  refine ⟨fuel, r, ?_, hleft.exchange (fun x hx => ?_) fun x hx => ?_⟩
  · rw [search_eq_scan (Nat.le_trans hle hrange) hrange, hoptions]
    exact hr
  · obtain ⟨⟨_ | length, caps⟩, fuel, hv⟩ := hreturns x (hmem x hx).1
    · exact .inr ⟨caps, fuel, hv⟩
    · exact .inl ⟨(hmem x hx).1, (hmem x hx).2 fuel ⟨length, caps, hv⟩⟩
  · obtain ⟨⟨_ | length, caps⟩, fuel, hv⟩ := hreturns x hx.1
    · exact .inr ⟨caps, fuel, hv⟩
    · exact .inl (hall fuel x hx.1.1 hx.1.2 hx.2 ⟨length, caps, hv⟩)

theorem search_heads_inside :
    ∃ s re text, s = { pattern := Pattern.ascii ".?\\z" } ∧ text = #[0xe3, 0x81, 0x82, 0x61, 0xe3, 0x81, 0x84] ∧
      Regex.compile s = .ok re ∧ s.looksBehind = false ∧ s.joinsEvenly ∧
      (s.options.union .none).contains .findLongest = false ∧ re.plan.edges.anyStarNewline = false ∧
      re.plan.edges.anyStar = false ∧ s.encoding.isWellFormed text.toList ∧
      (∀ x < text.size, s.encoding.isOverlong text x = false) ∧ s.encoding.Head text 0 ∧ 0 ≤ text.size ∧
      (∃ w ∈ re.plan.window? text 0 0 text.size, ¬s.encoding.Head text w.1) ∧
      (∀ w ∈ re.plan.window? text 0 0 text.size, re.Resyncs s text w) ∧
      (∀ x, 0 ≤ x → x ≤ text.size → ∃ fuel, ((re.matcher .unlimited .none text 0).matchAt fuel x).isSome) ∧
      ∃ fuel r, re.search .unlimited fuel .none text 0 text.size = some (.ok r) ∧
        (re.matcher .unlimited .none text 0).Leftmost
          (fun x => (0 ≤ x ∧ x ≤ text.size) ∧ s.encoding.Head text x) r := by
  let s : Source := { pattern := Pattern.ascii ".?\\z" }
  let text : Text := #[0xe3, 0x81, 0x82, 0x61, 0xe3, 0x81, 0x84]
  obtain ⟨re, h, hok⟩ := exists_ok (x := Regex.compile s)
    (p := fun re => !s.looksBehind && s.joinsEvenly && s.isWellFormed && !re.plan.edges.anyStarNewline &&
      !re.plan.edges.anyStar && (re.plan.window? text 0 0 text.size == some (1, 7)) &&
      (List.range 8).all fun x => ((re.matcher .unlimited .none text 0).matchAt 20 x).isSome) (by decide +kernel)
  simp only [Bool.and_eq_true, Bool.not_eq_true', beq_iff_eq] at hok
  obtain ⟨⟨⟨⟨⟨⟨hbehind, hjoin⟩, hliterals⟩, hnewline⟩, hstar⟩, hwindow⟩, hends⟩ := hok
  have hw : s.encoding.isWellFormed text.toList := by decide +kernel
  have hshort : ∀ x < text.size, s.encoding.isOverlong text x = false := by decide +kernel
  have hinside : ¬s.encoding.Head text 1 := fun hhead =>
    absurd (Encoding.Head.zero.nextHead_le hhead (by decide)) (by decide +kernel)
  have hresync : ∀ w ∈ re.plan.window? text 0 0 text.size, re.Resyncs s text w :=
    fun w _ => .inr (.inr ⟨rfl, hliterals, FoldTable.keepsTrail_ascii⟩)
  have hends : ∀ x, 0 ≤ x → x ≤ text.size →
      ∃ fuel, ((re.matcher .unlimited .none text 0).matchAt fuel x).isSome :=
    fun x _ hx => ⟨20, List.all_eq_true.1 hends x (List.mem_range.2 (Nat.lt_succ_of_le hx))⟩
  exact ⟨s, re, text, rfl, rfl, h, hbehind, hjoin, by decide, hnewline, hstar, hw, hshort, .zero, Nat.zero_le _,
    ⟨_, hwindow, hinside⟩, hresync, hends,
    search_heads h hbehind (.inr hjoin) .none (by decide) hnewline hstar hw hshort .zero (Nat.zero_le _)
      (Nat.le_refl _) hresync hends⟩

/-- EUC-JP では、下端が文字の途中になって切れ目でない位置を返し、合う切れ目を飛ばすことがある。 -/
theorem search_heads_missed :
    ∃ s re text f caps, s = { pattern := Pattern.ascii ".?\\z", encoding := .eucJp } ∧
      text = #[0xa4, 0xa2, 0xa4, 0xa4] ∧ Regex.compile s = .ok re ∧ s.looksBehind = false ∧ s.isWellFormed ∧
      re.plan.edges.endBuf ∧ re.plan.edges.anyStarNewline = false ∧ re.plan.edges.anyStar = false ∧
      s.encoding.isWellFormed text.toList ∧ s.encoding.Head text 0 ∧ s.encoding.Head text 4 ∧
      (∀ x ≤ 4, ∃ fuel, ((re.matcher .unlimited .none text 0).matchAt fuel x).isSome) ∧
      re.search .unlimited 20 .none text 0 4 = some (.ok (some f)) ∧ f.start = 3 ∧ ¬s.encoding.Head text 3 ∧
      s.encoding.Head text 2 ∧
      (re.matcher .unlimited .none text 0).matchAt 20 2 = some (.ok ⟨some 2, caps⟩) := by
  let s : Source := { pattern := Pattern.ascii ".?\\z", encoding := .eucJp }
  let text : Text := #[0xa4, 0xa2, 0xa4, 0xa4]
  obtain ⟨re, h, hok⟩ := exists_ok (x := Regex.compile s)
    (p := fun re => !s.looksBehind && s.isWellFormed && re.plan.edges.endBuf && !re.plan.edges.anyStarNewline &&
      !re.plan.edges.anyStar &&
      ((List.range 5).all fun x => ((re.matcher .unlimited .none text 0).matchAt 20 x).isSome) &&
      (((re.search .unlimited 20 .none text 0 4).bind Result.toOption).any (·.any (·.start == 3))) &&
      (((re.matcher .unlimited .none text 0).matchAt 20 2).bind Result.toOption).any (·.length == some 2))
    (by decide +kernel)
  simp only [Bool.and_eq_true, Bool.not_eq_true'] at hok
  obtain ⟨⟨⟨⟨⟨⟨⟨hbehind, hliterals⟩, hend⟩, hnewline⟩, hstar⟩, hends⟩, hsearch⟩, hmatch⟩ := hok
  obtain ⟨r, hr, hstart⟩ := exists_some_ok hsearch
  obtain ⟨f, rfl, hstart⟩ := (Option.any_eq_true ..).1 hstart
  obtain ⟨⟨length, caps⟩, hx, hlength⟩ := exists_some_ok hmatch
  obtain rfl := eq_of_beq hlength
  have htwo : s.encoding.Head text 2 := ⟨by decide, 1, by decide +kernel⟩
  have hthree : ¬s.encoding.Head text 3 := fun hhead =>
    absurd (htwo.nextHead_le hhead (by decide)) (by decide +kernel)
  exact ⟨s, re, text, f, caps, rfl, rfl, h, hbehind, hliterals, hend, hnewline, hstar, by decide +kernel, .zero,
    ⟨by decide, 2, by decide +kernel⟩,
    fun x hx => ⟨20, List.all_eq_true.1 hends x (List.mem_range.2 (Nat.lt_succ_of_le hx))⟩, hr,
    eq_of_beq hstart, hthree, htwo, hx⟩

end Regex
end MultibyteRegex

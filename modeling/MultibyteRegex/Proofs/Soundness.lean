import MultibyteRegex.Proofs.KeySearch

/-!
# 検索の手がかりの正しさ

後読みのないパターンでは、木から読み取った手がかりが、どの符号化のどの本文の、成功したどの照合でも成り立つ。
本文は正しい文字の並びでなくてよい。正しい形でない UTF-8 の本文では、始まるバイトの代わりに、長い形で書いた
文字そのものを調べる。文字列の手がかりには、上限より短く切れた文字列につなぐ所がないことを求める。
-/

namespace MultibyteRegex

/-! ## 現れる文字列 -/

namespace Text

variable {text : Text} {p n : Nat}

theorem slice_succ (hp : p < text.size) : text.slice p (p + (n + 1)) = text[p] :: text.slice (p + 1) (p + 1 + n) := by
  have hdrop : text.toList.drop p = text[p] :: text.toList.drop (p + 1) :=
    List.drop_eq_getElem_cons (by simpa using hp)
  simp [slice, List.extract_eq_take_drop, hdrop]

end Text

namespace Matcher

variable {m : Matcher} {folded : Bool} {bytes : List UInt8} {p : Nat}

theorem slice_of_occurs (h : m.occurs folded bytes p) :
    (m.text.slice p (p + bytes.length)).map (fun b => if folded then m.program.fold.fold b else b) = bytes := by
  induction bytes generalizing p with
  | nil => simp [Text.slice]
  | cons b bytes ih =>
    rw [← List.singleton_append, occurs_append, Bool.and_eq_true] at h
    obtain ⟨hb, hbytes⟩ := h
    have hlt : p < m.text.size := by
      cases folded
      · have := Text.hasAt_le hb
        simp only [List.length_singleton] at this
        omega
      · have := Text.hasFoldedAt_le hb
        simp only [List.length_singleton] at this
        omega
    have hhead : (if folded then m.program.fold.fold m.text[p] else m.text[p]) = b := by
      cases folded <;>
        simp [occurs, Text.hasAt, Text.hasFoldedAt, Array.getElem?_eq_getElem hlt] at hb <;> simp [hb.1]
    rw [List.length_cons, Text.slice_succ hlt, List.map_cons, hhead]
    exact congrArg (b :: ·) (ih hbytes)

end Matcher

/-! ## 木から選ぶ手がかり -/

theorem ByteSet.count_lt {set : ByteSet} {b : UInt8} (h : set.contains b = false) : set.count < 256 := by
  have hlt : (allBytes.filter set.contains).length < allBytes.length :=
    List.length_filter_lt_length_iff_exists.2 ⟨b, mem_allBytes b, by simp [h]⟩
  exact hlt.trans_eq (by simp [allBytes])

namespace Source

/-- 木の全体から選ぶ、検索の手がかり。 -/
def hints? (s : Source) : Option Hints := s.tree?.map (Hints.ofTree s.encoding s.fold s.options)

/-- 手がかりの文字列をつなぐ所では、前の文字列が上限より短く切れていない。 -/
def joinsEvenly (s : Source) : Bool := s.tree?.all (·.joinsEvenly s.encoding s.fold s.options)

/-- 角括弧だけのパターンは、先頭になりうるバイトがすべてでなければ、それを手がかりにする。 -/
theorem hints?_class {s : Source} {c : CharClass} (h : s.tree? = some (.cclass c)) {b : UInt8}
    (hb : (c.leadBytes s.encoding).contains b = false) :
    ∃ hints, s.hints? = some hints ∧ hints.first = some (c.leadBytes s.encoding) := by
  refine ⟨.ofTree s.encoding s.fold s.options (.cclass c), by simp [hints?, h], ?_⟩
  simp [Hints.ofTree, Facts.ofNode, Facts.ofChar, ByteSet.count_lt hb]

end Source

/-- 後読みのないパターンの木が `[x, y)` に合った所で、その木の手がかりについて言えること。 -/
structure Source.Hinted (s : Source) (hints : Hints) (m : Matcher) (root : Node) (x y : Nat) : Prop where
  tree : s.tree? = some root
  code : s.encoding = m.encoding
  fold : m.program.fold = s.fold.getD .ascii
  hints : hints = .ofTree m.encoding s.fold s.options root
  readable : Readable s.env m root.behinds
  spans : root.Spans s.env m s.options x y
  le : x ≤ y
  within : y ≤ m.text.size

namespace Regex

variable {s : Source} {re : Regex} {hints : Hints} {limits : Limits} {options : Options} {text : Text}
  {start fuel x length : Nat} {caps : Captures}

theorem hinted_of_matchAt (h : Regex.compile s = .ok re) (hbehind : s.looksBehind = false)
    (hhints : s.hints? = some hints)
    (hx : (re.matcher limits options text start).matchAt fuel x = some (.ok ⟨some length, caps⟩)) :
    ∃ root, s.Hinted hints (re.matcher limits options text start) root x (x + length) := by
  obtain ⟨groups, root, htree, hcompile, -, -⟩ := exists_tree h
  obtain ⟨size, code, counters, -, -, hprogram⟩ := CodeEnv.compile_eq_ok hcompile
  have hcode : s.encoding = (re.matcher limits options text start).encoding := by
    simp [Matcher.encoding, matcher, hprogram, Source.env]
  have hfold : (re.matcher limits options text start).program.fold = s.fold.getD .ascii := by
    simp [matcher, hprogram, Source.env]
  have hnone : root.behinds = [] := by simpa [Source.looksBehind, htree] using hbehind
  have hread : Readable s.env (re.matcher limits options text start) root.behinds :=
    hnone ▸ .of_nil hcode.symm hfold
  obtain ⟨hspans, hin⟩ := spans_of_matchAt h htree rfl hread hx
  exact ⟨root, htree, hcode, hfold, by simpa [Source.hints?, htree, hcode, eq_comm] using hhints, hread, hspans,
    Nat.le_add_right .., hin⟩

/-- 長さと両端の検査の手がかりは、成功したどの照合でも成り立つ。 -/
theorem matchAt_extent (h : Regex.compile s = .ok re) (hbehind : s.looksBehind = false)
    (hhints : s.hints? = some hints)
    (hx : (re.matcher limits options text start).matchAt fuel x = some (.ok ⟨some length, caps⟩)) :
    hints.length.min ≤ length ∧ hints.threshold ≤ length ∧ (∀ longest ∈ hints.length.max, length ≤ longest) ∧
      (hints.edges.beginBuf → x = 0) ∧ (hints.edges.beginPosition → x = start) ∧
      (hints.edges.endBuf → x + length = text.size) ∧
      (hints.edges.semiEndBuf → x + length = text.size ∨
        x + length + 1 = text.size ∧ text.back? = some 0x0a) := by
  obtain ⟨root, ht⟩ := hinted_of_matchAt h hbehind hhints hx
  obtain rfl := ht.hints
  have hb := Hints.ofTree_bounds ht.readable ht.spans (Nat.le_trans ht.le ht.within)
  have hlength := hb.length
  have hthreshold := hb.threshold
  rw [Nat.add_sub_cancel_left] at hlength hthreshold
  refine ⟨hlength.1, hthreshold, hlength.2, hb.left.buf, hb.left.position, hb.right.buf, fun hsemi => ?_⟩
  refine (hb.right.semiBuf hsemi).imp_right fun ⟨hlast, hnewline⟩ => ⟨hlast, ?_⟩
  have hlast : text.size - 1 = x + length := (Nat.eq_sub_of_add_eq hlast).symm
  rw [Array.back?, hlast]
  exact hnewline

theorem matchAt_extent_chunks :
    ∃ s re hints caps, s = { pattern := Pattern.ascii "\\G(?:a|bc)\x7b2,3\x7d\\Z" } ∧
      Regex.compile s = .ok re ∧ s.looksBehind = false ∧ s.hints? = some hints ∧
      (re.matcher .unlimited .none #[0x78, 0x61, 0x62, 0x63, 0x0a] 1).matchAt 40 1 =
        some (.ok ⟨some 3, caps⟩) ∧
      hints.length.min ≤ 3 ∧ hints.threshold ≤ 3 ∧ (∀ longest ∈ hints.length.max, 3 ≤ longest) ∧
      (hints.edges.beginBuf → 1 = 0) ∧ (hints.edges.beginPosition → 1 = 1) ∧ (hints.edges.endBuf → 1 + 3 = 5) ∧
      (hints.edges.semiEndBuf → 1 + 3 = 5 ∨ 1 + 3 + 1 = 5 ∧
        (#[0x78, 0x61, 0x62, 0x63, 0x0a] : Text).back? = some 0x0a) := by
  let s : Source := { pattern := Pattern.ascii "\\G(?:a|bc)\x7b2,3\x7d\\Z" }
  obtain ⟨re, h, hok⟩ := exists_ok (x := Regex.compile s)
    (p := fun re => !s.looksBehind && s.hints?.isSome &&
      (((re.matcher .unlimited .none #[0x78, 0x61, 0x62, 0x63, 0x0a] 1).matchAt 40 1).bind Result.toOption).any
        (·.length == some 3)) (by decide +kernel)
  simp only [Bool.and_eq_true, Bool.not_eq_true'] at hok
  obtain ⟨⟨hbehind, hhints⟩, hmatch⟩ := hok
  obtain ⟨hints, hhints⟩ := Option.isSome_iff_exists.1 hhints
  obtain ⟨⟨length, caps⟩, hx, hlength⟩ := exists_some_ok hmatch
  obtain rfl := eq_of_beq hlength
  exact ⟨s, re, hints, caps, rfl, h, hbehind, hhints, hx, matchAt_extent h hbehind hhints hx⟩

/-- 始まるバイトの手がかりは、成功したどの照合でも成り立つ。UTF-8 で一バイトの文字が長い形で書かれている所では、
その文字が集合に入る。 -/
theorem matchAt_lead (h : Regex.compile s = .ok re) (hbehind : s.looksBehind = false)
    (hhints : s.hints? = some hints) {set : ByteSet} (hset : hints.first = some set)
    (hx : (re.matcher limits options text start).matchAt fuel x = some (.ok ⟨some length, caps⟩)) :
    ∃ b, text[x]? = some b ∧ (set.contains b ∨
      s.encoding = .utf8 ∧ s.encoding.isOverlong text x ∧ set.contains (s.encoding.codeAt text x).toUInt8) := by
  obtain ⟨root, ht⟩ := hinted_of_matchAt h hbehind hhints hx
  obtain rfl := ht.hints
  have hbounds := Hints.ofTree_bounds ht.readable ht.spans (Nat.le_trans ht.le ht.within)
  obtain ⟨b, hb, hstarts⟩ := hbounds.first set hset
  rw [← ht.code] at hstarts
  refine ⟨b, hb, hstarts.imp_right fun ⟨hlong, hcontains⟩ => ⟨?_, hlong, hcontains⟩⟩
  apply Classical.byContradiction
  intro hne
  exact absurd hlong (by simp [Encoding.isOverlong_of_ne_utf8 hne, matcher])

theorem exists_tab :
    ∃ s re hints set caps, s = { pattern := Pattern.ascii "[\\t]" } ∧ Regex.compile s = .ok re ∧
      s.looksBehind = false ∧ s.hints? = some hints ∧ hints.first = some set ∧
      (re.matcher .unlimited .none #[0xc0, 0x89] 0).matchAt 20 0 = some (.ok ⟨some 2, caps⟩) ∧
      ¬set.contains 0xc0 := by
  let s : Source := { pattern := Pattern.ascii "[\\t]" }
  obtain ⟨re, h, hok⟩ := exists_ok (x := Regex.compile s)
    (p := fun re => (s.tree?.any fun
        | .cclass c => c.ranges.isEmpty && !c.negated
        | _ => false) &&
      (((re.matcher .unlimited .none #[0xc0, 0x89] 0).matchAt 20 0).bind Result.toOption).any
        (·.length == some 2)) (by decide +kernel)
  obtain ⟨hclass, hmatch⟩ := Bool.and_eq_true_iff.1 hok
  obtain ⟨⟨length, caps⟩, hx, hlength⟩ := exists_some_ok hmatch
  obtain rfl := eq_of_beq hlength
  obtain ⟨root, htree, hclass⟩ := (Option.any_eq_true ..).1 hclass
  split at hclass
  · rename_i c
    have hout : (c.leadBytes s.encoding).contains 0xc0 = false := by
      simpa [CharClass.leadBytes, CharClass.isSingle, s, and_comm] using hclass
    obtain ⟨hints, hhints, hset⟩ := Source.hints?_class htree hout
    exact ⟨s, re, hints, _, caps, rfl, h, by simp [Source.looksBehind, htree, Node.behinds], hhints, hset, hx,
      by simp [hout]⟩
  · cases hclass

theorem matchAt_lead_tab :
    ∃ s re hints set caps, s = { pattern := Pattern.ascii "[\\t]" } ∧ Regex.compile s = .ok re ∧
      s.looksBehind = false ∧ s.hints? = some hints ∧ hints.first = some set ∧
      (re.matcher .unlimited .none #[0xc0, 0x89] 0).matchAt 20 0 = some (.ok ⟨some 2, caps⟩) ∧
      ∃ b, (#[0xc0, 0x89] : Text)[0]? = some b ∧ (set.contains b ∨
        s.encoding = .utf8 ∧ s.encoding.isOverlong #[0xc0, 0x89] 0 ∧
          set.contains (s.encoding.codeAt #[0xc0, 0x89] 0).toUInt8) := by
  obtain ⟨s, re, hints, set, caps, hs, h, hbehind, hhints, hset, hx, -⟩ := exists_tab
  exact ⟨s, re, hints, set, caps, hs, h, hbehind, hhints, hset, hx, matchAt_lead h hbehind hhints hset hx⟩

theorem matchAt_lead_overlong :
    ∃ s re hints set caps, s = { pattern := Pattern.ascii "[\\t]" } ∧ Regex.compile s = .ok re ∧
      s.looksBehind = false ∧ s.hints? = some hints ∧ hints.first = some set ∧
      (re.matcher .unlimited .none #[0xc0, 0x89] 0).matchAt 20 0 = some (.ok ⟨some 2, caps⟩) ∧
      (#[0xc0, 0x89] : Text)[0]? = some 0xc0 ∧ ¬set.contains 0xc0 := by
  obtain ⟨s, re, hints, set, caps, hs, h, hbehind, hhints, hset, hx, hout⟩ := exists_tab
  exact ⟨s, re, hints, set, caps, hs, h, hbehind, hhints, hset, hx, rfl, hout⟩

/-- 上限より短く切れた文字列につなぐ所がなければ、文字列の手がかりは、成功したどの照合にも言われた距離の所に
現れる。一バイトの符号化には、そのような所がない。 -/
theorem matchAt_key (h : Regex.compile s = .ok re) (hbehind : s.looksBehind = false)
    (hjoin : s.encoding = .ascii ∨ s.joinsEvenly) (hhints : s.hints? = some hints) {k : Key}
    (hk : hints.key = some k)
    (hx : (re.matcher limits options text start).matchAt fuel x = some (.ok ⟨some length, caps⟩)) :
    ∃ p, x + k.distance.min ≤ p ∧ (∀ far ∈ k.distance.max, p ≤ x + far) ∧
      p + k.bytes.length ≤ x + length ∧ p + k.bytes.length ≤ text.size ∧
      (text.slice p (p + k.bytes.length)).map
        (fun b => if k.folded then (s.fold.getD .ascii).fold b else b) = k.bytes := by
  obtain ⟨root, ht⟩ := hinted_of_matchAt h hbehind hhints hx
  obtain rfl := ht.hints
  have hjoin : root.joinsEvenly s.encoding s.fold s.options := by
    rcases hjoin with he | hjoin
    · rw [he]
      exact root.joinsEvenly_ascii s.fold s.options
    · simpa [Source.joinsEvenly, ht.tree] using hjoin
  rw [ht.code] at hjoin
  have hsound := Hints.ofTree_sound ht.readable hjoin ht.spans (Nat.le_trans ht.le ht.within)
  obtain ⟨p, hp⟩ := hsound.key k hk
  have hxp := hp.le
  have hmin := hp.distance.1
  refine ⟨p, by omega, fun far hfar => ?_, hp.within, Nat.le_trans hp.within ht.within, ?_⟩
  · have := hp.distance.2 far hfar
    omega
  · rw [← ht.fold]
    exact Matcher.slice_of_occurs hp.occurs

theorem matchAt_key_joined :
    ∃ s re hints k caps,
      s = { pattern := Pattern.ascii "x?(" ++ hiragana .utf8 ++ Pattern.ascii ")bc+" } ∧
      Regex.compile s = .ok re ∧ s.looksBehind = false ∧ s.joinsEvenly ∧ s.hints? = some hints ∧
      hints.key = some k ∧
      (re.matcher .unlimited .none #[0x78, 0xe3, 0x81, 0x82, 0x62, 0x63] 0).matchAt 40 0 =
        some (.ok ⟨some 6, caps⟩) ∧
      ∃ p, 0 + k.distance.min ≤ p ∧ (∀ far ∈ k.distance.max, p ≤ 0 + far) ∧ p + k.bytes.length ≤ 0 + 6 ∧
        p + k.bytes.length ≤ 6 ∧
        (Text.slice #[0x78, 0xe3, 0x81, 0x82, 0x62, 0x63] p (p + k.bytes.length)).map
          (fun b => if k.folded then (s.fold.getD .ascii).fold b else b) = k.bytes := by
  let s : Source := { pattern := Pattern.ascii "x?(" ++ hiragana .utf8 ++ Pattern.ascii ")bc+" }
  obtain ⟨re, h, hok⟩ := exists_ok (x := Regex.compile s)
    (p := fun re => !s.looksBehind && s.joinsEvenly && s.hints?.any (·.key.isSome) &&
      (((re.matcher .unlimited .none #[0x78, 0xe3, 0x81, 0x82, 0x62, 0x63] 0).matchAt 40 0).bind
        Result.toOption).any (·.length == some 6)) (by decide +kernel)
  simp only [Bool.and_eq_true, Bool.not_eq_true'] at hok
  obtain ⟨⟨⟨hbehind, hjoin⟩, hhints⟩, hmatch⟩ := hok
  obtain ⟨hints, hhints, hk⟩ := (Option.any_eq_true ..).1 hhints
  obtain ⟨k, hk⟩ := Option.isSome_iff_exists.1 hk
  obtain ⟨⟨length, caps⟩, hx, hlength⟩ := exists_some_ok hmatch
  obtain rfl := eq_of_beq hlength
  exact ⟨s, re, hints, k, caps, rfl, h, hbehind, hjoin, hhints, hk, hx,
    matchAt_key h hbehind (.inr hjoin) hhints hk hx⟩

/-- 「あ」を 12 個並べた後に `b` が続くパターンの手がかりは、本文の全体に合うのに、本文のどこにも現れない。 -/
theorem matchAt_key_long :
    ∃ re hints k caps, Regex.compile (longSource .utf8) = .ok re ∧ (longSource .utf8).looksBehind = false ∧
      (longSource .utf8).hints? = some hints ∧ hints.key = some k ∧ k.folded = false ∧
      (re.matcher .unlimited .none (longText .utf8) 0).matchAt 20 0 = some (.ok ⟨some 39, caps⟩) ∧
      ∀ p, p + k.bytes.length ≤ (longText .utf8).size →
        (longText .utf8).slice p (p + k.bytes.length) ≠ k.bytes := by
  obtain ⟨re, h, hok⟩ := exists_ok (x := Regex.compile (longSource .utf8))
    (p := fun re => !(longSource .utf8).looksBehind &&
      (longSource .utf8).hints?.any (·.key.any fun k => !k.folded &&
        (List.range 40).all fun p => (longText .utf8).slice p (p + k.bytes.length) != k.bytes) &&
      (((re.matcher .unlimited .none (longText .utf8) 0).matchAt 20 0).bind Result.toOption).any
        (·.length == some 39)) (by decide +kernel)
  simp only [Bool.and_eq_true, Bool.not_eq_true'] at hok
  obtain ⟨⟨hbehind, hhints⟩, hmatch⟩ := hok
  obtain ⟨hints, hhints, hk⟩ := (Option.any_eq_true ..).1 hhints
  obtain ⟨k, hk, hnowhere⟩ := (Option.any_eq_true ..).1 hk
  simp only [Bool.and_eq_true, Bool.not_eq_true'] at hnowhere
  obtain ⟨hfolded, hnowhere⟩ := hnowhere
  obtain ⟨⟨length, caps⟩, hx, hlength⟩ := exists_some_ok hmatch
  obtain rfl := eq_of_beq hlength
  refine ⟨re, hints, k, caps, h, hbehind, hhints, hk, hfolded, hx, fun p hp => ?_⟩
  have hsize : (longText .utf8).size = 39 := rfl
  exact bne_iff_ne.1 (List.all_eq_true.1 hnowhere p (List.mem_range.2 (by omega)))

end Regex
end MultibyteRegex

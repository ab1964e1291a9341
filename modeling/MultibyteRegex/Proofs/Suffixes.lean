import MultibyteRegex.Proofs.Dividing
import MultibyteRegex.Proofs.Substring

/-!
# 文字列の枝の後読みの照合

文字列だけを枝に持つ後読みは、手前の文字の並びがどれかの枝で終わるかを調べる。戻る数は文字で、比べるのはバイトで
数えるが、切れ目から戻れば、着いた所に並ぶ文字列は元の位置で終わる。
-/

namespace MultibyteRegex

/-! ## 手前の文字の並び -/

namespace Encoding

variable {e : Encoding} {text : Text} {p q s n : Nat} {b : List UInt8} {cs : List (List UInt8)}

theorem isWholeChar_of_isChar {c : List UInt8} (h : e.isChar c) : e.isWholeChar c := by
  cases c with
  | nil => cases h
  | cons b trail =>
    simp only [isChar, Bool.and_eq_true, beq_iff_eq] at h
    simp [isWholeChar, h.1.1]

theorem isWhole_of_isWellFormed (h : e.isWellFormed b) : e.isWhole b :=
  List.all_eq_true.2 fun c hc => isWholeChar_of_isChar (List.all_eq_true.1 h c hc)

theorem chars_flatten (h : cs.all e.isWholeChar) : e.chars cs.flatten = cs := by
  induction cs with
  | nil => simp [chars]
  | cons c cs ih =>
    rw [List.all_cons, Bool.and_eq_true] at h
    cases c with
    | nil => cases h.1
    | cons b trail =>
      have hwidth : e.width b = trail.length + 1 := by simpa [isWholeChar] using h.1
      have hc : e.chars (b :: trail) = [b :: trail] := by simp [chars, takeChar, hwidth]
      rw [List.flatten_cons, chars_append (isWhole_of_isWholeChar h.1), hc, ih h.2, List.singleton_append]

theorem Head.isWhole_take (hw : e.isWellFormed text.toList) (hs : e.Head text s) :
    e.isWhole (text.toList.take s) := by
  obtain ⟨hle, k, hk⟩ := hs
  generalize hcs : e.chars text.toList = cs
  have hall : ∀ c ∈ cs, e.isWholeChar c := hcs ▸ List.all_eq_true.1 (isWhole_of_isWellFormed hw)
  have hwhole : (cs.take k).all e.isWholeChar := List.all_eq_true.2 fun c hc => hall c (List.mem_of_mem_take hc)
  have hchars := chars_flatten hwhole
  have htext : (cs.take k).flatten ++ (cs.drop k).flatten = text.toList := by
    rw [← List.flatten_append, List.take_append_drop, ← hcs, flatten_chars]
  have hstride := Head.zero.stride hw (w := (cs.take k).flatten) (by rwa [isWhole, hchars])
    (Text.hasAt_iff.2 ⟨Nat.zero_le _, _, htext⟩)
  rw [hchars, Nat.zero_add] at hstride
  have hs : s = (cs.take k).flatten.length := by
    rcases Nat.lt_or_ge cs.length k with hlt | hge
    · -- 本文の文字より多くは進めない。
      have hcount := hstride.count
      rw [List.take_of_length_le (Nat.le_of_lt hlt)] at hcount htext
      have hsize : cs.flatten.length = text.size := by
        rw [← Array.length_toList, ← htext, List.drop_eq_nil_of_le (Nat.le_of_lt hlt)]
        simp
      have hmore : (e.nextHead text)^[cs.length] 0 < (e.nextHead text)^[k] 0 := iterate_lt hlt
      omega
    · rw [← hk, ← hstride.count, List.length_take, Nat.min_eq_left hge]
  rwa [← htext, hs, List.take_left, isWhole, hchars]

/-- `n` 文字進む操作は、`n` 文字戻る操作の逆である。 -/
theorem stepBack_of_iterate (hw : e.isWellFormed text.toList) (hp : e.Head text p)
    (h : (e.nextHead text)^[n] p = s) (hle : s ≤ text.size) : e.stepBack text 0 s n = some p := by
  induction n generalizing s with
  | zero =>
    cases h
    rfl
  | succ n ih =>
    rw [Function.iterate_succ_apply'] at h
    obtain ⟨-, k, hk⟩ := hp
    generalize hq : (e.nextHead text)^[n] p = q at h
    have hlt := lt_nextHead e text q
    have hhead : e.Head text q := ⟨by omega, n + k, by rw [Function.iterate_add_apply, hk, hq]⟩
    have hprev : e.prevHead text 0 s = some q := by
      obtain ⟨hstart, hleft, hright⟩ := leftAdjust_starts hw (show s - 1 < text.size by omega)
      have hadjust := hstart.unique hhead hleft hright (by omega) (by omega)
      rw [prevHead, if_neg (by omega), hadjust]
    rw [stepBack, hprev]
    exact ih hq (by omega)

/-- 手前の文字の並びが、`b` の文字の並びで終わる。 -/
def endsWith (e : Encoding) (text : Text) (s : Nat) (b : List UInt8) : Bool :=
  e.chars b <:+ e.chars (text.toList.take s)

theorem Head.add_length_eq (hw : e.isWellFormed text.toList) (hs : e.Head text s) (hb : e.isWhole b)
    (hp : e.stepBack text 0 s (e.chars b).length = some p) (hat : text.hasAt b p) : p + b.length = s := by
  obtain ⟨hhead, hcount⟩ := stepBack_spec hw hs hp
  rw [← (hhead.stride hw hb hat).count, hcount]

/-- 文字数だけ戻った所に文字列が並ぶのは、手前の文字の並びがその文字列で終わるときである。 -/
theorem Head.endsWith_iff (hw : e.isWellFormed text.toList) (hs : e.Head text s) (hb : e.isWhole b) :
    e.endsWith text s b ↔ ∃ p, e.stepBack text 0 s (e.chars b).length = some p ∧ text.hasAt b p := by
  rw [endsWith, decide_eq_true_iff]
  constructor
  · rintro ⟨cs, hcs⟩
    have hwhole := hs.isWhole_take hw
    rw [isWhole, ← hcs, List.all_append, Bool.and_eq_true] at hwhole
    have htake : cs.flatten ++ b = text.toList.take s := by
      rw [← flatten_chars e (text.toList.take s), ← hcs, List.flatten_append, flatten_chars]
    have hsplit : cs.flatten ++ (b ++ text.toList.drop s) = text.toList := by
      rw [← List.append_assoc, htake, List.take_append_drop]
    have hstart := Head.zero.stride hw (w := cs.flatten) (by rw [isWhole, chars_flatten hwhole.1, hwhole.1])
      (Text.hasAt_iff.2 ⟨Nat.zero_le _, _, hsplit⟩)
    rw [Nat.zero_add] at hstart
    have hat : text.hasAt b cs.flatten.length := by
      refine Text.hasAt_iff.2 ⟨hstart.head.le, ?_⟩
      rw [← hsplit, List.drop_left]
      exact List.prefix_append _ _
    have hcount := (hstart.head.stride hw hb hat).count
    have hlength : cs.flatten.length + b.length = s := by
      rw [← List.length_append, htake, List.length_take, Array.length_toList, Nat.min_eq_left hs.le]
    exact ⟨cs.flatten.length, stepBack_of_iterate hw hstart.head (hcount.trans hlength) hs.le, hat⟩
  · rintro ⟨p, hp, hat⟩
    obtain rfl := hs.add_length_eq hw hb hp hat
    obtain ⟨hhead, -⟩ := stepBack_spec hw hs hp
    obtain ⟨-, hprefix⟩ := Text.hasAt_iff.1 hat
    rw [List.take_add, ← List.prefix_iff_eq_take.1 hprefix, chars_append (hhead.isWhole_take hw)]
    exact List.suffix_append _ _

end Encoding

/-! ## 続きに渡す意味 -/

namespace Node

variable {α : Type} {env : CodeEnv} {x : Setting} {bot : α} {fuel k p : Nat} {F : Cont α} {o o' : Outcome} {res : α}
  {bs : List (List UInt8)} {b : List UInt8} {root : Node} {negative : Bool}

theorem length_of_charCount {e : Encoding} (hcount : (choice (bs.map literal)).charCount e = .fixed k) :
    ∀ b ∈ bs, (e.chars b).length = k := by
  rw [charCount_choice_literals] at hcount
  exact fun b hb => CharCount.fixed.inj
    (CharCount.eq_of_either hcount _ (List.mem_map_of_mem (List.mem_map_of_mem hb)))

theorem explore_choice (ns : List Node) :
    (choice ns).explore env x bot fuel .none F = exploreAlt env x bot fuel .none ns F := by
  unfold choice
  split <;> rfl

theorem explore_literal (ho : o.pos ≤ x.text.size) : (literal b).explore env x bot fuel .none F o res =
    if x.text.hasAt b o.pos then F (o.moveTo (o.pos + b.length)) res else res := by
  cases b with
  | nil =>
    have hat : x.text.hasAt [] o.pos := Text.hasAt_iff.2 ⟨ho, List.nil_prefix⟩
    rw [if_pos hat]
    rfl
  | cons c b =>
    simp only [literal, explore, leafEnd?, Options.none_contains_ignoreCase, Setting.charsEnd?_false ho,
      Encoding.flatten_chars]
    by_cases hat : x.text.hasAt (c :: b) o.pos <;> simp [hat]

theorem exploreAlt_map {f : List UInt8 → Node} {p : List UInt8 → Bool} (hne : bs ≠ [])
    (h : ∀ b ∈ bs, ∀ res, ∃ res', (f b).explore env x bot fuel .none F o res = if p b then F o' res' else res)
    (res : α) :
    ∃ res', exploreAlt env x bot fuel .none (bs.map f) F o res = if bs.any p then F o' res' else res := by
  induction bs generalizing res with
  | nil => exact absurd rfl hne
  | cons b bs ih =>
    obtain ⟨hb, hbs⟩ := List.forall_mem_cons.1 h
    cases bs with
    | nil =>
      obtain ⟨res', hres⟩ := hb res
      exact ⟨res', hres.trans (by simp)⟩
    | cons b' bs =>
      obtain ⟨res₁, hrest⟩ := ih (List.cons_ne_nil _ _) hbs res
      obtain ⟨res₂, hhead⟩ := hb (exploreAlt env x bot fuel .none ((b' :: bs).map f) F o res)
      cases hp : p b with
      | true => exact ⟨res₂, hhead.trans (by simp [hp])⟩
      | false =>
        refine ⟨res₁, hhead.trans ?_⟩
        rw [hrest, hp, List.any_cons (a := b), hp]
        rfl

theorem exploreList_map {f : List UInt8 → Node} {p : List UInt8 → Bool}
    (h : ∀ b ∈ bs, ∀ (G : Cont α) res, (f b).explore env x bot fuel .none G o res = if p b then res else G o res)
    (res : α) :
    exploreList env x bot fuel .none (bs.map f) F o res = if bs.any p then res else F o res := by
  induction bs with
  | nil => rfl
  | cons b bs ih =>
    obtain ⟨hb, hbs⟩ := List.forall_mem_cons.1 h
    rw [List.map_cons, exploreList, hb, ih hbs]
    cases hp : p b <;> simp [hp]

variable (hw : x.encoding.isWellFormed x.text.toList) (ho : x.encoding.Head x.text o.pos)
  (hbs : ∀ b ∈ bs, x.encoding.isWhole b) (henv : env.encoding = x.encoding)
include hw ho hbs

/-- 枝の文字数だけ戻った所で、選択は、手前がどれかの枝で終わるときに合い、元の位置に着く。 -/
theorem explore_literals (hne : bs ≠ []) (hlength : ∀ b ∈ bs, (x.encoding.chars b).length = k)
    (hp : x.encoding.stepBack x.text 0 o.pos k = some p) (res : α) :
    ∃ res', (choice (bs.map literal)).explore env x bot fuel .none F (o.moveTo p) res =
      if bs.any (x.encoding.endsWith x.text o.pos) then F o res' else res := by
  have hple : p ≤ x.text.size := (Encoding.stepBack_spec hw ho hp).1.le
  rw [explore_choice]
  refine exploreAlt_map hne (fun b hb res => ⟨res, (explore_literal hple).trans ?_⟩) res
  have hends := ho.endsWith_iff hw (hbs b hb)
  simp only [hlength b hb, hp, Option.some.injEq, exists_eq_left'] at hends
  rw [Bool.eq_iff_iff.2 hends]
  cases hat : x.text.hasAt b p with
  | true =>
    have hback : p + b.length = o.pos := ho.add_length_eq hw (hbs b hb) ((hlength b hb).symm ▸ hp) hat
    simp [Outcome.moveTo, hat, hback]
  | false => simp [Outcome.moveTo, hat]

include henv

/-- 文字数の揃った枝の後読みは、手前がどれかの枝で終わるかを調べる。 -/
theorem explore_lookBehind (hne : bs ≠ []) (hcount : (choice (bs.map literal)).charCount x.encoding = .fixed k)
    (negative : Bool) (res : α) : ∃ res', (negative → res' = res) ∧
      (group (.lookBehind negative) (choice (bs.map literal))).explore env x bot fuel .none F o res =
        if bs.any (x.encoding.endsWith x.text o.pos) != negative then F o res' else res := by
  have hlength := length_of_charCount hcount
  have hbehind : env.behind? x (choice (bs.map literal)) o.pos = x.encoding.stepBack x.text 0 o.pos k := by
    rw [CodeEnv.behind?, henv, hcount]
  cases hp : x.encoding.stepBack x.text 0 o.pos k with
  | none =>
    -- 枝の文字数だけ戻れなければ、どの枝でも終わらない。
    have hany : bs.any (x.encoding.endsWith x.text o.pos) = false := by
      refine List.any_eq_false.2 fun b hb hends => ?_
      obtain ⟨p, hback, -⟩ := (ho.endsWith_iff hw (hbs b hb)).1 hends
      rw [hlength b hb, hp] at hback
      cases hback
    refine ⟨res, fun _ => rfl, ?_⟩
    cases negative <;> simp [GroupKind.lookBehind, explore, hbehind, hp, hany]
  | some p =>
    have hbody (G : Cont α) (res : α) :
        ∃ res', (choice (bs.map literal)).explore env x bot fuel .none G (o.moveTo p) res =
          if bs.any (x.encoding.endsWith x.text o.pos) then G o res' else res :=
      explore_literals hw ho hbs hne hlength hp res
    cases negative with
    | false =>
      obtain ⟨res', hres⟩ := hbody F res
      refine ⟨res', by simp, ?_⟩
      simpa [GroupKind.lookBehind, explore, hbehind, hp] using hres
    | true =>
      obtain ⟨-, hres⟩ := hbody (fun _ _ => res) (F o res)
      refine ⟨res, by simp, ?_⟩
      cases hany : bs.any (x.encoding.endsWith x.text o.pos) <;>
        simp [GroupKind.lookBehind, explore, hbehind, hp, hres, hany]

theorem explore_divided (hne : bs ≠ []) (h : Divided x.encoding bs negative root) (res : α) :
    ∃ res', root.explore env x bot fuel .none F o res =
      if bs.any (x.encoding.endsWith x.text o.pos) != negative then F o res' else res := by
  have hone (negative : Bool) (b : List UInt8) (hb : b ∈ bs) (G : Cont α) (res : α) :
      ∃ res', (negative → res' = res) ∧
        (group (.lookBehind negative) (literal b)).explore env x bot fuel .none G o res =
          if x.encoding.endsWith x.text o.pos b != negative then G o res' else res := by
    have hcount : (choice ([b].map literal)).charCount x.encoding = _ := charCountAt_literal true
    have hexplore : ∃ res', (negative → res' = res) ∧
        (group (.lookBehind negative) (choice ([b].map literal))).explore env x bot fuel .none G o res = _ :=
      explore_lookBehind hw ho (List.forall_mem_singleton.2 (hbs b hb)) henv (List.cons_ne_nil b []) hcount negative res
    rwa [List.any_cons, List.any_nil, Bool.or_false] at hexplore
  cases h with
  | whole negative hcount =>
    obtain ⟨res', -, hres⟩ := explore_lookBehind hw ho hbs henv hne hcount negative res
    exact ⟨res', hres⟩
  | positive =>
    have hbranch : ∀ b ∈ bs, ∀ res, ∃ res', (group .behind (literal b)).explore env x bot fuel .none F o res =
        if x.encoding.endsWith x.text o.pos b then F o res' else res := by
      intro b hb res
      obtain ⟨res', -, hres⟩ := hone false b hb F res
      exact ⟨res', hres.trans (by simp)⟩
    obtain ⟨res', hres⟩ := exploreAlt_map hne hbranch res
    exact ⟨res', hres.trans (by simp)⟩
  | negated =>
    have hstop : ∀ b ∈ bs, ∀ (G : Cont α) res, (group .notBehind (literal b)).explore env x bot fuel .none G o res =
        if x.encoding.endsWith x.text o.pos b then res else G o res := by
      intro b hb G res
      obtain ⟨res', hres', hres⟩ := hone true b hb G res
      obtain rfl := hres' rfl
      refine hres.trans ?_
      cases x.encoding.endsWith x.text o.pos b <;> rfl
    refine ⟨res, (exploreList_map hstop res).trans ?_⟩
    cases bs.any (x.encoding.endsWith x.text o.pos) <;> rfl

end Node

/-! ## 照合の全体 -/

namespace Regex

/-- 文字列の枝の後読みは、手前の文字の並びがどれかの枝で終わる所で、空に合う。否定した後読みは、どれでも終わらない
所で合う。翻訳できないのは、パターンが長すぎるときだけである。 -/
theorem matchAt_lookBehind (e : Encoding) (fold : Option FoldTable) {bs : List (List UInt8)} (hne : bs ≠ [])
    (hbs : ∀ b ∈ bs, Pattern.isLiteral e b) (negative : Bool) :
    let s : Source := { pattern := Pattern.lookBehind negative bs, encoding := e, fold }
    (∀ err, Regex.compile s = .error err →
        err = .compile .addressOverflow ∧ 0x7fffffff < 4 * s.pattern.length) ∧
      ∀ re, Regex.compile s = .ok re → ∀ (text : Text) (start pos : Nat), e.isWellFormed text.toList → e.Head text pos →
        ∃ v, (re.matcher .unlimited .none text start).Returns pos v ∧
          v.length = if bs.any (e.endsWith text pos) != negative then some 0 else none := by
  intro s
  obtain ⟨root, htree, hroot, hcompile⟩ := compile_lookBehind (s := s) rfl rfl hne hbs
  refine ⟨hcompile, fun re h text start pos hw hpos => ?_⟩
  have horderly : s.env.isOrderly .none root := Node.isOrderly_of_unmarked root hroot.unmarked
  have hwhole : ∀ b ∈ bs, e.isWhole b := fun b hb =>
    Encoding.isWhole_of_isWellFormed (Pattern.isWellFormed_of_isLiteral (hbs b hb))
  refine returns_of_explore h rfl htree horderly hpos.le fun F groups fuel hF => ?_
  let x : Setting := ⟨e, fold.getD .ascii, text, start, .none⟩
  let o : Outcome := ⟨pos, .fresh groups⟩
  obtain ⟨res, hexplore⟩ : ∃ res, root.explore s.env x (fun _ => none) fuel .none F o Outlook.last =
      if bs.any (e.endsWith text pos) != negative then F o res else Outlook.last :=
    Node.explore_divided hw hpos hwhole rfl hne hroot Outlook.last
  obtain ⟨caps, hcaps⟩ := hF o res none (Nat.le_refl pos)
  have hanswer := congrFun hexplore none
  cases hends : bs.any (e.endsWith text pos) != negative with
  | true =>
    rw [hends, if_pos rfl, hcaps] at hanswer
    exact ⟨_, hanswer, by simp [o]⟩
  | false =>
    rw [hends, if_neg Bool.false_ne_true] at hanswer
    exact ⟨none, hanswer, rfl⟩

/-- 文字数の異なる枝の例。二バイトの文字の後半は逆斜線と同じバイトだが、文字の途中では終わらない。 -/
theorem matchAt_lookBehind_backslash : let bs : List (List UInt8) := [[0x61, 0x62], [0x83, 0x5c], [0x5d]]
    bs ≠ [] ∧ (∀ b ∈ bs, Pattern.isLiteral .sjis b) ∧ Encoding.sjis.isWellFormed [0x61, 0x83, 0x5c] ∧
      Encoding.sjis.Head #[0x61, 0x83, 0x5c] 3 ∧ Encoding.sjis.Head #[0x61, 0x83, 0x5c] 1 ∧
      ∃ re, Regex.compile { pattern := Pattern.lookBehind true bs, encoding := .sjis, fold := none } = .ok re ∧
        (∃ v, (re.matcher .unlimited .none #[0x61, 0x83, 0x5c] 0).Returns 3 v ∧ v.length = none) ∧
        ∃ v, (re.matcher .unlimited .none #[0x61, 0x83, 0x5c] 0).Returns 1 v ∧ v.length = some 0 := by
  intro bs
  have hne : bs ≠ [] := by decide
  have hbs : ∀ b ∈ bs, Pattern.isLiteral .sjis b := by decide +kernel
  have hw : Encoding.sjis.isWellFormed [0x61, 0x83, 0x5c] := by decide +kernel
  have hend : Encoding.sjis.Head #[0x61, 0x83, 0x5c] 3 := ⟨by decide, 2, rfl⟩
  have hone : Encoding.sjis.Head #[0x61, 0x83, 0x5c] 1 := ⟨by decide, 1, rfl⟩
  obtain ⟨hcompile, hmatch⟩ := matchAt_lookBehind .sjis none hne hbs true
  let s : Source := { pattern := Pattern.lookBehind true bs, encoding := .sjis, fold := none }
  obtain ⟨re, hre⟩ : ∃ re, Regex.compile s = .ok re := by
    cases h : Regex.compile s with
    | ok re => exact ⟨re, rfl⟩
    | error err => exact absurd (hcompile err h).2 (by decide)
  have hends : bs.any (Encoding.sjis.endsWith #[0x61, 0x83, 0x5c] 3) := by decide +kernel
  have hnone : bs.any (Encoding.sjis.endsWith #[0x61, 0x83, 0x5c] 1) = false := by decide +kernel
  obtain ⟨v, hv, hlength⟩ := hmatch re hre #[0x61, 0x83, 0x5c] 0 3 hw hend
  obtain ⟨v', hv', hlength'⟩ := hmatch re hre #[0x61, 0x83, 0x5c] 0 1 hw hone
  rw [hends] at hlength
  rw [hnone] at hlength'
  exact ⟨hne, hbs, hw, hend, hone, re, hre, ⟨v, hv, hlength⟩, v', hv', hlength'⟩

end Regex
end MultibyteRegex

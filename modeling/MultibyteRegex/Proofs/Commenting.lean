import MultibyteRegex.Proofs.Escaping

/-!
# 注釈

英字の間に置いた注釈は、中の文字が何であっても読み飛ばされ、注釈のないパターンと同じ結果になる。注釈はバイトごとに
読まれるので、Shift_JIS の 0x5c で終わる文字が注釈の終わりに来たときだけは、閉じ括弧が失われる。
-/

namespace MultibyteRegex
namespace Pattern

variable {e : Encoding} {b x : UInt8} {c rest u v w : List UInt8} {cs : List (List UInt8)}

/-- 英字。 -/
def isLetter (b : UInt8) : Bool := (0x41 ≤ b && b ≤ 0x5a) || (0x61 ≤ b && b ≤ 0x7a)

/-! ## 空白と注釈の後から -/

/-- 進み方は、除く前の残りによらない。 -/
theorem readAll_withRest (e : Encoding) (r : Reading) (input : Input) :
    readAll e { r with rest := input } = (skipTrivia r.extended input).bind (r.proceed e) := by
  have hproceed : Reading.proceed e { r with rest := input } = r.proceed e := by
    funext rest
    cases rest <;> rfl
  rw [readAll_eq, hproceed]
  rfl

/-- 要素を加えた後の進み方も、空白と注釈を除いた残りだけで決まる。 -/
theorem exists_attach (r : Reading) (node : Node) :
    ∃ f, ∀ input, r.attach node input = (skipTrivia r.extended input).bind f :=
  ⟨_, fun input => by
    unfold Reading.attach
    cases skipTrivia r.extended input with
    | error err => rfl
    | ok rest => rfl⟩

/-! ## 英字 -/

theorem not_isSpecial_of_isLetter (h : isLetter b) : ¬isSpecial b := by
  have hall : (ascii "()[.^$\\|*+?\x7b").all (!isLetter ·) = true := rfl
  exact fun hs => by simpa [h] using List.all_eq_true.1 hall b (of_decide_eq_true hs)

theorem skipTrivia_letter (h : isLetter b) (extended : Bool) : skipTrivia extended (b :: rest) = .ok (b :: rest) := by
  have hopen : latin1 b ≠ '(' := (latin1_of_not_special b (not_isSpecial_of_isLetter h)).1.2.2
  have hhash : latin1 b ≠ '#' := fun heq => by
    rw [latin1_inj (c := 0x23) heq] at h
    cases h
  have hblank : isBlank b = false := by
    simp only [isLetter, isBlank, Bool.or_eq_true, Bool.and_eq_true, decide_eq_true_eq, Bool.or_eq_false_iff,
      Bool.and_eq_false_iff, decide_eq_false_iff_not, ← UInt8.toNat_inj, UInt8.le_iff_toNat_le,
      UInt8.reduceToNat] at h ⊢
    omega
  unfold skipTrivia
  simp only [hblank, Bool.and_false, Bool.false_eq_true, if_false, hhash, decide_false, hopen, false_and]
  split <;> rfl

theorem attach_letter (h : ∀ b ∈ w.head?, isLetter b) (r : Reading) (node : Node) :
    r.attach node w = .ok (r.push node w) := by
  unfold Reading.attach
  cases w with
  | nil => simp only [skipTrivia, repetition]
  | cons b w =>
    have hb := h b rfl
    rw [skipTrivia_letter hb]
    simp only [repetition_of_not_special (not_isSpecial_of_isLetter hb)]

theorem readAll_letter (h : isLetter b) (r : Reading) :
    readAll e { r with rest := b :: w } = (r.attach (.str [b]) w).bind (readAll e) := by
  have hspecial := not_isSpecial_of_isLetter h
  obtain ⟨hoperator, -, hbracket, hdot, hcaret, hdollar, hbackslash⟩ := latin1_of_not_special b hspecial
  have hwidth : e.width b = 1 := Encoding.width_of_lt (by
    simp only [isLetter, Bool.or_eq_true, Bool.and_eq_true, decide_eq_true_eq, UInt8.le_iff_toNat_le,
      UInt8.reduceToNat] at h
    omega)
  have hatom : atom e r.groups b w = .ok (.str [b], [], w) := by
    unfold atom
    rw [if_neg hbracket, if_neg hdot, if_neg hcaret, if_neg hdollar, if_neg hbackslash]
    simp [Encoding.takeChar, hwidth]
  rw [readAll_withRest, skipTrivia_letter h]
  simp only [Except.bind, Reading.proceed]
  rw [advance_atom hoperator (repetition_of_not_special hspecial) (by simp) hatom, List.append_nil]

/-- 英字の後の結果は、続きから空白と注釈を除いた残りだけで決まり、除く途中の誤りはそのまま返る。 -/
theorem readAll_letters (hu : ∀ b ∈ u, isLetter b) (r : Reading) :
    ∃ f, ∀ input, readAll e { r with rest := u ++ input } = (skipTrivia r.extended input).bind f := by
  induction u generalizing r with
  | nil => exact ⟨_, readAll_withRest e r⟩
  | cons b u ih =>
    obtain ⟨hb, hu⟩ := List.forall_mem_cons.1 hu
    cases u with
    | nil =>
      obtain ⟨f, hf⟩ := exists_attach r (.str [b])
      refine ⟨fun rest => (f rest).bind (readAll e), fun input => (readAll_letter (w := input) hb r).trans ?_⟩
      rw [hf]
      cases skipTrivia r.extended input <;> rfl
    | cons c u =>
      obtain ⟨f, hf⟩ := ih hu (r.push (.str [b]) [])
      refine ⟨f, fun input => (readAll_letter (w := c :: u ++ input) hb r).trans ?_⟩
      have hc : ∀ b ∈ (c :: u ++ input).head?, isLetter b := by simpa using hu c List.mem_cons_self
      rw [attach_letter hc]
      exact hf input

theorem readAll_word (hw : ∀ b ∈ w, isLetter b) (r : Reading) :
    readAll e { r with rest := w } = Reading.finish { r with
      rest := [], level := { r.level with items := ((Encoding.ascii.chars w).map Node.str).reverse ++ r.level.items } } := by
  induction w generalizing r with
  | nil =>
    rw [readAll_withRest, skipTrivia, Encoding.chars]
    rfl
  | cons b w ih =>
    obtain ⟨hb, hw⟩ := List.forall_mem_cons.1 hw
    rw [readAll_letter hb, attach_letter fun c hc => hw c (List.mem_of_mem_head? hc)]
    refine (ih hw (r.push (.str [b]) [])).trans ?_
    simp [Encoding.chars, Encoding.takeChar, Encoding.width, Reading.push, Level.push]

theorem parse_letters (hw : ∀ b ∈ w, isLetter b) (options : Options) :
    parse e options w = .ok { root := .literal w, groups := 0, backrefs := [], warnings := [] } := by
  unfold parse
  have hread := readAll_word (e := e) hw { rest := w, level := { options } }
  rw [hread]
  simp [Reading.finish, closeTails, Level.node, Level.branch, Node.choice, Node.seq_chars]

/-! ## 注釈の中の文字 -/

theorem skipComment_cons (hclose : b ≠ 0x29) (hescape : b ≠ 0x5c) : skipComment (b :: rest) = skipComment rest := by
  have hclose : latin1 b ≠ ')' := fun heq => hclose (latin1_inj (c := 0x29) heq)
  have hescape : latin1 b ≠ '\\' := fun heq => hescape (latin1_inj (c := 0x5c) heq)
  conv => lhs; unfold skipComment
  split <;> first | contradiction | rfl

theorem skipComment_append (hclose : 0x29 ∉ w) (hescape : 0x5c ∉ w) : skipComment (w ++ rest) = skipComment rest := by
  induction w with
  | nil => rfl
  | cons b w ih =>
    rw [List.mem_cons, not_or] at hclose hescape
    rw [List.cons_append, skipComment_cons (Ne.symm hclose.1) (Ne.symm hescape.1), ih hclose.2 hescape.2]

/-- 閉じ括弧でも逆斜線でもない文字は、そのバイトを含まないか、Shift_JIS で後続バイトだけが 0x5c である。 -/
theorem split_char (hc : e.isChar c) (hclose : c ≠ [0x29]) (hescape : c ≠ [0x5c]) :
    ∃ b trail, b ≠ 0x5c ∧ 0x29 ∉ b :: trail ∧ c = b :: trail ∧ (0x5c ∉ trail ∨ e = .sjis ∧ trail = [0x5c]) := by
  cases c with
  | nil => cases hc
  | cons b trail =>
    simp only [Encoding.isChar, Bool.and_eq_true, beq_iff_eq, List.all_eq_true] at hc
    obtain ⟨⟨hwidth, htrail⟩, -⟩ := hc
    -- 一バイトの文字になるバイトは、続きを持たない。
    have hlead : ∀ x : UInt8, x.toNat < 0x80 → b :: trail ≠ [x] → b ≠ x := fun x hx hne heq => by
      rw [heq, Encoding.width_of_lt hx] at hwidth
      exact hne (by rw [heq, List.length_eq_zero_iff.1 (Nat.succ_inj.1 hwidth)])
    have hopen : 0x29 ∉ trail := fun hmem => by
      have := htrail _ hmem
      cases e <;> cases this
    refine ⟨b, trail, hlead _ (by decide) hescape, ?_, rfl, ?_⟩
    · rw [List.mem_cons, not_or]
      exact ⟨Ne.symm (hlead _ (by decide) hclose), hopen⟩
    · refine Classical.or_iff_not_imp_left.2 fun hmem => ?_
      have hmem := Classical.not_not.1 hmem
      have hpart := htrail _ hmem
      obtain rfl : e = .sjis := by cases e <;> first | rfl | cases hpart
      have hmax := Encoding.width_le_maxWidth .sjis b
      rw [← hwidth] at hmax
      obtain ⟨x, rfl⟩ := List.length_eq_one_iff.1 (Nat.le_antisymm (Nat.le_of_succ_le_succ hmax) (List.length_pos_of_mem hmem))
      rw [List.mem_singleton.1 hmem]
      exact ⟨rfl, rfl⟩

section

variable (hcs : ∀ c ∈ cs, e.isChar c ∧ c ≠ [0x29] ∧ c ≠ [0x5c])
include hcs

/-- 注釈を閉じる括弧は、直前の文字が 0x5c で終わるとき、そのときに限り読み落とされる。 -/
theorem skipComment_chars (rest : List UInt8) : skipComment (cs.flatten ++ 0x29 :: rest) =
    if cs.flatten.getLast? = some 0x5c then skipComment rest else .ok rest := by
  induction cs with
  | nil => rfl
  | cons c cs ih =>
    obtain ⟨⟨hc, hclose, hescape⟩, hrest⟩ := List.forall_mem_cons.1 hcs
    obtain ⟨b, trail, hb, hopen, rfl, htrail⟩ := split_char hc hclose hescape
    rw [List.flatten_cons, List.append_assoc, List.getLast?_append]
    rcases htrail with htrail | ⟨-, rfl⟩
    · have hbare : 0x5c ∉ b :: trail := by
        rw [List.mem_cons, not_or]
        exact ⟨Ne.symm hb, htrail⟩
      have hlast : (b :: trail).getLast? ≠ some 0x5c := fun heq => hbare (List.mem_of_getLast? heq)
      rw [skipComment_append hopen hbare, ih hrest]
      cases cs.flatten.getLast? with
      | none => rw [Option.none_or, if_neg (by simp), if_neg hlast]
      | some x => rw [Option.some_or]
    · have hne : b ≠ 0x29 := fun heq => hopen (heq ▸ List.mem_cons_self)
      rw [List.cons_append, List.cons_append, List.nil_append, skipComment_cons hne hb]
      cases cs with
      | nil => rfl
      | cons c cs =>
        -- 逆斜線と読まれた 0x5c は次のバイトを飛ばすが、それは次の文字の先頭で、閉じ括弧ではない。
        obtain ⟨⟨hc, hclose, hescape⟩, -⟩ := List.forall_mem_cons.1 hrest
        obtain ⟨x, trail', hx, hopen', rfl, -⟩ := split_char hc hclose hescape
        have hskip : ∀ rest, skipComment (0x5c :: x :: rest) = skipComment (x :: rest) := fun rest => by
          rw [skipComment_cons (fun heq => hopen' (heq ▸ List.mem_cons_self)) hx]
          rfl
        have hread := ih hrest
        rw [List.flatten_cons, List.cons_append, List.cons_append] at hread ⊢
        rw [hskip, hread, List.getLast?_cons, Option.some_or]

theorem getLast?_chars (he : e ≠ .sjis) : cs.flatten.getLast? ≠ some 0x5c := by
  intro hlast
  obtain ⟨c, hc, hmem⟩ := List.mem_flatten.1 (List.mem_of_getLast? hlast)
  obtain ⟨hchar, hclose, hescape⟩ := hcs c hc
  obtain ⟨b, trail, hb, -, rfl, htrail | ⟨hsjis, -⟩⟩ := split_char hchar hclose hescape
  · exact (List.mem_cons.1 hmem).elim (fun heq => hb heq.symm) htrail
  · exact he hsjis

end

theorem skipTrivia_comment (extended : Bool) (input : Input) :
    skipTrivia extended (ascii "(?#" ++ input) = (skipComment input).bind (skipTrivia extended) := by
  have hblank : isBlank 0x28 = false := rfl
  have hhash : decide (latin1 0x28 = '#') = false := by decide
  change skipTrivia extended (0x28 :: 0x3f :: 0x23 :: input) = _
  rw [skipTrivia]
  simp only [hblank, hhash, Bool.and_false, Bool.false_eq_true, if_false]
  rw [if_pos ⟨rfl, rfl, rfl⟩]
  split <;> rename_i hcomment <;> rw [hcomment] <;> rfl

/-! ## パターンの全体 -/

theorem skipComment_letters (hw : ∀ b ∈ w, isLetter b) : skipComment w = .error .endInGroup := by
  have hclose : 0x29 ∉ w := fun hmem => absurd (hw _ hmem) (by decide)
  have hescape : 0x5c ∉ w := fun hmem => absurd (hw _ hmem) (by decide)
  rw [← List.append_nil w, skipComment_append hclose hescape]
  rfl

/-- 英字の列に挟んだ注釈は、中の文字が何であっても、注釈のないパターンと同じ結果を与える。ただし 0x5c のバイトで
終わる文字が閉じ括弧の直前にあれば、注釈は閉じないものとして誤りになる。そのような文字は Shift_JIS にだけある。 -/
theorem parse_comment (e : Encoding) (options : Options) (hu : ∀ b ∈ u, isLetter b) (hv : ∀ b ∈ v, isLetter b)
    (hcs : ∀ c ∈ cs, e.isChar c ∧ c ≠ ascii ")" ∧ c ≠ ascii "\\") :
    parse e options (u ++ v) = .ok { root := .literal (u ++ v), groups := 0, backrefs := [], warnings := [] } ∧
    parse e options (u ++ ascii "(?#" ++ cs.flatten ++ ascii ")" ++ v) =
      (if cs.flatten.getLast? = some 0x5c then .error .endInGroup else parse e options (u ++ v)) ∧
    (e ≠ .sjis → cs.flatten.getLast? ≠ some 0x5c) := by
  refine ⟨parse_letters (fun b hb => (List.mem_append.1 hb).elim (hu b) (hv b)) options, ?_, getLast?_chars hcs⟩
  obtain ⟨f, hf⟩ := readAll_letters (e := e) hu { rest := [], level := { options } }
  have hcomment := hf (ascii "(?#" ++ (cs.flatten ++ 0x29 :: v))
  rw [skipTrivia_comment, skipComment_chars hcs] at hcomment
  have hinput : u ++ ascii "(?#" ++ cs.flatten ++ ascii ")" ++ v = u ++ (ascii "(?#" ++ (cs.flatten ++ 0x29 :: v)) := by
    simp [ascii]
  rw [hinput]
  unfold parse
  by_cases hlast : cs.flatten.getLast? = some 0x5c
  · rw [if_pos hlast, skipComment_letters hv] at hcomment
    rw [if_pos hlast, hcomment]
    rfl
  · rw [if_neg hlast] at hcomment
    rw [if_neg hlast, hcomment, hf v]
    rfl

theorem parse_comment_wide :
    let cs : List (List UInt8) := [[0x95, 0x5c], [0x83, 0x69], [0x28]]
    (∀ c ∈ cs, Encoding.sjis.isChar c ∧ c ≠ ascii ")" ∧ c ≠ ascii "\\") ∧
      parse .sjis .none (ascii "a" ++ ascii "(?#" ++ cs.flatten ++ ascii ")" ++ ascii "b") =
        .ok { root := .str (ascii "ab"), groups := 0, backrefs := [], warnings := [] } := by
  intro cs
  have hcs : ∀ c ∈ cs, Encoding.sjis.isChar c ∧ c ≠ ascii ")" ∧ c ≠ ascii "\\" := by decide
  obtain ⟨hplain, hcomment, -⟩ := parse_comment .sjis .none (u := ascii "a") (v := ascii "b")
    (List.all_eq_true.1 rfl) (List.all_eq_true.1 rfl) hcs
  rw [if_neg (by decide), hplain] at hcomment
  exact ⟨hcs, hcomment⟩

/-- 「表」(95 5c) で終わる注釈は閉じない。 -/
theorem parse_comment_unclosed :
    Encoding.sjis.isChar [0x95, 0x5c] ∧
      parse .sjis .none (ascii "(?#" ++ [0x95, 0x5c] ++ ascii ")") = .error .endInGroup ∧
      parse .sjis .none [] = .ok { root := .empty, groups := 0, backrefs := [], warnings := [] } := by
  let start : Reading := { rest := ascii "(?#" ++ ([0x95, 0x5c] ++ ascii ")"), level := { options := .none } }
  have hskip : skipTrivia start.extended start.rest = .error .endInGroup := (skipTrivia_comment ..).trans rfl
  have hread : readAll .sjis start = .error .endInGroup := by
    rw [readAll_eq, hskip]
    rfl
  refine ⟨rfl, ?_, parse_letters (w := []) (by simp) .none⟩
  rw [List.append_assoc, parse, hread]

end Pattern
end MultibyteRegex

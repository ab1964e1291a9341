import MultibyteRegex.Proofs.Bracketing
import MultibyteRegex.Proofs.Retracing

/-!
# 単語の文字

単語の文字かどうかは、先頭のバイトだけでも、読み取った符号位置でも決められる。最短の形で書いた文字では、二つは一致する。
そこで、単語の文字の書き方は、命令と角括弧の式のどちらでも、否定をどこに置いても、同じ答えになる。
-/

namespace MultibyteRegex

namespace Encoding

variable {e : Encoding} {c : List UInt8} {cs : List (List UInt8)} {k : Nat}

/-- 符号位置を書くのに要るバイト数で書いた文字。UTF-8 のほかに、長い形はない。 -/
def isShortest (e : Encoding) (c : List UInt8) : Bool := e != .utf8 || e.codeLength (e.decode c) == c.length

theorem isWordLead_eq_hasKind {lead : UInt8} {trail : List UInt8} (hchar : e.isChar (lead :: trail))
    (hshort : e.isShortest (lead :: trail)) :
    e.isWordLead lead = e.hasKind (e.decode (lead :: trail)) .word := by
  simp only [isChar, Bool.and_eq_true, beq_iff_eq] at hchar
  obtain ⟨⟨hwidth, -⟩, -⟩ := hchar
  cases trail with
  | nil =>
    have hcode : e.decode [lead] = lead.toNat := by cases e <;> simp [decode]
    rw [isWordLead, hcode, ← hwidth]
    simp
  | cons b trail =>
    have hwide : 1 < e.width lead := by
      rw [← hwidth]
      simp
    have hlead : 0x80 ≤ lead.toNat := Nat.le_of_not_lt fun hlt => Nat.ne_of_gt hwide (width_of_lt hlt)
    have hcode : 0x80 ≤ e.decode (lead :: b :: trail) := by
      cases e with
      | utf8 =>
        refine Nat.le_of_not_lt fun hlt => ?_
        have hlength : codeLength .utf8 (decode .utf8 (lead :: b :: trail)) = 1 := if_pos (Nat.le_of_lt_succ hlt)
        simp [isShortest, hlength] at hshort
      | _ => exact Nat.le_trans hlead (le_foldl_code ..)
    have hmulti : e.isSingleByte = false := by
      cases e with
      | ascii => exact absurd hwide (Nat.lt_irrefl 1)
      | _ => rfl
    simp [isWordLead, hwide, hasKind, Nat.not_lt.2 hcode, hmulti, CharKind.hasWide]

section

variable (hcs : ∀ c ∈ cs, e.isChar c)
include hcs

theorem lengthAt_boundary (hk : k < cs.length) :
    e.lengthAt cs.flatten.toArray (boundary cs k) = cs[k].length ∧
      e.codeAt cs.flatten.toArray (boundary cs k) = e.decode cs[k] ∧
      e.isWordAt cs.flatten.toArray (boundary cs k) = e.isWordLead (cs[k].headD 0) := by
  obtain ⟨lead, trail, hchar⟩ : ∃ lead trail, cs[k] = lead :: trail := by
    cases h : cs[k] with
    | nil =>
      have hfalse := hcs cs[k] (List.getElem_mem hk)
      rw [h] at hfalse
      cases hfalse
    | cons lead trail => exact ⟨lead, trail, rfl⟩
  have hsplit : cs.flatten = (cs.take k).flatten ++ (cs[k] ++ (cs.drop (k + 1)).flatten) := by
    rw [← List.flatten_cons, ← List.drop_eq_getElem_cons hk, ← List.flatten_append, List.take_append_drop]
  have hdrop : cs.flatten.drop (boundary cs k) = cs[k] ++ (cs.drop (k + 1)).flatten := by
    rw [hsplit]
    exact List.drop_left
  have hlead : cs.flatten.toArray[boundary cs k]? = some lead := by
    rw [List.getElem?_toArray, ← Nat.add_zero (boundary cs k), ← List.getElem?_drop, hdrop, hchar]
    rfl
  have hnext : boundary cs (k + 1) = boundary cs k + cs[k].length := by
    rw [boundary, List.take_succ_eq_append_getElem hk, List.flatten_append, List.length_append]
    simp [boundary]
  have hlength : e.lengthAt cs.flatten.toArray (boundary cs k) = cs[k].length := by
    have hadvance := nextHead_boundary hcs hk
    rw [nextHead_eq e (Array.getElem?_eq_some_iff.1 hlead).1, hnext] at hadvance
    omega
  refine ⟨hlength, ?_, by rw [isWordAt, hlead, hchar]; rfl⟩
  rw [codeAt, hlength, Text.slice, Array.toList_extract, List.extract_eq_take_drop, Nat.add_sub_cancel_left, hdrop]
  simp

end

/-- 単語の文字かどうかが `isWord` に等しい文字の長さ。 -/
def wordLength? (e : Encoding) (isWord : Bool) (c : List UInt8) : Option Nat :=
  if e.hasKind (e.decode c) .word = isWord then some c.length else none

/-- 先頭のバイトで決めても、符号位置で決めても、切れ目で合うのはその文字の全体である。 -/
theorem wordLength?_boundary (hcs : ∀ c ∈ cs, e.isChar c ∧ e.isShortest c) (hk : k ≤ cs.length) (isWord : Bool) :
    let text : Text := cs.flatten.toArray
    let s := boundary cs k
    (if s < text.size ∧ e.isWordAt text s = isWord then some (e.lengthAt text s) else none) =
        cs[k]?.bind (e.wordLength? isWord) ∧
      (if s < text.size ∧ e.hasKind (e.codeAt text s) .word = isWord then some (e.lengthAt text s) else none) =
        cs[k]?.bind (e.wordLength? isWord) := by
  intro text s
  rcases Nat.lt_or_eq_of_le hk with hlt | rfl
  · obtain ⟨hlength, hcode, hword⟩ := lengthAt_boundary (fun c hc => (hcs c hc).1) hlt
    have hchar := hcs cs[k] (List.getElem_mem hlt)
    have hlead : e.isWordLead (cs[k].headD 0) = e.hasKind (e.decode cs[k]) .word := by
      cases h : cs[k] with
      | nil =>
        rw [h] at hchar
        cases hchar.1
      | cons lead trail => exact isWordLead_eq_hasKind (h ▸ hchar.1) (h ▸ hchar.2)
    have hlt' : s < text.size := Nat.lt_of_not_le fun hle => by
      have hzero : e.lengthAt text s = 0 := by rw [Encoding.lengthAt, Array.getElem?_eq_none hle]
      have hnil := List.eq_nil_of_length_eq_zero (hlength.symm.trans hzero)
      rw [hnil] at hchar
      cases hchar.1
    rw [hword, hlead, hcode, hlength, List.getElem?_eq_getElem hlt]
    simp only [hlt', true_and, Option.bind_some, wordLength?, and_self]
  · have hend : ¬s < text.size := by simp [s, text, boundary]
    rw [List.getElem?_eq_none (Nat.le_refl _), if_neg fun h => hend h.1, if_neg fun h => hend h.1]
    exact ⟨rfl, rfl⟩

end Encoding

/-! ## パターン -/

namespace Pattern

variable {e : Encoding}

/-- 単語の文字の書き方。 -/
def wordPatterns : List Input := [ascii "\\w", ascii "[\\w]", ascii "[^\\W]"]

/-- 単語でない文字の書き方。 -/
def nonWordPatterns : List Input := [ascii "\\W", ascii "[\\W]", ascii "[^\\w]"]

/-- 一つの種類だけの角括弧の式が表す集まり。 -/
def wordClass (e : Encoding) (outside negated : Bool) : CharClass :=
  CharClass.addKind { negated } e .word outside

theorem bracket_word (e : Encoding) {b : UInt8} {outside : Bool} (negated : Bool)
    (hb : kindByLetter? b = some (.kind .word outside)) :
    bracket e ((if negated then [0x5e] else []) ++ [0x5c, b, 0x5d]) = .ok (wordClass e outside negated, [], []) := by
  have hcaret : stripCaret ((if negated then [0x5e] else []) ++ [0x5c, b, 0x5d]) = (negated, [0x5c, b, 0x5d]) := by
    cases negated <;> rfl
  have hopen (d : ClassDraft) : openBracket d [0x5c, b, 0x5d] = .ok (d, [0x5c, b, 0x5d]) := rfl
  have hitem : classItem e 0x5c [b, 0x5d] = .ok (.kind .word outside, [], [0x5d]) := by
    have hescaped : escapedItem e [b, 0x5d] = .ok (.kind .word outside, [], [0x5d]) := by
      simp only [escapedItem, hb]
    exact hescaped
  have hread : classItems e { cls := { negated } } [0x5c, b, 0x5d] =
      .ok ({ cls := wordClass e outside negated, pending := .value none }, []) :=
    (classItems_item (by decide) (by decide) hitem rfl).trans classItems_close
  have hlength : ¬maxCodeRanges < (wordClass e outside negated).ranges.length := by
    rw [wordClass, CharClass.ranges_addKind]
    split <;> simp [CharClass.addWide, CodeRange.insert, maxCodeRanges]
  simp only [bracket, hcaret, hopen, hread, if_neg hlength]

theorem parse_bracketWord (e : Encoding) {b : UInt8} {outside : Bool} (negated : Bool)
    (hb : kindByLetter? b = some (.kind .word outside)) :
    parse e .none (0x5b :: ((if negated then [0x5e] else []) ++ [0x5c, b, 0x5d])) =
      .ok { root := .cclass (wordClass e outside negated), groups := 0, backrefs := [], warnings := [] } := by
  refine parse_atom (by decide) rfl (by simp) (by simp) ?_
  have hatom := bracket_word e negated hb
  simp only [atom, hatom]
  rfl

end Pattern

/-! ## 一つの検査だけの木 -/

/-- 一つの検査だけの木の命令。 -/
def Node.test? (e : Encoding) : Node → Option Instruction
  | .cclass c => some (classInstruction e c)
  | .word isWord => some (.word isWord)
  | .anchor a => some (anchorInstruction .none a)
  | _ => none

/-- `s` から長さ `n` の照合の答え。捕獲は照合の全体だけである。 -/
def Verdict.ofLength (s : Nat) : Option Nat → Verdict
  | some n => ⟨some n, #[⟨some s, some (s + n)⟩]⟩
  | none => ⟨none, .fresh 0⟩

/-- 一つの命令が合えば次で成功し、合わなければ、積み重ねが空なので、そこで終わる。 -/
theorem Matcher.matchAt_test {m : Matcher} {i : Instruction} {s : Nat} {n : Option Nat} (hleaf : i.isLeaf)
    (hcode : m.program.code = #[i, .accept]) (hgroups : m.program.groups = 0) (hoptions : m.options = .none)
    (hs : s ≤ m.text.size) (hend : m.leafEnd? i (.fresh 0) s = n.map (s + ·)) (fuel : Nat) :
    m.matchAt (fuel + 2) s = some (.ok (.ofLength s n)) := by
  have hfirst : m.program.code[0]? = some i := by rw [hcode]; rfl
  have hlast : m.program.code[1]? = some .accept := by rw [hcode]; rfl
  rw [matchAt, if_neg (Nat.not_lt.2 hs), hgroups, run, step]
  simp only [hfirst, execute_leaf hleaf, hend]
  cases n with
  | none => simp only [Option.map_none, backtrack, Stack.popResume, Verdict.ofLength]
  | some n =>
    have hlength : s + n - s = n := Nat.add_sub_cancel_left ..
    have hempty : Options.none.contains .findNotEmpty = false := by decide
    have hlongest : Options.none.contains .findLongest = false := by decide
    simp only [Option.map_some, run, step, Registers.moveTo, hlast, execute, accept, hoptions, hlength, hempty,
      hlongest, Nat.not_lt.2 (Nat.le_add_right s n), Bool.false_and, Bool.false_eq_true, if_false]
    rfl

namespace Regex

variable {e : Encoding} {fold : Option FoldTable} {pattern : List UInt8} {node : Node} {i : Instruction}

theorem compile_test (fold : Option FoldTable) {ws : List Pattern.Warning} (htest : node.test? e = some i)
    (hparse : Pattern.parse e .none pattern = .ok { root := node, groups := 0, backrefs := [], warnings := ws }) :
    ∃ r, Regex.compile { pattern, encoding := e, fold } = .ok r ∧ i.isLeaf ∧
      r.program = ⟨#[i, .accept], e, .none, fold.getD .ascii, 0, #[], 0⟩ := by
  have hleaf : i.isLeaf := by
    cases node <;> simp only [Node.test?, Option.some.injEq, reduceCtorEq] at htest <;> subst htest
    · exact isLeaf_classInstruction e _
    · rfl
    · exact isLeaf_anchorInstruction .none _
  have hprepare : node.prepare ⟨e, fold, []⟩ .none = .ok node := by
    unfold Node.prepare
    rw [Options.none_contains_ignoreCase]
    cases node <;> simp only [Node.test?, reduceCtorEq] at htest <;> rfl
  have hcompile : CodeEnv.compile { encoding := e, fold } .none 0 node =
      .ok ⟨#[i, .accept], e, .none, fold.getD .ascii, 0, #[], 0⟩ := by
    cases node <;> simp only [Node.test?, Option.some.injEq, reduceCtorEq] at htest <;> subst htest <;> rfl
  unfold Regex.compile
  simp only [hparse, hprepare, hcompile, bind, Except.bind, Except.mapError_ok]
  exact ⟨_, rfl, hleaf, rfl⟩

/-- パターン `pattern` の、`s` からの照合の答えは `v` である。 -/
def Answers (e : Encoding) (fold : Option FoldTable) (text : Text) (s : Nat) (v : Verdict) (pattern : List UInt8) :
    Prop :=
  ∃ r, Regex.compile { pattern, encoding := e, fold } = .ok r ∧
    ∀ limits fuel, r.matchAt limits (fuel + 2) text s = some (.ok v)

theorem answers_test {text : Text} {s : Nat} {n : Option Nat} {ws : List Pattern.Warning}
    (htest : node.test? e = some i)
    (hparse : Pattern.parse e .none pattern = .ok { root := node, groups := 0, backrefs := [], warnings := ws })
    (hs : s ≤ text.size)
    (hend : ∀ m : Matcher, m.encoding = e → m.text = text → m.leafEnd? i (.fresh 0) s = n.map (s + ·)) :
    Answers e fold text s (.ofLength s n) pattern := by
  obtain ⟨r, hcompile, hleaf, hprogram⟩ := compile_test fold htest hparse
  refine ⟨r, hcompile, fun limits fuel => ?_⟩
  have hoptions : (r.matcher limits .none text s).options = .none := by
    rw [matcher, hprogram]
    exact show Options.none.union .none = .none by decide
  exact Matcher.matchAt_test hleaf (congrArg Program.code hprogram) (congrArg Program.groups hprogram) hoptions hs
    (hend _ (congrArg Program.encoding hprogram) rfl) fuel

section

variable {text : Text} {s : Nat} (hs : s ≤ text.size)
include hs

theorem answers_word (isWord : Bool) {b : UInt8} (hb : Pattern.letterEscape? e b = some (.word isWord)) :
    Answers e fold text s (.ofLength s (if s < text.size ∧ e.isWordAt text s = isWord then
      some (e.lengthAt text s) else none)) [0x5c, b] := by
  have hparse : Pattern.parse e .none [0x5c, b] =
      .ok { root := .word isWord, groups := 0, backrefs := [], warnings := [] } := by
    refine Pattern.parse_atom (by decide) rfl (by simp) (by simp) ?_
    have hescape : Pattern.escape e 0 [b] = .ok (.word isWord, []) := by simp only [Pattern.escape, hb]
    simp only [Pattern.atom, hescape]
    rfl
  refine answers_test rfl hparse hs fun m he htext => ?_
  rw [Matcher.leafEnd?_word, he, htext]
  split <;> rfl

theorem answers_bound {a : Anchor} {b : UInt8} {hold : Bool} (hb : Pattern.letterEscape? e b = some (.anchor a))
    (hhold : ∀ x : Setting, x.encoding = e → x.text = text → x.holds .none s a = hold) :
    Answers e fold text s (.ofLength s (if hold then some 0 else none)) [0x5c, b] := by
  have hparse : Pattern.parse e .none [0x5c, b] =
      .ok { root := .anchor a, groups := 0, backrefs := [], warnings := [] } := by
    refine Pattern.parse_atom (by decide) rfl (by simp) (by simp) ?_
    have hescape : Pattern.escape e 0 [b] = .ok (.anchor a, []) := by simp only [Pattern.escape, hb]
    simp only [Pattern.atom, hescape]
    rfl
  refine answers_test rfl hparse hs fun m he htext => ?_
  rw [Matcher.leafEnd?_anchor, hhold m.setting he htext]
  split <;> rfl

/-- 角括弧の式は、符号位置で決める。否定した式には、合わない方の種類を書く。 -/
theorem answers_bracketWord {b : UInt8} {isWord negated : Bool}
    (hb : Pattern.kindByLetter? b = some (.kind .word (isWord == negated))) :
    Answers e fold text s (.ofLength s (if s < text.size ∧ e.hasKind (e.codeAt text s) .word = isWord then
      some (e.lengthAt text s) else none)) (0x5b :: ((if negated then [0x5e] else []) ++ [0x5c, b, 0x5d])) := by
  refine answers_test rfl (Pattern.parse_bracketWord e negated hb) hs fun m he htext => ?_
  have hcontains : (Pattern.wordClass e (isWord == negated) negated).contains e (e.codeAt text s) =
      (e.hasKind (e.codeAt text s) .word == isWord) := by
    have hempty : CodeRange.Spaced (CharClass.ranges { negated }) := .nil
    have hcode : e.codeAt text s ≤ e.maxCode := e.decode_le_maxCode _
    rw [CharClass.contains_eq_holds, Pattern.wordClass, CharClass.negated_addKind,
      CharClass.holds_addKind hempty hcode]
    have hnone : CharClass.holds { negated } e (e.codeAt text s) = false := by
      simp [CharClass.holds, CodeRange.covers]
    rw [hnone]
    cases e.hasKind (e.codeAt text s) .word <;> cases isWord <;> cases negated <;> rfl
  subst he
  rw [Matcher.leafEnd?_class, htext, CharClass.matchAt]
  simp only [hcontains, Encoding.lengthAt_ne_zero_iff, beq_iff_eq]

end

open Pattern in
/-- 最短の形の文字を並べた本文の、どの切れ目でも、単語の文字の書き方はどれも同じ答えになり、単語でない文字の書き方も
そうである。文字があれば、どちらか一方だけがその文字の全体に合う。単語の境は、境でない所の検査が合わない所である。 -/
theorem answers_wordPatterns (e : Encoding) (fold : Option FoldTable) {cs : List (List UInt8)} {k : Nat}
    (hcs : ∀ c ∈ cs, e.isChar c ∧ e.isShortest c) (hk : k ≤ cs.length) :
    let text : Text := cs.flatten.toArray
    let s := Encoding.boundary cs k
    ∃ word other bound inside : Verdict,
      (∀ pattern ∈ wordPatterns, Answers e fold text s word pattern) ∧
      (∀ pattern ∈ nonWordPatterns, Answers e fold text s other pattern) ∧
      Answers e fold text s bound (ascii "\\b") ∧ Answers e fold text s inside (ascii "\\B") ∧
      (∀ h : k < cs.length, word.length = some cs[k].length ∧ other.length = none ∨
        word.length = none ∧ other.length = some cs[k].length) ∧
      (word.length.isSome ↔ ∃ c ∈ cs[k]?, e.hasKind (e.decode c) .word) ∧
      (bound.length.isSome ↔ inside.length = none) := by
  intro text s
  have hs : s ≤ text.size := by
    have hle := (Encoding.stride_boundary (fun c hc => (hcs c hc).1) hk).head.le
    exact hle
  have hagree := Encoding.wordLength?_boundary hcs hk
  let length (isWord : Bool) : Option Nat := cs[k]?.bind (e.wordLength? isWord)
  have hword (isWord : Bool) {b : UInt8} (hb : letterEscape? e b = some (.word isWord)) :
      Answers e fold text s (.ofLength s (length isWord)) [0x5c, b] := by
    have h : Answers e fold text s _ [0x5c, b] := answers_word hs isWord hb
    rwa [(hagree isWord).1] at h
  have hbracket (isWord negated : Bool) {b : UInt8} (hb : kindByLetter? b = some (.kind .word (isWord == negated))) :
      Answers e fold text s (.ofLength s (length isWord))
        (0x5b :: ((if negated then [0x5e] else []) ++ [0x5c, b, 0x5d])) := by
    have h : Answers e fold text s _ _ := answers_bracketWord hs hb
    rwa [(hagree isWord).2] at h
  let atBound : Bool := e.isWordBefore text s != e.isWordAt text s
  refine ⟨.ofLength s (length true), .ofLength s (length false), .ofLength s (if atBound then some 0 else none),
    .ofLength s (if !atBound then some 0 else none), ?_, ?_, ?_, ?_, ?_, ?_, ?_⟩
  · simp only [wordPatterns, List.forall_mem_cons]
    exact ⟨hword true rfl, hbracket true false rfl, hbracket true true rfl, by simp⟩
  · simp only [nonWordPatterns, List.forall_mem_cons]
    exact ⟨hword false rfl, hbracket false false rfl, hbracket false true rfl, by simp⟩
  · exact answers_bound hs rfl fun x he htext => by rw [Setting.holds, Setting.isWordBefore_eq, he, htext]
  · refine answers_bound hs rfl fun x he htext => ?_
    rw [Setting.holds, Setting.isWordBefore_eq, he, htext]
    simp only [atBound]
    cases e.isWordBefore text s <;> cases e.isWordAt text s <;> rfl
  · intro h
    simp only [length, List.getElem?_eq_getElem h, Option.bind_some, Encoding.wordLength?]
    cases e.hasKind (e.decode cs[k]) .word <;> simp [Verdict.ofLength]
  · cases hc : cs[k]? with
    | none => simp [length, hc, Verdict.ofLength]
    | some c =>
      cases hkind : e.hasKind (e.decode c) .word <;> simp [length, hc, hkind, Encoding.wordLength?, Verdict.ofLength]
  · cases atBound <;> simp [Verdict.ofLength]

/-- 幅の違う文字の後の、一バイトの制御文字も、単語の文字である。 -/
theorem answers_wordPatterns_control :
    let cs : List (List UInt8) := [[0x8e, 0xb1], [0x8f, 0xa1, 0xa1], [0x85], [0x2d]]
    (∀ c ∈ cs, Encoding.eucJp.isChar c ∧ Encoding.eucJp.isShortest c) ∧ 2 ≤ cs.length ∧
      ∃ word other : Verdict,
        (∀ pattern ∈ Pattern.wordPatterns, Answers .eucJp none cs.flatten.toArray 5 word pattern) ∧
        (∀ pattern ∈ Pattern.nonWordPatterns, Answers .eucJp none cs.flatten.toArray 5 other pattern) ∧
        word.length = some 1 ∧ other.length = none := by
  intro cs
  have hcs : ∀ c ∈ cs, Encoding.eucJp.isChar c ∧ Encoding.eucJp.isShortest c := by decide
  have hk : 2 ≤ cs.length := by decide
  obtain ⟨word, other, _, _, hword, hother, -, -, hwhole, hkind, -⟩ := answers_wordPatterns .eucJp none hcs hk
  have hsome : word.length.isSome := hkind.2 ⟨[0x85], rfl, rfl⟩
  rcases hwhole (by decide) with ⟨hlength, hnone⟩ | ⟨hnone, -⟩
  · exact ⟨hcs, hk, word, other, hword, hother, hlength, hnone⟩
  · simp [hnone] at hsome

end Regex
end MultibyteRegex

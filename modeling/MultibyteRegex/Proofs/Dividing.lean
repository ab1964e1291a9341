import MultibyteRegex.Proofs.Escaping
import MultibyteRegex.Proofs.Layout
import MultibyteRegex.Proofs.Undo

/-!
# 文字列の枝の後読みの翻訳

特別な意味を持たない文字だけの枝を並べた後読みは、枝の文字数が揃えば一つの後読みのまま、揃わなければ枝ごとの
後読みに分かれて、命令に直る。
-/

namespace MultibyteRegex

/-- 後読みの種類。 -/
def GroupKind.lookBehind : Bool → GroupKind
  | false => .behind
  | true => .notBehind

/-! ## 読み取り -/

namespace Pattern

variable {e : Encoding} {b rest : Input} {c : List UInt8} {cs : List (List UInt8)} {negative : Bool} {bs : List Input}

/-- そのまま書いて、その文字を表す一文字。後続バイトは何でもよい。 -/
def isPlainChar (e : Encoding) (c : List UInt8) : Bool := e.isChar c && !c.head?.any isSpecial

/-- 特別な意味を持たない文字だけを並べたもの。 -/
def isLiteral (e : Encoding) (b : Input) : Bool := (e.chars b).all (isPlainChar e)

/-- 枝を並べた後読みのパターン。 -/
def lookBehind (negative : Bool) (bs : List Input) : Input :=
  ascii (if negative then "(?<!" else "(?<=") ++ ((ascii "|").intercalate bs ++ ascii ")")

theorem isWellFormed_of_isLiteral (h : isLiteral e b) : e.isWellFormed b :=
  List.all_eq_true.2 fun c hc => (Bool.and_eq_true_iff.1 (List.all_eq_true.1 h c hc)).1

/-- 注釈でも繰り返しでも始まらない。 -/
structure Bare (rest : Input) : Prop where
  skipTrivia_eq : skipTrivia false rest = .ok rest
  repetition_eq : repetition rest = .ok none

theorem Bare.flatten (hcs : ∀ c ∈ cs, isPlainChar e c) (hrest : Bare rest) : Bare (cs.flatten ++ rest) := by
  cases cs with
  | nil => exact hrest
  | cons c cs =>
    have hc := hcs c List.mem_cons_self
    cases c with
    | nil => cases hc
    | cons b trail =>
      have hb : ¬isSpecial b := by simpa [isPlainChar] using (Bool.and_eq_true_iff.1 hc).2
      exact ⟨skipTrivia_of_ne (latin1_of_not_special b hb).1.2.2, repetition_of_not_special hb⟩

/-- 文字を並べたものを読むと、文字ごとの節が増える。 -/
theorem readAll_chars (hcs : ∀ c ∈ cs, isPlainChar e c) (hrest : Bare rest) {r : Reading}
    (hextended : r.extended = false) (hr : r.rest = cs.flatten ++ rest) : readAll e r = readAll e { r with
      rest, level := { r.level with items := (cs.map Node.str).reverse ++ r.level.items } } := by
  induction cs generalizing r with
  | nil =>
    rw [List.flatten_nil, List.nil_append] at hr
    subst hr
    rfl
  | cons c cs ih =>
    obtain ⟨hc, hrestChars⟩ := List.forall_mem_cons.1 hcs
    cases c with
    | nil => cases hc
    | cons b trail =>
      have hbare : Bare (cs.flatten ++ rest) := hrest.flatten hrestChars
      simp only [isPlainChar, Encoding.isChar, List.head?_cons, Option.any_some, Bool.and_eq_true, beq_iff_eq,
        Bool.not_eq_true'] at hc
      obtain ⟨⟨⟨hwidth, -⟩, -⟩, hb⟩ := hc
      have hspecial : ¬isSpecial b := by simp [hb]
      have hskip : skipTrivia r.extended r.rest = .ok (b :: (trail ++ (cs.flatten ++ rest))) := by
        rw [hextended, hr]
        simpa using skipTrivia_of_ne (latin1_of_not_special b hspecial).1.2.2
      have hadvance : r.advance e b (trail ++ (cs.flatten ++ rest)) =
          .ok (r.push (.str (b :: trail)) (cs.flatten ++ rest)) :=
        advance_char hspecial (by omega) hextended hbare.skipTrivia_eq hbare.repetition_eq
      rw [readAll_advance hskip hadvance, ih hrestChars (r := r.push _ _) hextended rfl]
      simp [Reading.push, Level.push]

/-- 一つの枝を読むと、その枝の文字列が揃う。 -/
theorem readAll_literal (hb : isLiteral e b) (hrest : Bare rest) {r : Reading} (hextended : r.extended = false)
    (hitems : r.level.items = []) (hr : r.rest = b ++ rest) :
    ∃ level : Level, level.options = r.level.options ∧ level.branches = r.level.branches ∧
      level.branch = .literal b ∧ readAll e r = readAll e { r with rest, level } := by
  have hchars : r.rest = (e.chars b).flatten ++ rest := by rw [hr, Encoding.flatten_chars]
  have hread := readAll_chars (List.all_eq_true.1 hb) hrest hextended hchars
  rw [hitems, List.append_nil] at hread
  refine ⟨{ r.level with items := ((e.chars b).map Node.str).reverse }, rfl, rfl, ?_, hread⟩
  simp [Level.branch, Node.seq_chars]

/-- 枝を順に読むと、閉じ括弧の前までに、枝ごとの文字列が揃う。 -/
theorem readAll_branches (hb : isLiteral e b) (hbs : ∀ b ∈ bs, isLiteral e b) {r : Reading}
    (hextended : r.extended = false) (hitems : r.level.items = [])
    (hr : r.rest = (ascii "|").intercalate (b :: bs) ++ ascii ")") :
    ∃ level : Level, level.options = r.level.options ∧
      level.node = .choice (r.level.branches.reverse ++ (b :: bs).map .literal) ∧
      readAll e r = readAll e { r with rest := ascii ")", level } := by
  induction bs generalizing b r with
  | nil =>
    rw [List.intercalate_singleton] at hr
    obtain ⟨level, hoptions, hbranches, hbranch, hread⟩ := readAll_literal hb
      ⟨skipTrivia_of_ne (b := 0x29) (by decide), rfl⟩ hextended hitems hr
    refine ⟨level, hoptions, ?_, hread⟩
    simp [Level.node, hbranches, hbranch]
  | cons b' bs ih =>
    -- 縦棒で枝を閉じると、残りの枝を、閉じた枝の加わった段から読むことになる。
    obtain ⟨hb', hbs⟩ := List.forall_mem_cons.1 hbs
    rw [List.intercalate_cons_cons, List.append_assoc, List.append_assoc] at hr
    obtain ⟨level, hoptions, hbranches, hbranch, hread⟩ := readAll_literal hb
      ⟨skipTrivia_of_ne (b := 0x7c) (by decide), rfl⟩ hextended hitems hr
    have hextended' : Reading.extended { r with rest := [], level } = false := by
      rw [← hextended, Reading.extended, Reading.extended, hoptions]
    let r' : Reading :=
      { r with rest := (ascii "|").intercalate (b' :: bs) ++ ascii ")", level := level.nextBranch }
    have hskip : skipTrivia false (0x7c :: r'.rest) = .ok (0x7c :: r'.rest) := skipTrivia_of_ne (by decide)
    rw [← hextended'] at hskip
    obtain ⟨level', hoptions', hnode, hrest⟩ := ih hb' hbs (r := r') hextended' rfl rfl
    refine ⟨level', hoptions'.trans hoptions, ?_, ?_⟩
    · rw [hnode]
      simp [r', Level.nextBranch, hbranches, hbranch]
    · rw [hread, readAll_advance hskip rfl]
      exact hrest

theorem skipTrivia_behind (rest : Input) :
    skipTrivia false (0x28 :: 0x3f :: 0x3c :: rest) = .ok (0x28 :: 0x3f :: 0x3c :: rest) := by
  have hhash : latin1 0x3c ≠ '#' := by decide
  simp [skipTrivia, hhash]

/-- 残りが閉じ括弧だけなら、全体がその括弧の節になる。 -/
theorem readAll_close {level : Level} (hoptions : level.options = .none) (kind : GroupKind) :
    readAll e { rest := ascii ")", level, outer := [(.group kind, { options := .none })] } =
      .ok { root := .group kind level.node, groups := 0, backrefs := [], warnings := [] } := by
  have hnil : ∀ extended, skipTrivia extended [] = .ok [] := fun _ => by rw [skipTrivia]
  have hskip : skipTrivia (level.options.contains .extend) (ascii ")") = .ok (ascii ")") := by
    rw [hoptions, Options.none_contains_extend]
    exact skipTrivia_of_ne (b := 0x29) (by decide)
  let outside : Reading := { rest := ascii ")", level := { options := .none } }
  have hattach : outside.attach (.group kind level.node) [] = .ok (outside.push (.group kind level.node) []) :=
    attach_of_repetition (r := outside) Options.none_contains_extend _ (hnil false) rfl
  let inner : Reading := { rest := ascii ")", level, outer := [(.group kind, { options := .none })] }
  have hleave : inner.advance e 0x29 [] = .ok (outside.push (.group kind level.node) []) := hattach
  have hfinish : readAll e (outside.push (.group kind level.node) []) = _ := readAll_finish (hnil _)
  refine (readAll_advance (r := inner) hskip hleave).trans (hfinish.trans ?_)
  simp [outside, Reading.finish, Reading.push, Level.push, closeTails, Level.node, Level.branch, Node.spliceLists,
    Node.joinLiterals, Node.seq, Node.choice]

/-- 枝を並べた後読みは、枝の文字列の選択を本体とする節になる。 -/
theorem parse_lookBehind (hne : bs ≠ []) (hbs : ∀ b ∈ bs, isLiteral e b) (negative : Bool) :
    parse e .none (lookBehind negative bs) = .ok
      { root := .group (.lookBehind negative) (.choice (bs.map .literal)), groups := 0, backrefs := [],
        warnings := [] } := by
  obtain ⟨b, bs, rfl⟩ := List.exists_cons_of_ne_nil hne
  obtain ⟨hb, hbs⟩ := List.forall_mem_cons.1 hbs
  have hskip : skipTrivia (Options.none.contains .extend) (lookBehind negative (b :: bs)) =
      .ok (lookBehind negative (b :: bs)) := by
    rw [Options.none_contains_extend]
    cases negative <;> exact skipTrivia_behind _
  let outside : Reading := { rest := lookBehind negative (b :: bs), level := { options := .none } }
  let inner := outside.enter (.group (.lookBehind negative)) .none ((ascii "|").intercalate (b :: bs) ++ ascii ")")
  have hopen : readAll e outside = readAll e inner := by cases negative <;> exact readAll_advance hskip rfl
  obtain ⟨level, hoptions, hnode, hread⟩ := readAll_branches hb hbs (r := inner)
    Options.none_contains_extend rfl rfl
  have hparse := hopen.trans (hread.trans (readAll_close hoptions (.lookBehind negative)))
  unfold parse
  rw [hparse, hnode]
  rfl

end Pattern

/-! ## 書き換え -/

/-- 最も外側の選択は、どの枝の数も決まっていれば、揃うか、枝ごとに分かれる。 -/
theorem CharCount.either_fixed (ks : List Nat) :
    (∃ k, either true (ks.map .fixed) = .fixed k) ∨ either true (ks.map .fixed) = .topAlternatives := by
  cases ks with
  | nil => exact .inl ⟨0, rfl⟩
  | cons k ks =>
    have hfixed : ((k :: ks).map CharCount.fixed).all isFixed := by simp [isFixed]
    rw [List.map_cons] at hfixed ⊢
    rw [either, hfixed]
    by_cases hall : (ks.map CharCount.fixed).all (· = CharCount.fixed k) <;> simp [hall]

namespace Node

/-- 命令に直す前の後読み。枝の文字数が揃わなければ、枝ごとの後読みに分かれている。 -/
inductive Divided (e : Encoding) (bs : List (List UInt8)) : Bool → Node → Prop
  | whole (negative : Bool) {k : Nat} (hcount : (choice (bs.map literal)).charCount e = .fixed k) :
    Divided e bs negative (.group (.lookBehind negative) (.choice (bs.map literal)))
  | positive : Divided e bs false (.alt (bs.map fun b => .group .behind (literal b)))
  | negated : Divided e bs true (.list (bs.map fun b => .group .notBehind (literal b)))

variable {e : Encoding} {env : CodeEnv} {bs : List (List UInt8)} {b : List UInt8} {n root : Node} {ns : List Node}
  {options : Options} {undo negative : Bool} {k : Nat}

@[simp]
theorem prepareAt_literal (env : PrepareEnv) : (literal b).prepareAt env options undo = .ok (literal b) := by
  cases b <;> rfl

@[simp]
theorem charCountAt_literal (top : Bool) : (literal b).charCountAt e top = .fixed (e.chars b).length := by
  cases b
  · simp [literal, charCountAt, Encoding.chars]
  · rfl

@[simp]
theorem isAllowedBehind_literal : (literal b).isAllowedBehind negative := by
  cases b <;> rfl

@[simp]
theorem unmarked_literal : (literal b).unmarked = [] := by
  cases b <;> rfl

@[simp]
theorem behindsFixed_literal : (literal b).BehindsFixed e := by
  cases b <;> trivial

theorem prepareAll_literals (env : PrepareEnv) (bs : List (List UInt8)) :
    prepareAll env options undo (bs.map literal) = .ok (bs.map literal) := by
  induction bs with
  | nil => rfl
  | cons b bs ih =>
    rw [List.map_cons, prepareAll, prepareAt_literal, ih]
    rfl

theorem charCounts_literals : charCounts e (bs.map literal) = (bs.map fun b => (e.chars b).length).map .fixed := by
  induction bs with
  | nil => rfl
  | cons b bs ih => simp [charCounts, ih]

theorem allAllowedBehind_literals (negative : Bool) (bs : List (List UInt8)) :
    allAllowedBehind negative (bs.map literal) := by
  induction bs with
  | nil => rfl
  | cons b bs ih => simpa [allAllowedBehind] using ih

theorem prepareAt_choice_literals (env : PrepareEnv) (bs : List (List UInt8)) :
    (choice (bs.map literal)).prepareAt env options undo = .ok (choice (bs.map literal)) := by
  match bs with
  | [] => rfl
  | [b] => exact prepareAt_literal env
  | b :: b' :: bs =>
    have h : prepareAll env options true ((b :: b' :: bs).map literal) = _ := prepareAll_literals env _
    simp only [List.map_cons] at h
    simp only [List.map_cons, choice, prepareAt, h]
    rfl

theorem charCount_choice_literals (e : Encoding) (bs : List (List UInt8)) :
    (choice (bs.map literal)).charCount e = .either true ((bs.map fun b => (e.chars b).length).map .fixed) := by
  match bs with
  | [] => rfl
  | [b] => simp [choice, charCount, CharCount.either, CharCount.isFixed]
  | b :: b' :: bs =>
    rw [← charCounts_literals]
    rfl

theorem isAllowedBehind_choice_literals (negative : Bool) (bs : List (List UInt8)) :
    (choice (bs.map literal)).isAllowedBehind negative := by
  match bs with
  | [] => rfl
  | [b] => exact isAllowedBehind_literal
  | b :: b' :: bs => exact allAllowedBehind_literals negative (b :: b' :: bs)

/-- 揃った枝の後読みは、そのまま残る。 -/
theorem prepareAt_lookBehind {env : PrepareEnv} {body : Node} {k : Nat} (hallowed : body.isAllowedBehind negative)
    (hcount : body.charCount env.encoding = .fixed k) (hbody : ∀ undo, body.prepareAt env options undo = .ok body) :
    (group (.lookBehind negative) body).prepareAt env options undo = .ok (group (.lookBehind negative) body) := by
  cases negative
  all_goals
    simp only [GroupKind.lookBehind]
    unfold prepareAt
    rw [hallowed]
    simp only [hcount, hbody]
    rfl

theorem prepareAt_lookBehind_alt {env : PrepareEnv} (hallowed : (alt ns).isAllowedBehind negative)
    (hcount : (alt ns).charCount env.encoding = .topAlternatives) (hns : prepareAll env options true ns = .ok ns) :
    (group (.lookBehind negative) (alt ns)).prepareAt env options undo =
      .ok (if negative then .list (ns.map (group .notBehind)) else .alt (ns.map (group .behind))) := by
  cases negative
  all_goals
    simp only [GroupKind.lookBehind]
    unfold prepareAt
    rw [hallowed]
    simp only [hcount, hns]
    rfl

/-- 文字列の選択の後読みは、枝の文字数が揃うかどうかに応じて書き換わる。 -/
theorem prepare_lookBehind (env : PrepareEnv) (negative : Bool) (bs : List (List UInt8)) : ∃ root,
    (group (.lookBehind negative) (choice (bs.map literal))).prepare env .none = .ok root ∧
      Divided env.encoding bs negative root := by
  have hallowed := isAllowedBehind_choice_literals negative bs
  have hcount := charCount_choice_literals env.encoding bs
  unfold prepare
  rw [Options.none_contains_ignoreCase]
  rcases CharCount.either_fixed (bs.map fun b => (env.encoding.chars b).length) with ⟨k, hk⟩ | htop
  · exact ⟨_, prepareAt_lookBehind hallowed (hcount.trans hk) fun undo => prepareAt_choice_literals env bs,
      .whole negative (hcount.trans hk)⟩
  · have halt : choice (bs.map literal) = .alt (bs.map literal) := by
      match bs, hcount.trans htop with
      | [b], hone => simp [choice, charCount] at hone
      | b :: b' :: bs, _ => rfl
    rw [halt] at hallowed hcount ⊢
    refine ⟨_, prepareAt_lookBehind_alt hallowed (hcount.trans htop) (prepareAll_literals env bs), ?_⟩
    rw [List.map_map, List.map_map]
    cases negative
    · exact .positive
    · exact .negated

/-! ## 翻訳の成功 -/

theorem unmarkedIn_eq_nil (h : ∀ n ∈ ns, n.unmarked = []) : unmarkedIn ns = [] := by
  induction ns with
  | nil => rfl
  | cons n ns ih =>
    obtain ⟨hn, hns⟩ := List.forall_mem_cons.1 h
    rw [unmarkedIn, hn, ih hns, List.append_nil]

theorem unmarked_choice (ns : List Node) : (choice ns).unmarked = unmarkedIn ns := by
  unfold choice
  split <;> simp [unmarked, unmarkedIn]

theorem Divided.unmarked (h : Divided e bs negative root) : root.unmarked = [] := by
  cases h with
  | whole negative h =>
    have hbody : (choice (bs.map literal)).unmarked = [] := by
      rw [unmarked_choice]
      exact unmarkedIn_eq_nil (by simp)
    cases negative <;> exact hbody
  | positive | negated => exact unmarkedIn_eq_nil (by simp [Node.unmarked])

theorem Divided.behindsFixed (h : Divided e bs negative root) : root.BehindsFixed e := by
  cases h with
  | @whole negative k hcount =>
    have hbody : (choice (bs.map literal)).BehindsFixed e := by
      match bs with
      | [] => trivial
      | [b] => exact behindsFixed_literal
      | b :: b' :: bs =>
        have hbranches : ∀ n ∈ (b :: b' :: bs).map literal, n.BehindsFixed e := by simp
        exact behindsFixedIn_of_forall hbranches
    have hfixed : ((choice (bs.map literal)).charCount e).isFixed := by simp [hcount, CharCount.isFixed]
    cases negative <;> exact ⟨hfixed, hbody⟩
  | positive | negated => exact behindsFixedIn_of_forall (by simp [BehindsFixed, charCount, CharCount.isFixed])

theorem length_runs_le (cs : List (List UInt8)) : (Literal.runs cs).length ≤ cs.length := by
  induction cs with
  | nil => exact Nat.le_refl 0
  | cons c cs ih =>
    unfold Literal.runs
    split
    · rename_i hruns
      rw [hruns] at ih
      simp only [List.length_cons] at ih ⊢
      split <;> simp only [List.length_cons] <;> omega
    · simp

theorem length_chars_le (e : Encoding) (b : List UInt8) : (e.chars b).length ≤ b.length := by
  fun_induction Encoding.chars e b with
  | case1 => exact Nat.le_refl 0
  | case2 c rest ih =>
    have hdrop := (List.drop_suffix (e.width c - 1) rest).length_le
    simp only [List.length_cons, Encoding.takeChar] at ih ⊢
    omega

theorem size_literal (env : CodeEnv) (b : List UInt8) : ∃ k ≤ b.length, env.size .none (literal b) = .ok k := by
  have hfold := env.foldFor_none
  cases b with
  | nil => exact ⟨0, Nat.le_refl _, rfl⟩
  | cons c b =>
    refine ⟨(Literal.code env.encoding none (c :: b)).length, ?_, ?_⟩
    · rw [Literal.code, List.length_map]
      exact Nat.le_trans (length_runs_le _) (length_chars_le _ _)
    · simp only [literal, CodeEnv.size, hfold]
      rfl

theorem size_choice (ns : List Node) : env.size options (choice ns) = env.sizeAlt options ns := by
  unfold choice
  split <;> rfl

/-- 枝ごとの命令の数が抑えられれば、選択の全体も抑えられる。 -/
theorem sizeAlt_map {f : List UInt8 → Node} {d : Nat}
    (h : ∀ b, ∃ k ≤ b.length + d, env.size .none (f b) = .ok k) (bs : List (List UInt8)) :
    ∃ k ≤ bs.flatten.length + (d + 2) * bs.length, env.sizeAlt .none (bs.map f) = .ok k := by
  induction bs with
  | nil => exact ⟨0, Nat.zero_le _, rfl⟩
  | cons b bs ih =>
    obtain ⟨k, hk, hsize⟩ := h b
    cases bs with
    | nil => exact ⟨k, by simp; omega, hsize⟩
    | cons b' bs =>
      obtain ⟨k', hk', hrest⟩ := ih
      rw [List.map_cons, List.map_cons, CodeEnv.sizeAlt, ← List.map_cons, hsize, hrest, List.flatten_cons,
        List.length_append, List.length_cons, Nat.mul_succ]
      exact ⟨k + 2 + k', by omega, rfl⟩

theorem sizeList_map {f : List UInt8 → Node} {d : Nat}
    (h : ∀ b, ∃ k ≤ b.length + d, env.size .none (f b) = .ok k) (bs : List (List UInt8)) :
    ∃ k ≤ bs.flatten.length + d * bs.length, env.sizeList .none (bs.map f) = .ok k := by
  induction bs with
  | nil => exact ⟨0, Nat.zero_le _, rfl⟩
  | cons b bs ih =>
    obtain ⟨k, hk, hsize⟩ := h b
    obtain ⟨k', hk', hrest⟩ := ih
    rw [List.map_cons, CodeEnv.sizeList, hsize, hrest, List.flatten_cons, List.length_append, List.length_cons,
      Nat.mul_succ]
    exact ⟨k + k', by omega, rfl⟩

theorem size_lookBehind (h : env.size options n = .ok k) (negative : Bool) :
    ∃ k' ≤ k + 2, env.size options (.group (.lookBehind negative) n) = .ok k' := by
  cases negative
  · refine ⟨k + 1, Nat.le_succ _, ?_⟩
    simp only [GroupKind.lookBehind, CodeEnv.size, h]
    rfl
  · refine ⟨k + 2, Nat.le_refl _, ?_⟩
    simp only [GroupKind.lookBehind, CodeEnv.size, h]
    rfl

theorem Divided.size_le (h : Divided e bs negative root) (env : CodeEnv) :
    ∃ k ≤ bs.flatten.length + 4 * bs.length + 2, env.size .none root = .ok k := by
  have hbranch (negative : Bool) (b : List UInt8) :
      ∃ k ≤ b.length + 2, env.size .none (.group (.lookBehind negative) (literal b)) = .ok k := by
    obtain ⟨k, hk, hsize⟩ := size_literal env b
    obtain ⟨k', hk', hsize⟩ := size_lookBehind hsize negative
    exact ⟨k', by omega, hsize⟩
  cases h with
  | whole negative hcount =>
    obtain ⟨k, hk, hsize⟩ := sizeAlt_map (d := 0) (size_literal env) bs
    rw [← size_choice] at hsize
    obtain ⟨k', hk', hsize⟩ := size_lookBehind hsize negative
    exact ⟨k', by omega, hsize⟩
  | positive =>
    obtain ⟨k, hk, hsize⟩ := sizeAlt_map (hbranch false) bs
    exact ⟨k, by omega, hsize⟩
  | negated =>
    obtain ⟨k, hk, hsize⟩ := sizeList_map (hbranch true) bs
    exact ⟨k, by omega, hsize⟩

end Node

/-! ## 翻訳の全体 -/

theorem Pattern.length_lookBehind {bs : List (List UInt8)} (hne : bs ≠ []) (negative : Bool) :
    (lookBehind negative bs).length = bs.flatten.length + bs.length + 4 := by
  have hbar : (ascii "|").length = 1 := rfl
  have hbody : ((ascii "|").intercalate bs).length + 1 = bs.flatten.length + bs.length := by
    induction bs with
    | nil => exact absurd rfl hne
    | cons b bs ih =>
      cases bs with
      | nil => simp
      | cons b' bs =>
        have hrest := ih (List.cons_ne_nil b' bs)
        have hbranches : (b :: b' :: bs).length = (b' :: bs).length + 1 := rfl
        rw [List.intercalate_cons_cons, List.length_append, List.length_append, hbar, List.flatten_cons,
          List.length_append, hbranches]
        omega
  have hclose : (ascii ")").length = 1 := rfl
  have hopen : (ascii (if negative then "(?<!" else "(?<=")).length = 4 := by cases negative <;> rfl
  rw [lookBehind, List.length_append, List.length_append, hclose, hopen]
  omega

namespace Regex

variable {s : Source} {bs : List (List UInt8)} {negative : Bool}

/-- 後読みの木は、枝の文字数に応じて分かれる。翻訳が失敗するのは、パターンが長すぎるときだけである。 -/
theorem compile_lookBehind (hoptions : s.options = .none) (hpattern : s.pattern = Pattern.lookBehind negative bs)
    (hne : bs ≠ []) (hbs : ∀ b ∈ bs, Pattern.isLiteral s.encoding b) :
    ∃ root, s.tree? = some root ∧ root.Divided s.encoding bs negative ∧ ∀ err, Regex.compile s = .error err →
      err = .compile .addressOverflow ∧ 0x7fffffff < 4 * s.pattern.length := by
  have hparse := Pattern.parse_lookBehind hne hbs negative
  obtain ⟨root, hprepare, hroot⟩ := Node.prepare_lookBehind ⟨s.encoding, s.fold, []⟩ negative bs
  refine ⟨root, ?_, hroot, fun err herr => ?_⟩
  · simp [Source.tree?, hoptions, hpattern, hparse, hprepare, Except.toOption]
  · obtain ⟨k, hk, hsize⟩ := hroot.size_le s.env
    unfold Regex.compile at herr
    simp only [hoptions, hpattern, hparse, hprepare, bind, Except.bind, Except.mapError_ok] at herr
    cases hcompile : s.env.compile .none 0 root with
    | ok p =>
      rw [Source.env] at hcompile
      rw [hcompile] at herr
      cases herr
    | error err' =>
      obtain ⟨rfl, hlarge⟩ := CodeEnv.compile_eq_overflow hsize hroot.behindsFixed hcompile
      rw [Source.env] at hcompile
      rw [hcompile] at herr
      cases herr
      rw [hpattern, Pattern.length_lookBehind hne]
      exact ⟨rfl, by omega⟩

end Regex

end MultibyteRegex

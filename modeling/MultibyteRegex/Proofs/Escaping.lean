import MultibyteRegex.Proofs.SingleByte

/-!
# 文字列をそのまま表すパターン

特別な意味を持つバイトに逆斜線を付けたパターンは、元の文字列の節に読み取られる。後続バイトが特別なバイトと
紛れない符号化では、逆斜線は文字の途中に入らない。
-/

namespace MultibyteRegex

theorem Options.none_contains_extend : Options.none.contains .extend = false := by decide

theorem Options.none_contains_ignoreCase : Options.none.contains .ignoreCase = false := by decide

theorem CodeEnv.foldFor_none (env : CodeEnv) : env.foldFor .none = .ok none := by
  rw [foldFor, Options.none_contains_ignoreCase]
  rfl

namespace Pattern

/-- 逆斜線を付けなければ、文字そのものを表さないバイト。 -/
def isSpecial (b : UInt8) : Bool := b ∈ ascii "()[.^$\\|*+?\x7b"

/-- `w` をそのまま表すパターン。 -/
def quote (w : List UInt8) : List UInt8 := w.flatMap fun b => if isSpecial b then [0x5c, b] else [b]

variable {e : Encoding} {b : UInt8} {rest w v trail : List UInt8}

theorem quote_append : quote (w ++ v) = quote w ++ quote v := List.flatMap_append

theorem quote_of_not_special (h : ∀ b ∈ w, ¬isSpecial b) : quote w = w := by
  induction w with
  | nil => rfl
  | cons b w ih =>
    obtain ⟨hb, hw⟩ := List.forall_mem_cons.1 h
    have hrest := ih hw
    simp only [quote] at hrest
    simp [quote, hb, hrest]

theorem latin1_inj {b c : UInt8} (h : latin1 b = latin1 c) : b = c := by
  have hval : ∀ b : UInt8, (latin1 b).toNat = b.toNat := fun b => by
    have hb := b.toNat_lt
    have hvalid : b.toNat.isValidChar := .inl (by omega)
    rw [latin1, Char.ofNat, dif_pos hvalid]
    rfl
  rw [← UInt8.toNat_inj, ← hval b, ← hval c, h]

/-- 特別でないバイトは、どの演算子でもない。 -/
theorem latin1_of_not_special (b : UInt8) (h : ¬isSpecial b) :
    (latin1 b ≠ '|' ∧ latin1 b ≠ ')' ∧ latin1 b ≠ '(') ∧
      (latin1 b ≠ '*' ∧ latin1 b ≠ '+' ∧ latin1 b ≠ '?' ∧ latin1 b ≠ '\x7b') ∧
      latin1 b ≠ '[' ∧ latin1 b ≠ '.' ∧ latin1 b ≠ '^' ∧ latin1 b ≠ '$' ∧ latin1 b ≠ '\\' := by
  have hne : ∀ c, isSpecial c → latin1 b ≠ latin1 c := fun c hc heq => h (latin1_inj heq ▸ hc)
  exact ⟨⟨hne 0x7c rfl, hne 0x29 rfl, hne 0x28 rfl⟩,
    ⟨hne 0x2a rfl, hne 0x2b rfl, hne 0x3f rfl, hne 0x7b rfl⟩,
    hne 0x5b rfl, hne 0x2e rfl, hne 0x5e rfl, hne 0x24 rfl, hne 0x5c rfl⟩

/-- 特別なバイトは、それだけで一文字になり、後続バイトと紛れず、逆斜線の後でもほかの意味を持たない。 -/
theorem spec_of_isSpecial (he : e.isLeadDistinguishable) (h : isSpecial b) :
    e.width b = 1 ∧ e.isTrail b = false ∧
      ((letterEscape? e b).isNone ∧ latin1 b ≠ 'x' ∧ latin1 b ≠ '0' ∧ digit? 10 b = none) ∧
      (latin1 b ≠ 'M' ∧ latin1 b ≠ 'C' ∧ latin1 b ≠ 'c') ∧ controlByName b = b ∧
      (e.encode b.toNat).toOption.any (· == [b]) := by
  have hall : ∀ e ∈ [Encoding.ascii, .utf8], ∀ b ∈ ascii "()[.^$\\|*+?\x7b",
      e.width b = 1 ∧ e.isTrail b = false ∧
        ((letterEscape? e b).isNone ∧ latin1 b ≠ 'x' ∧ latin1 b ≠ '0' ∧ digit? 10 b = none) ∧
        (latin1 b ≠ 'M' ∧ latin1 b ≠ 'C' ∧ latin1 b ≠ 'c') ∧ controlByName b = b ∧
        (e.encode b.toNat).toOption.any (· == [b]) := by decide +kernel
  refine hall e ?_ b (of_decide_eq_true h)
  cases e with
  | ascii | utf8 => simp
  | eucJp | sjis => cases he

theorem width_of_isSpecial (he : e.isLeadDistinguishable) (b : UInt8) (h : isSpecial b) : e.width b = 1 :=
  (spec_of_isSpecial he h).1

theorem not_isSpecial_of_isTrail (he : e.isLeadDistinguishable) (b : UInt8) (ht : e.isTrail b) : ¬isSpecial b :=
  fun h => by simp [(spec_of_isSpecial he h).2.1] at ht

theorem escape_special (he : e.isLeadDistinguishable) (h : isSpecial b) (groups : Nat) :
    escape e groups (b :: rest) = .ok (.str [b], rest) := by
  obtain ⟨-, -, ⟨hletter, hx, hzero, hdigit⟩, ⟨hM, hC, hc⟩, hname, hcode⟩ := spec_of_isSpecial he h
  have hwidth : ¬1 < e.width b := Nat.not_lt.2 (Nat.le_of_eq (width_of_isSpecial he b h))
  obtain ⟨bytes, hcode, hbytes⟩ := exists_ok hcode
  obtain rfl := eq_of_beq hbytes
  have hvalue : escapedValue e (b :: rest) = .ok (.code b, rest) := by
    unfold escapedValue
    simp only [hM, hC, hc, hwidth, hname, if_false]
  unfold escape
  simp only [Option.isNone_iff_eq_none.1 hletter, hx, hzero, hdigit, hvalue, hcode, if_false, Option.isSome_none,
    Bool.false_eq_true]

/-! ## 読み取りの一歩 -/

theorem skipTrivia_of_ne (h : latin1 b ≠ '(') : skipTrivia false (b :: rest) = .ok (b :: rest) := by
  unfold skipTrivia
  simp only [Bool.false_and, Bool.false_eq_true, if_false, h, false_and]
  split <;> rfl

theorem repetition_of_not_special (h : ¬isSpecial b) : repetition (b :: rest) = .ok none := by
  obtain ⟨-, ⟨hstar, hplus, hquestion, hbrace⟩, -⟩ := latin1_of_not_special _ h
  unfold repetition
  split
  · rfl
  · rename_i b' rest' heq
    cases heq
    split <;> first | contradiction | rfl

/-- 逆斜線を付けたパターンは、注釈でも繰り返しでも始まらない。 -/
theorem starts_quote (w : List UInt8) :
    skipTrivia false (quote w) = .ok (quote w) ∧ repetition (quote w) = .ok none := by
  cases w with
  | nil => exact ⟨by simp [quote, skipTrivia], rfl⟩
  | cons b w =>
    by_cases h : isSpecial b
    · have hq : quote (b :: w) = 0x5c :: b :: quote w := by simp [quote, h]
      rw [hq]
      exact ⟨skipTrivia_of_ne (by decide), rfl⟩
    · have hq : quote (b :: w) = b :: quote w := by simp [quote, h]
      rw [hq]
      exact ⟨skipTrivia_of_ne (latin1_of_not_special _ h).1.2.2, repetition_of_not_special h⟩

theorem quote_char (he : e.isLeadDistinguishable) (hw : e.isWellFormed (b :: w)) :
    quote (b :: w) = (if isSpecial b then [0x5c, b] else (e.takeChar b w).1) ++ quote (e.takeChar b w).2 ∧
      (isSpecial b → (e.takeChar b w).1 = [b]) := by
  obtain ⟨hlen, htrail, -, -⟩ := Encoding.isWellFormed_cons hw
  by_cases h : isSpecial b
  · simp [quote, h, Encoding.takeChar, width_of_isSpecial he b h]
  · have hplain := quote_of_not_special fun c hc => not_isSpecial_of_isTrail he c (htrail c hc)
    have hsplit : quote w = quote (w.take (e.width b - 1)) ++ quote (w.drop (e.width b - 1)) := by
      rw [← quote_append, List.take_append_drop]
    rw [hplain] at hsplit
    have hcons : quote (b :: w) = b :: quote w := by simp [quote, h]
    rw [hcons, hsplit]
    simp [h, Encoding.takeChar]

/-- 演算子でないバイトからは、一つの要素を読む。 -/
theorem advance_atom {r : Reading} {c : UInt8} {node : Node} {ws : List Warning} {after : List UInt8}
    (hc : latin1 c ≠ '|' ∧ latin1 c ≠ ')' ∧ latin1 c ≠ '(') (hrepeat : repetition (c :: rest) = .ok none)
    (hnode : ∀ n, node ≠ .backref n) (hatom : atom e r.groups c rest = .ok (node, ws, after)) :
    r.advance e c rest = Reading.attach { r with warnings := r.warnings ++ ws } node after := by
  obtain ⟨hbar, hclose, hopen⟩ := hc
  unfold Reading.advance
  rw [if_neg hbar, if_neg hclose, hrepeat]
  simp only [if_neg hopen]
  unfold Reading.readAtom
  rw [hatom]
  cases node with
  | backref n => exact absurd rfl (hnode n)
  | _ => rfl

/-- 続きが繰り返しでなければ、要素はそのまま加わる。 -/
theorem attach_of_repetition {r : Reading} (hextended : r.extended = false) (node : Node)
    (hskip : skipTrivia false rest = .ok rest) (hrepeat : repetition rest = .ok none) :
    r.attach node rest = .ok (r.push node rest) := by
  unfold Reading.attach
  rw [hextended, hskip]
  simp only [hrepeat]

theorem advance_str {r : Reading} {c : UInt8} {bytes after : List UInt8}
    (hc : latin1 c ≠ '|' ∧ latin1 c ≠ ')' ∧ latin1 c ≠ '(') (hrepeat : repetition (c :: rest) = .ok none)
    (hatom : atom e r.groups c rest = .ok (.str bytes, [], after)) (hextended : r.extended = false)
    (hskip : skipTrivia false after = .ok after) (hafter : repetition after = .ok none) :
    r.advance e c rest = .ok (r.push (.str bytes) after) := by
  have hnode : ∀ n, Node.str bytes ≠ .backref n := by simp
  rw [advance_atom hc hrepeat hnode hatom, List.append_nil]
  exact attach_of_repetition hextended _ hskip hafter

theorem advance_char {r : Reading} (hb : ¬isSpecial b) (hlen : trail.length = e.width b - 1)
    (hextended : r.extended = false) (hskip : skipTrivia false rest = .ok rest) (hrepeat : repetition rest = .ok none) :
    r.advance e b (trail ++ rest) = .ok (r.push (.str (b :: trail)) rest) := by
  obtain ⟨hoperator, -, hbracket, hdot, hcaret, hdollar, hbackslash⟩ := latin1_of_not_special _ hb
  refine advance_str hoperator (repetition_of_not_special hb) ?_ hextended hskip hrepeat
  unfold atom
  rw [if_neg hbracket, if_neg hdot, if_neg hcaret, if_neg hdollar, if_neg hbackslash]
  simp [Encoding.takeChar, ← hlen]

/-- 逆斜線を付けた一文字を読むと、その文字の節が一つ増える。 -/
theorem advance_quote (he : e.isLeadDistinguishable) (hw : e.isWellFormed (b :: w)) {r : Reading}
    (hextended : r.extended = false) (hrest : r.rest = quote (b :: w)) :
    ∃ c rest, skipTrivia r.extended r.rest = .ok (c :: rest) ∧
      r.advance e c rest = .ok (r.push (.str (e.takeChar b w).1) (quote (e.takeChar b w).2)) := by
  obtain ⟨hquote, hone⟩ := quote_char he hw
  obtain ⟨hskip, hrepeat⟩ := starts_quote (e.takeChar b w).2
  rw [hextended, hrest, (starts_quote _).1, hquote]
  by_cases h : isSpecial b
  · rw [if_pos h]
    refine ⟨0x5c, b :: quote (e.takeChar b w).2, rfl, advance_str (by decide) rfl ?_ hextended hskip hrepeat⟩
    unfold atom
    rw [if_neg (by decide), if_neg (by decide), if_neg (by decide), if_neg (by decide), if_pos (by decide),
      escape_special he h, hone h]
  · have hlen : (w.take (e.width b - 1)).length = e.width b - 1 := by
      have := (Encoding.isWellFormed_cons hw).1
      rw [List.length_take]
      omega
    rw [if_neg h]
    exact ⟨b, w.take (e.width b - 1) ++ quote (e.takeChar b w).2, rfl, advance_char h hlen hextended hskip hrepeat⟩

/-! ## 読み取りの全体 -/

theorem readAll_finish {r : Reading} (h : skipTrivia r.extended r.rest = .ok []) : readAll e r = r.finish := by
  rw [readAll_eq, h]
  rfl

theorem readAll_advance {r r' : Reading} {c : UInt8} (hs : skipTrivia r.extended r.rest = .ok (c :: rest))
    (ha : r.advance e c rest = .ok r') : readAll e r = readAll e r' := by
  rw [readAll_eq, hs]
  simp only [Except.bind, Reading.proceed, ha]

theorem readAll_quote (he : e.isLeadDistinguishable) (hw : e.isWellFormed w) {r : Reading}
    (hextended : r.extended = false) (hrest : r.rest = quote w) :
    readAll e r = Reading.finish { r with
      rest := [], level := { r.level with items := ((e.chars w).map Node.str).reverse ++ r.level.items } } := by
  induction hn : w.length using Nat.strongRecOn generalizing w r with
  | ind n ih =>
    cases w with
    | nil =>
      rw [readAll_finish (by rw [hrest, hextended]; exact (starts_quote []).1), Encoding.chars]
      rfl
    | cons b w =>
      obtain ⟨c, rest, hs, ha⟩ := advance_quote he hw hextended hrest
      have hshort := (List.drop_suffix (e.width b - 1) w).length_le
      have hrec := ih (e.takeChar b w).2.length (by simp only [Encoding.takeChar, List.length_cons] at hn ⊢; omega)
        (w := (e.takeChar b w).2) (Encoding.isWellFormed_cons hw).2.2.2
        (r := r.push (.str (e.takeChar b w).1) (quote (e.takeChar b w).2)) hextended rfl rfl
      rw [readAll_advance hs ha, hrec]
      simp [Encoding.chars, Reading.push, Level.push]

end Pattern

namespace Node

/-- 文字列の節。空なら、何もない節である。 -/
def literal : List UInt8 → Node
  | [] => .empty
  | b :: bytes => .str (b :: bytes)

theorem joinLiterals_str (bytes : List UInt8) (cs : List (List UInt8)) :
    joinLiterals (.str bytes :: cs.map .str) = [.str (bytes ++ cs.flatten)] := by
  induction cs generalizing bytes with
  | nil => simp [joinLiterals]
  | cons c cs ih => simp [joinLiterals, ih]

theorem spliceLists_str (cs : List (List UInt8)) : spliceLists (cs.map .str) = cs.map .str := by
  induction cs with
  | nil => rfl
  | cons c cs ih => simpa [spliceLists] using ih

theorem seq_chars (e : Encoding) (w : List UInt8) :
    seq (joinLiterals (spliceLists ((e.chars w).map .str))) = literal w := by
  rw [spliceLists_str]
  cases w with
  | nil => simp [Encoding.chars, joinLiterals, seq, literal]
  | cons b w =>
    have hflat := Encoding.flatten_chars e (b :: w)
    rw [Encoding.chars] at hflat ⊢
    rw [List.map_cons, joinLiterals_str, ← List.flatten_cons, hflat]
    rfl

end Node

namespace Pattern

variable {e : Encoding} {w : List UInt8}

/-- 逆斜線を付けたパターンは、元の文字列の節になる。 -/
theorem parse_quote (he : e.isLeadDistinguishable) (hw : e.isWellFormed w) :
    parse e .none (quote w) = .ok { root := .literal w, groups := 0, backrefs := [], warnings := [] } := by
  unfold parse
  rw [readAll_quote he hw (r := { rest := quote w, level := { options := .none } })
    Options.none_contains_extend rfl]
  simp [Reading.finish, closeTails, Level.node, Level.branch, Node.choice, Node.seq_chars]

end Pattern

/-! ## 翻訳の全体 -/

/-- 文字列の命令だけのプログラム。 -/
def Program.ofLiteral (e : Encoding) (fold : FoldTable) (w : List UInt8) : Program where
  code := (Literal.code e none w ++ [Instruction.accept]).toArray
  encoding := e
  options := .none
  fold
  groups := 0
  repeats := #[]
  nullChecks := 0

/-- 文字列だけから決まる手順。空でなければ、長さの上限で切った文字列を探す。 -/
def Plan.ofLiteral (e : Encoding) (w : List UInt8) : Plan where
  length := .fixed w.length
  threshold := w.length
  finder := if w = [] then .nothing else Plan.finderOf e (Key.clip ⟨.zero, w, false, true⟩ e maxKeyLength)

namespace Node

variable {w : List UInt8}

theorem prepare_literal (env : PrepareEnv) (w : List UInt8) : (literal w).prepare env .none = .ok (literal w) := by
  unfold prepare
  rw [Options.none_contains_ignoreCase]
  cases w <;> rfl

theorem compile_literal (env : CodeEnv) (w : List UInt8) :
    env.compile .none 0 (literal w) = .ok (.ofLiteral env.encoding (env.fold.getD .ascii) w) := by
  have hfold := env.foldFor_none
  have hsize : env.size .none (literal w) = .ok (Literal.code env.encoding none w).length := by
    cases w with
    | nil => simp [literal, CodeEnv.size, Literal.code, Encoding.chars, Literal.runs]; rfl
    | cons b w =>
      simp only [literal, CodeEnv.size, hfold]
      rfl
  have hemit : env.emit .none (literal w) {} = .ok (Literal.code env.encoding none w, {}) := by
    cases w with
    | nil => simp [literal, CodeEnv.emit, Literal.code, Encoding.chars, Literal.runs]
    | cons b w =>
      simp only [literal, CodeEnv.emit, hfold]
      rfl
  unfold CodeEnv.compile
  rw [hsize, hemit]
  simp only [bind, Except.bind, ne_eq, not_true_eq_false, if_false]
  rfl

/-- 始まりから離れない文字列は、始まるバイトより先に使う。 -/
theorem prefersFirst_of_zero {k : Key} (h : k.distance = .zero) (set : ByteSet) :
    Hints.prefersFirst k set = false := by
  have hwidth : Interval.zero.width? = some 0 := rfl
  simp [Hints.prefersFirst, h, hwidth]

theorem plan_literal (e : Encoding) (fold : Option FoldTable) (w : List UInt8) :
    Plan.ofHints e (Hints.ofTree e fold .none (literal w)) = .ofLiteral e w := by
  cases w with
  | nil => rfl
  | cons b w =>
    have hdistance := Key.clip_distance ⟨.zero, b :: w, false, true⟩ e maxKeyLength
    unfold Plan.ofLiteral
    rw [if_neg (List.cons_ne_nil b w)]
    generalize hkey : Key.clip ⟨.zero, b :: w, false, true⟩ e maxKeyLength = key at hdistance
    have hfacts : Facts.ofNode e fold .none (literal (b :: w)) =
        { length := .fixed (b :: w).length, leading := some key, best := some key, trailing := some key,
          first := some (.singleton b) } := by
      rw [← hkey]
      rfl
    unfold Hints.ofTree
    rw [hfacts]
    dsimp only
    generalize (some (ByteSet.singleton b)).filter (·.count < 256) = first
    cases first with
    | none => simp [Plan.ofHints, hdistance, Interval.fixed]
    | some set => simp [Plan.ofHints, prefersFirst_of_zero hdistance, hdistance, Interval.fixed]

end Node

/-- 文字列だけの正規表現。 -/
def Regex.ofLiteral (e : Encoding) (fold : FoldTable) (w : List UInt8) : Regex where
  program := .ofLiteral e fold w
  plan := .ofLiteral e w

/-- 逆斜線を付けたパターンの翻訳は成功し、文字列だけの正規表現になる。 -/
theorem Regex.compile_quote {e : Encoding} {w : List UInt8} (he : e.isLeadDistinguishable) (hw : e.isWellFormed w)
    (fold : Option FoldTable) : Regex.compile { pattern := Pattern.quote w, encoding := e, fold } =
      .ok (.ofLiteral e (fold.getD .ascii) w) := by
  unfold Regex.compile
  simp only [bind, Except.bind, Except.mapError_ok, Pattern.parse_quote he hw, Node.prepare_literal,
    Node.compile_literal, Node.plan_literal]
  rfl

end MultibyteRegex

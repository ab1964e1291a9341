import MultibyteRegex.Proofs.Escaping
import MultibyteRegex.Proofs.Merging

/-!
# 角括弧の式

符号位置を `\x` と波括弧で書いた値と区間の角括弧の式は、そのどれかに入る符号位置の文字に合う。区間の重なり方や、
一バイトと多バイトの境をまたぐことにはよらない。
-/

namespace MultibyteRegex

namespace Pattern

variable {e : Encoding} {code n : Nat} {b : UInt8} {ds rest u w : Input}

/-! ## 符号位置の書き方 -/

/-- 十六進の数字の並びが、`n` に続けて表す数。 -/
def hexValue (n : Nat) (ds : Input) : Option Nat := ds.foldlM (fun n d => (digit? 16 d).map (n * 16 + ·)) n

/-- 8 桁までの十六進で書いた符号位置。 -/
def WritesCode (code : Nat) (u : Input) : Prop :=
  ∃ ds, ds ≠ [] ∧ ds.length ≤ 8 ∧ hexValue 0 ds = some code ∧ u = 0x5c :: 0x78 :: 0x7b :: (ds ++ [0x7d])

/-- 一つの区間の書き方。両端が等しければ、一つの値でもよい。 -/
inductive WritesRange (r : CodeRange) : Input → Prop
  | value {u : Input} (heq : r.lo = r.hi) (hu : WritesCode r.lo u) : WritesRange r u
  | range {u v : Input} (hu : WritesCode r.lo u) (hv : WritesCode r.hi v) : WritesRange r (u ++ 0x2d :: v)

/-- 区間を順に並べた角括弧の式。 -/
inductive WritesBracket (negated : Bool) (rs : List CodeRange) : Input → Prop
  | mk {items : List Input} (h : List.Forall₂ WritesRange rs items) :
      WritesBracket negated rs (0x5b :: ((if negated then [0x5e] else []) ++ (items.flatten ++ [0x5d])))

theorem WritesCode.starts (h : WritesCode code u) : ∃ tail, u = 0x5c :: tail := by
  obtain ⟨ds, -, -, -, rfl⟩ := h
  exact ⟨_, rfl⟩

theorem WritesRange.starts {r : CodeRange} (h : WritesRange r u) : ∃ tail, u = 0x5c :: tail := by
  cases h with
  | value _ hu => exact hu.starts
  | range hu _ =>
    obtain ⟨tail, rfl⟩ := hu.starts
    exact ⟨_, rfl⟩

theorem digits_hexValue {limit : Nat} (hlimit : ds.length ≤ limit) (h : hexValue n ds = some code) :
    digits 16 limit n (ds ++ 0x7d :: rest) = (code, 0x7d :: rest) := by
  induction ds generalizing limit n with
  | nil =>
    obtain rfl : n = code := by simpa [hexValue] using h
    cases limit <;> rfl
  | cons d ds ih =>
    obtain ⟨limit, rfl⟩ := Nat.exists_eq_succ_of_ne_zero (Nat.ne_of_gt (Nat.lt_of_lt_of_le (Nat.succ_pos _) hlimit))
    cases hd : digit? 16 d with
    | none => simp [hexValue, hd] at h
    | some k =>
      have hrest : hexValue (n * 16 + k) ds = some code := by simpa [hexValue, hd] using h
      simpa [digits, hd] using ih (Nat.le_of_succ_le_succ hlimit) hrest

theorem wideHex_hexValue (hne : ds ≠ []) (hlimit : ds.length ≤ 8) (h : hexValue 0 ds = some code) :
    wideHex (ds ++ 0x7d :: rest) = .ok (code, rest) := by
  have hlength : ¬((0x7d :: rest).length = (ds ++ 0x7d :: rest).length ∨ latin1 0x7d ≠ '\x7d') := by
    have := List.length_pos_iff.2 hne
    simp only [List.length_append]
    rw [not_or]
    exact ⟨by omega, not_not.2 (by decide)⟩
  unfold wideHex
  simp only [digits_hexValue hlimit h]
  rw [if_neg (by decide), if_neg hlength]

/-! ## 一つの項目 -/

/-- 書いた符号位置は、一つの値として読む。 -/
theorem classItem_code (h : WritesCode code u) (rest : Input) :
    ∃ tail, u = 0x5c :: tail ∧ classItem e 0x5c (tail ++ rest) = .ok (.value (.wide code), [], rest) := by
  obtain ⟨ds, hne, hlimit, hvalue, rfl⟩ := h
  refine ⟨_, rfl, ?_⟩
  have hopen : latin1 0x5c ≠ '[' := by decide
  have hstarts : startsWith "\x7b" (0x7b :: (ds ++ 0x7d :: rest)) := by simp [startsWith, ascii]
  have hletter : kindByLetter? 0x78 = none := by decide
  unfold classItem
  rw [if_neg fun h => hopen h.1, if_pos (by decide)]
  simp only [List.cons_append, List.append_assoc, List.nil_append]
  unfold escapedItem
  simp only [hletter]
  rw [if_pos (by decide), if_pos hstarts, List.tail_cons, wideHex_hexValue hne hlimit hvalue]

theorem classItems_item {d d' : ClassDraft} {item : ClassItem} {ws : List Warning} (hclose : latin1 b ≠ ']')
    (hdash : latin1 b ≠ '-') (hitem : classItem e b w = .ok (item, ws, rest)) (hadd : d.addItem e item = .ok d') :
    classItems e d (b :: w) = classItems e { d' with warnings := d'.warnings ++ ws } rest := by
  rw [classItems, if_neg hclose, if_neg fun h => hdash h.1]
  split <;> rename_i h <;> rw [hitem] at h <;> cases h
  rw [hadd]

theorem classItems_dash {d d' : ClassDraft} (hrange : d.isRange = false) (hadd : d.addDash rest = .ok d') :
    classItems e d (0x2d :: rest) = classItems e d' rest := by
  rw [classItems, if_neg (by decide), if_pos ⟨by decide, by simp [hrange]⟩, hadd]

theorem classItems_close {d : ClassDraft} : classItems e d (0x5d :: rest) = .ok (d, rest) := by
  rw [classItems, if_pos (by decide)]

theorem classItems_code {d d' : ClassDraft} (h : WritesCode code u)
    (hadd : d.addItem e (.value (.wide code)) = .ok d') : classItems e d (u ++ rest) = classItems e d' rest := by
  obtain ⟨tail, rfl, hitem⟩ := classItem_code (e := e) h rest
  rw [List.cons_append, classItems_item (by decide) (by decide) hitem hadd, List.append_nil]

theorem encodeLead_of_le (h : code ≤ e.maxCode) : ∃ b, e.encodeLead code = .ok b := by
  have hencode : ∃ b bytes, e.encode code = .ok (b :: bytes) := by
    unfold Encoding.encode
    rw [if_neg (Nat.not_lt.2 h)]
    split
    · cases e.codeLength code - 1 <;> exact ⟨_, _, rfl⟩
    · have hpos : e.codeLength code ≠ 0 := by
        cases e <;> simp only [Encoding.codeLength] <;> repeat' split
        all_goals decide
      obtain ⟨k, hk⟩ := Nat.exists_eq_succ_of_ne_zero hpos
      rw [hk]
      exact ⟨_, _, rfl⟩
  obtain ⟨b, bytes, hencode⟩ := hencode
  exact ⟨b, by simp [Encoding.encodeLead, hencode]⟩

namespace ClassDraft

variable {d : ClassDraft}

theorem addItem_wide (hrange : d.isRange = false) (h : code ≤ e.maxCode) : d.addItem e (.value (.wide code)) =
    .ok { d with cls := d.cls.addRange e code code, pending := .value (some (.wide code)) } := by
  obtain ⟨b, hb⟩ := encodeLead_of_le h
  have hadd : d.addItem e (.value (.wide code)) = d.addValue e (.wide code) := by
    unfold addItem
    cases hp : d.pending with
    | range v => simp [isRange, hp] at hrange
    | _ => rfl
  rw [hadd]
  simp [addValue, ClassValue.code, hb, CharClass.addCode]

theorem addItem_range {lo : Nat} (hpending : d.pending = .range (.wide lo)) (hle : lo ≤ code) (h : code ≤ e.maxCode) :
    d.addItem e (.value (.wide code)) = .ok { d with cls := d.cls.addRange e lo code, pending := .fresh } := by
  obtain ⟨b, hb⟩ := encodeLead_of_le h
  have hlt : ¬code < lo := Nat.not_lt.2 hle
  simp [addItem, hpending, addRange, ClassValue.code, hb, hlt]

/-- 読みかけの集まりは、`p` の表す符号位置を持つ。 -/
structure Denotes (e : Encoding) (negated : Bool) (p : Nat → Bool) (d : ClassDraft) : Prop where
  negated_eq : d.cls.negated = negated
  spaced : CodeRange.Spaced d.cls.ranges
  holds : ∀ code ≤ e.maxCode, d.cls.holds e code = p code
  covers : ∀ code, CodeRange.covers d.cls.ranges code = (!e.isSingleByte && 0x80 ≤ code && p code)
  isRange_eq : d.isRange = false

variable {negated : Bool} {p : Nat → Bool}

theorem Denotes.addRange (h : d.Denotes e negated p) (lo hi : Nat) (pending : Pending)
    (hpending : ∀ v, pending ≠ .range v) : Denotes e negated (fun code => p code || CodeRange.contains ⟨lo, hi⟩ code)
      { d with cls := d.cls.addRange e lo hi, pending } where
  negated_eq := by rw [CharClass.negated_addRange, h.negated_eq]
  spaced := CharClass.spaced_addRange h.spaced lo hi
  holds code hcode := by rw [CharClass.holds_addRange h.spaced hcode, h.holds code hcode, CodeRange.contains]
  covers code := by
    rw [CharClass.covers_addRange h.spaced, h.covers, CodeRange.contains]
    cases e.isSingleByte <;> simp [Bool.and_or_distrib_left, Bool.or_comm]
  isRange_eq := by
    cases pending with
    | range v => exact absurd rfl (hpending v)
    | _ => rfl

end ClassDraft

/-! ## 項目の並び -/

variable {d : ClassDraft} {negated : Bool} {p : Nat → Bool} {r : CodeRange} {rs : List CodeRange}

/-- 一つの区間を読むと、その符号位置だけが加わる。 -/
theorem classItems_range (hle : r.lo ≤ r.hi) (hmax : r.hi ≤ e.maxCode) (hu : WritesRange r u)
    (h : d.Denotes e negated p) (rest : Input) :
    ∃ d' : ClassDraft, d'.Denotes e negated (fun code => p code || r.contains code) ∧
      classItems e d (u ++ rest) = classItems e d' rest := by
  obtain ⟨lo, hi⟩ := r
  dsimp only at hle hmax
  have hlo := h.addRange lo lo (.value (some (.wide lo))) (by simp)
  have haddLo := ClassDraft.addItem_wide h.isRange_eq (Nat.le_trans hle hmax)
  cases hu with
  | value heq hu =>
    obtain rfl : lo = hi := heq
    exact ⟨_, hlo, classItems_code hu haddLo⟩
  | @range u v hu hv =>
    have hhi := hlo.addRange lo hi .fresh (by simp)
    -- 左端の値は先に一つの値として加わるが、区間に含まれる。
    have hp : (fun code => (p code || CodeRange.contains ⟨lo, lo⟩ code) || CodeRange.contains ⟨lo, hi⟩ code) =
        fun code => p code || CodeRange.contains ⟨lo, hi⟩ code := by
      funext code
      have himp : CodeRange.contains ⟨lo, lo⟩ code → CodeRange.contains ⟨lo, hi⟩ code := by
        simp only [CodeRange.contains_iff]
        omega
      cases h₁ : CodeRange.contains ⟨lo, lo⟩ code with
      | false => simp
      | true => simp [himp h₁]
    rw [hp] at hhi
    obtain ⟨tail, rfl⟩ := hv.starts
    have hdash : ∀ d₁ : ClassDraft, d₁.pending = .value (some (.wide lo)) →
        d₁.addDash (0x5c :: tail ++ rest) = .ok { d₁ with pending := .range (.wide lo) } := by
      intro d₁ hd₁
      have hstarts : startsWith "]" (0x5c :: (tail ++ rest)) = false := rfl
      simp [ClassDraft.addDash, hd₁, hstarts]
    refine ⟨_, hhi, ?_⟩
    rw [List.append_assoc, List.cons_append, classItems_code hu haddLo, classItems_dash hlo.isRange_eq (hdash _ rfl),
      classItems_code hv (ClassDraft.addItem_range rfl hle hmax)]

theorem classItems_ranges {items : List Input} (hle : ∀ r ∈ rs, r.lo ≤ r.hi ∧ r.hi ≤ e.maxCode)
    (hitems : List.Forall₂ WritesRange rs items) (h : d.Denotes e negated p) (rest : Input) :
    ∃ d' : ClassDraft, d'.Denotes e negated (fun code => p code || rs.any (·.contains code)) ∧
      classItems e d (items.flatten ++ 0x5d :: rest) = .ok (d', rest) := by
  induction hitems generalizing d p with
  | nil => exact ⟨d, by simpa using h, classItems_close⟩
  | @cons r u rs items hu _ ih =>
    obtain ⟨⟨hr, hmax⟩, hrs⟩ := List.forall_mem_cons.1 hle
    obtain ⟨d₁, h₁, hread⟩ := classItems_range hr hmax hu h (items.flatten ++ 0x5d :: rest)
    obtain ⟨d₂, h₂, hrest⟩ := ih hrs h₁
    refine ⟨d₂, by simpa [Bool.or_assoc] using h₂, ?_⟩
    rw [List.flatten_cons, List.append_assoc, hread, hrest]

/-! ## 式の全体 -/

/-- 書いた区間の多バイトの部分は、上限までの個数の区間で表せる。 -/
def FitsClass (e : Encoding) (rs : List CodeRange) : Prop :=
  ∃ qs : List CodeRange, qs.length ≤ maxCodeRanges ∧
    ∀ code, qs.any (·.contains code) = (!e.isSingleByte && 0x80 ≤ code && rs.any (·.contains code))

theorem bracket_ranges {items : List Input} (hne : rs ≠ []) (hle : ∀ r ∈ rs, r.lo ≤ r.hi ∧ r.hi ≤ e.maxCode)
    (hfits : FitsClass e rs) (hitems : List.Forall₂ WritesRange rs items) (negated : Bool) (rest : Input) :
    ∃ c ws, bracket e ((if negated then [0x5e] else []) ++ (items.flatten ++ 0x5d :: rest)) = .ok (c, ws, rest) ∧
      c.negated = negated ∧ ∀ code ≤ e.maxCode, c.holds e code = rs.any (·.contains code) := by
  have hempty : ClassDraft.Denotes e negated (fun _ => false) { cls := { negated } } := by
    refine ⟨rfl, .nil, fun code _ => ?_, fun code => ?_, rfl⟩
    · simp [CharClass.holds, CodeRange.covers]
    · simp [CodeRange.covers]
  obtain ⟨d, hd, hread⟩ := classItems_ranges hle hitems hempty rest
  -- 式は逆斜線で始まるから、否定の印や閉じ括弧と紛れない。
  obtain ⟨tail, htail⟩ : ∃ tail, items.flatten ++ 0x5d :: rest = 0x5c :: tail := by
    cases hitems with
    | nil => exact absurd rfl hne
    | cons hu _ =>
      obtain ⟨tail, rfl⟩ := hu.starts
      exact ⟨_, rfl⟩
  have hcaret : stripCaret ((if negated then [0x5e] else []) ++ (items.flatten ++ 0x5d :: rest)) =
      (negated, items.flatten ++ 0x5d :: rest) := by
    rw [htail]
    cases negated <;> rfl
  have hopen : ∀ d : ClassDraft, openBracket d (items.flatten ++ 0x5d :: rest) =
      .ok (d, items.flatten ++ 0x5d :: rest) := by
    intro d
    rw [htail]
    rfl
  have hlength : ¬maxCodeRanges < d.cls.ranges.length := by
    obtain ⟨qs, hqs, hcover⟩ := hfits
    refine Nat.not_lt.2 (Nat.le_trans (hd.spaced.length_le fun code => ?_) hqs)
    rw [← hd.spaced.covers_eq, hd.covers, hcover, Bool.false_or]
  refine ⟨d.cls, d.warnings, ?_, hd.negated_eq, fun code hcode => by simpa using hd.holds code hcode⟩
  unfold bracket
  rw [hcaret]
  simp only [hopen, hread, if_neg hlength]

/-- 最後の要素を読むと、終わる。 -/
theorem readAll_atom {r : Reading} {c : UInt8} {node : Node} {ws : List Warning} (hextended : r.extended = false)
    (hrest : r.rest = c :: rest) (hc : latin1 c ≠ '|' ∧ latin1 c ≠ ')' ∧ latin1 c ≠ '(')
    (hrepeat : repetition (c :: rest) = .ok none) (hnode : ∀ n, node ≠ .backref n)
    (hatom : atom e r.groups c rest = .ok (node, ws, [])) :
    readAll e r = Reading.finish (Reading.push { r with warnings := r.warnings ++ ws } node []) := by
  have hskip : skipTrivia r.extended r.rest = .ok (c :: rest) := by
    rw [hextended, hrest]
    exact skipTrivia_of_ne hc.2.2
  have hnil : skipTrivia false [] = .ok [] := by rw [skipTrivia]
  have hadvance := advance_atom hc hrepeat hnode hatom
  have hextended' : Reading.extended { r with warnings := r.warnings ++ ws } = false := hextended
  rw [attach_of_repetition hextended' node hnil rfl] at hadvance
  rw [readAll_advance hskip hadvance]
  exact readAll_finish (hextended ▸ hnil)

/-- 一つの要素だけのパターンは、その要素の木になる。 -/
theorem parse_atom {c : UInt8} {node : Node} {ws : List Warning} (hc : latin1 c ≠ '|' ∧ latin1 c ≠ ')' ∧ latin1 c ≠ '(')
    (hrepeat : repetition (c :: rest) = .ok none) (hnode : ∀ n, node ≠ .backref n) (hlist : ∀ ns, node ≠ .list ns)
    (hatom : atom e 0 c rest = .ok (node, ws, [])) :
    parse e .none (c :: rest) = .ok { root := node, groups := 0, backrefs := [], warnings := ws } := by
  have hsplice : Node.spliceLists [node] = [node] := by
    cases node with
    | list ns => exact absurd rfl (hlist ns)
    | _ => rfl
  unfold parse
  rw [readAll_atom (r := { rest := c :: rest, level := { options := .none } })
    Options.none_contains_extend rfl hc hrepeat hnode hatom]
  simp [Reading.finish, Reading.push, Level.push, closeTails, Level.node, Level.branch, hsplice, Node.joinLiterals,
    Node.seq, Node.choice]

theorem parse_ranges {w : Input} (hne : rs ≠ []) (hle : ∀ r ∈ rs, r.lo ≤ r.hi ∧ r.hi ≤ e.maxCode)
    (hfits : FitsClass e rs) (hw : WritesBracket negated rs w) :
    ∃ c ws, parse e .none w = .ok { root := .cclass c, groups := 0, backrefs := [], warnings := ws } ∧
      c.negated = negated ∧ ∀ code ≤ e.maxCode, c.holds e code = rs.any (·.contains code) := by
  obtain ⟨hitems⟩ := hw
  obtain ⟨c, ws, hbracket, hc⟩ := bracket_ranges hne hle hfits hitems negated []
  refine ⟨c, ws, parse_atom (by decide) rfl (by simp) (by simp) ?_, hc⟩
  unfold atom
  rw [if_pos (by decide), hbracket]

end Pattern

/-! ## 照合 -/

namespace Regex

variable {s : Source} {re : Regex} {c : CharClass}

/-- 文字の集まりだけの木は、そのまま一つの命令になる。 -/
theorem compile_cclass (hoptions : s.options = .none) {ws : List Pattern.Warning}
    (hparse : Pattern.parse s.encoding .none s.pattern =
      .ok { root := .cclass c, groups := 0, backrefs := [], warnings := ws }) :
    s.tree? = some (.cclass c) ∧ ∃ re, Regex.compile s = .ok re := by
  have hprepare : (Node.cclass c).prepare ⟨s.encoding, s.fold, []⟩ .none = .ok (.cclass c) := by
    unfold Node.prepare
    rw [Options.none_contains_ignoreCase]
    rfl
  obtain ⟨p, hcompile⟩ : ∃ p, s.env.compile .none 0 (.cclass c) = .ok p := ⟨_, rfl⟩
  constructor
  · simp [Source.tree?, hoptions, hparse, hprepare, Except.toOption]
  · rw [Source.env] at hcompile
    unfold Regex.compile
    simp only [hoptions, hparse, hprepare, hcompile, bind, Except.bind, Except.mapError_ok]
    exact ⟨_, rfl⟩

theorem matchAt_cclass (h : Regex.compile s = .ok re) (hoptions : s.options = .none)
    (htree : s.tree? = some (.cclass c)) {text : Text} (start : Nat) {origin : Nat} (ho : origin ≤ text.size) :
    ∃ v, (re.matcher .unlimited .none text start).Returns origin v ∧
      v.length = c.matchAt s.encoding text origin := by
  refine returns_of_explore h hoptions htree rfl ho fun F groups fuel hF => ?_
  simp only [Node.explore, Node.leafEnd?, Setting.classEnd?_eq, Options.none_contains_ignoreCase, Bool.false_eq_true,
    if_false]
  cases c.matchAt s.encoding text origin with
  | none => exact ⟨none, rfl, rfl⟩
  | some k =>
    obtain ⟨caps, hcaps⟩ := hF ⟨origin + k, .fresh groups⟩ .last none (Nat.le_add_right ..)
    exact ⟨_, hcaps, by simp⟩

/-- 区間を並べた角括弧の式は受け入れられ、本文のどの位置でも、符号位置がどれかの区間に入る一文字に合う。否定した
式は、他の一文字に合う。本文の外から始めれば、誤りになる。 -/
theorem matchAt_bracket (e : Encoding) (fold : Option FoldTable) {rs : List CodeRange} {negated : Bool}
    {pattern : List UInt8} (hne : rs ≠ []) (hle : ∀ r ∈ rs, r.lo ≤ r.hi ∧ r.hi ≤ e.maxCode)
    (hfits : Pattern.FitsClass e rs) (hpattern : Pattern.WritesBracket negated rs pattern) :
    ∃ re, Regex.compile { pattern, encoding := e, fold } = .ok re ∧
      ∀ (text : Text) (start pos : Nat),
        (text.size < pos → ∀ fuel,
          (re.matcher .unlimited .none text start).matchAt fuel pos = some (.error .invalidArgument)) ∧
        (pos ≤ text.size → ∃ v, (re.matcher .unlimited .none text start).Returns pos v ∧
          v.length = if pos < text.size ∧ (rs.any (·.contains (e.codeAt text pos)) != negated) then
            some (e.lengthAt text pos) else none) := by
  obtain ⟨c, ws, hparse, hnegated, hholds⟩ := Pattern.parse_ranges hne hle hfits hpattern
  obtain ⟨htree, re, hcompile⟩ := compile_cclass (s := { pattern, encoding := e, fold }) rfl hparse
  refine ⟨re, hcompile, fun text start pos => ⟨fun hout _ => if_pos hout, fun hpos => ?_⟩⟩
  obtain ⟨v, hv, hlength⟩ := matchAt_cclass hcompile rfl htree start hpos
  refine ⟨v, hv, ?_⟩
  have hcontains : c.contains e (e.codeAt text pos) = (rs.any (·.contains (e.codeAt text pos)) != negated) := by
    rw [CharClass.contains_eq_holds, hnegated, hholds]
    exact e.decode_le_maxCode _
  rw [hlength]
  simp only [CharClass.matchAt, hcontains, Encoding.lengthAt_ne_zero_iff]

/-- 一バイトと多バイトの境をまたぐ区間と、それに含まれる値を否定した例。 -/
theorem matchAt_bracket_straddling : let rs : List CodeRange := [⟨0x41, 0x5a⟩, ⟨0x50, 0x3042⟩, ⟨0x3041, 0x3041⟩]
    let pattern := Pattern.ascii "[^\\x\x7b41\x7d-\\x\x7b5A\x7d\\x\x7b050\x7d-\\x\x7b3042\x7d\\x\x7b3041\x7d]"
    rs ≠ [] ∧ (∀ r ∈ rs, r.lo ≤ r.hi ∧ r.hi ≤ Encoding.utf8.maxCode) ∧ Pattern.FitsClass .utf8 rs ∧
      Pattern.WritesBracket true rs pattern ∧
      ∃ re, Regex.compile { pattern, encoding := .utf8, fold := none } = .ok re ∧
        (∃ v, (re.matcher .unlimited .none #[0x41, 0xe3, 0x81, 0x83] 0).Returns 0 v ∧ v.length = none) ∧
        ∃ v, (re.matcher .unlimited .none #[0x41, 0xe3, 0x81, 0x83] 0).Returns 1 v ∧ v.length = some 3 := by
  intro rs pattern
  have hne : rs ≠ [] := by decide
  have hle : ∀ r ∈ rs, r.lo ≤ r.hi ∧ r.hi ≤ Encoding.utf8.maxCode := by decide
  have hfits : Pattern.FitsClass .utf8 rs := by
    refine ⟨[⟨0x80, 0x3042⟩], by decide, fun code => ?_⟩
    have hwide : (!Encoding.utf8.isSingleByte) = true := rfl
    rw [Bool.eq_iff_iff]
    simp only [rs, List.any_cons, List.any_nil, CodeRange.contains, Bool.or_eq_true, Bool.and_eq_true,
      decide_eq_true_eq, Bool.false_eq_true, or_false, hwide, true_and]
    omega
  have hpattern : Pattern.WritesBracket true rs pattern := by
    have hcode (code : Nat) (ds : String) (h : Pattern.ascii ds ≠ [] ∧ (Pattern.ascii ds).length ≤ 8 ∧
        Pattern.hexValue 0 (Pattern.ascii ds) = some code) : Pattern.WritesCode code _ := ⟨_, h.1, h.2.1, h.2.2, rfl⟩
    have hupper := Pattern.WritesRange.range (r := ⟨0x41, 0x5a⟩) (hcode 0x41 "41" (by decide))
      (hcode 0x5a "5A" (by decide))
    have hwide := Pattern.WritesRange.range (r := ⟨0x50, 0x3042⟩) (hcode 0x50 "050" (by decide))
      (hcode 0x3042 "3042" (by decide))
    have hvalue := Pattern.WritesRange.value (r := ⟨0x3041, 0x3041⟩) rfl (hcode 0x3041 "3041" (by decide))
    exact .mk (.cons hupper (.cons hwide (.cons hvalue .nil)))
  obtain ⟨re, hcompile, hmatch⟩ := matchAt_bracket .utf8 none hne hle hfits hpattern
  exact ⟨hne, hle, hfits, hpattern, re, hcompile, (hmatch _ 0 0).2 (by decide), (hmatch _ 0 1).2 (by decide)⟩

end Regex
end MultibyteRegex

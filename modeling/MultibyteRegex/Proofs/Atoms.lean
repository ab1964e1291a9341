import MultibyteRegex.Proofs.Preorder
import MultibyteRegex.Proofs.Transcoding

/-!
# 読み取った要素の決まり

括弧でない要素は、中に節を持たず、文字列は空でなく、名指す番号は一番からで、文字の集まりの区間は間に抜けのある昇順に
並ぶ。要素に付く繰り返しの回数は、上限を越えない。
-/

namespace MultibyteRegex

theorem Encoding.encode_ne_nil {e : Encoding} {code : Nat} {bytes : List UInt8} (h : e.encode code = .ok bytes) :
    bytes ≠ [] := by
  by_cases hle : code ≤ e.maxCode
  · obtain ⟨lead, trail, hencode, -⟩ := e.encode_decode hle
    cases hencode.symm.trans h
    exact List.cons_ne_nil lead trail
  · rw [encode, if_pos (Nat.lt_of_not_le hle)] at h
    cases h

namespace Pattern

variable {e : Encoding} {b : UInt8} {input rest after : Input} {node : Node} {groups : Nat}

/-! ## 角括弧の式 -/

namespace ClassDraft

variable {d d' : ClassDraft}

/-- 読みかけの角括弧の区間は、間に抜けのある昇順に並ぶ。 -/
def Spaced (d : ClassDraft) : Prop := CodeRange.Spaced d.cls.ranges

theorem Spaced.addBytes (h : d.Spaced) (set : ByteSet) : CodeRange.Spaced (d.cls.addBytes set).ranges := by
  rw [Spaced] at h
  simpa only [CharClass.addBytes] using h

theorem Spaced.addByte (h : d.Spaced) (b : UInt8) : (d.addByte b).Spaced := h.addBytes _

theorem Spaced.addValue {v : ClassValue} (h : d.Spaced) (ha : d.addValue e v = .ok d') : d'.Spaced := by
  unfold ClassDraft.addValue at ha
  split at ha
  · rw [← Except.ok.inj ha]
    exact h.addByte _
  · split at ha
    · rw [← Except.ok.inj ha]
      exact CharClass.spaced_addRange h _ _
    · cases ha

theorem Spaced.addRange {lo hi : ClassValue} (h : d.Spaced) (ha : d.addRange e lo hi = .ok d') : d'.Spaced := by
  unfold ClassDraft.addRange at ha
  split at ha
  · split at ha
    · cases ha
    · rw [← Except.ok.inj ha]
      exact h.addBytes _
  · dsimp only at ha
    repeat' split at ha
    all_goals first
      | rw [← Except.ok.inj ha]; exact CharClass.spaced_addRange h _ _
      | cases ha

theorem Spaced.addItem {item : ClassItem} (h : d.Spaced) (ha : d.addItem e item = .ok d') : d'.Spaced := by
  unfold ClassDraft.addItem at ha
  split at ha
  · exact h.addRange ha
  · cases ha
  · exact h.addValue ha
  · rw [← Except.ok.inj ha]
    exact CharClass.spaced_addKind h _ _

theorem Spaced.addDash (h : d.Spaced) (ha : d.addDash rest = .ok d') : d'.Spaced := by
  unfold ClassDraft.addDash at ha
  split at ha
  · split at ha
    · rw [← Except.ok.inj ha]
      exact h.addByte _
    · split at ha
      · rw [← Except.ok.inj ha]
        exact h
      · cases ha
  · rw [← Except.ok.inj ha]
    exact h.addByte _

end ClassDraft

theorem spaced_openBracket {d d' : ClassDraft} (h : d.Spaced) (ho : openBracket d input = .ok (d', rest)) :
    d'.Spaced := by
  unfold openBracket at ho
  split at ho
  · split at ho
    · rw [← (Prod.mk.inj (Except.ok.inj ho)).1]
      exact h.addByte _
    · cases ho
  · rw [← (Prod.mk.inj (Except.ok.inj ho)).1]
    exact h

theorem spaced_classItems {d d' : ClassDraft} (h : d.Spaced) (hc : classItems e d input = .ok (d', rest)) :
    d'.Spaced := by
  fun_induction classItems e d input with
  | case1 => cases hc
  | case2 =>
    rw [← (Prod.mk.inj (Except.ok.inj hc)).1]
    exact h
  | case3 _ _ _ _ _ _ hdash ih => exact ih (h.addDash hdash) hc
  | case4 => cases hc
  | case5 _ _ _ _ _ _ _ _ _ _ hitem ih =>
    have hnext := h.addItem hitem
    exact ih hnext hc
  | case6 => cases hc
  | case7 => cases hc

theorem spaced_bracket {c : CharClass} {ws : List Warning} (h : bracket e input = .ok (c, ws, rest)) :
    CodeRange.Spaced c.ranges := by
  have hempty : ClassDraft.Spaced { cls := { negated := (stripCaret input).1 } } := CodeRange.Spaced.nil
  unfold bracket at h
  split at h
  · cases h
  · rename_i hopen
    split at h
    · cases h
    · rename_i hitems
      split at h
      · cases h
      · cases h
        exact spaced_classItems (spaced_openBracket hempty hopen) hitems

/-! ## 逆斜線の後 -/

theorem le_digits {base limit acc : Nat} (hbase : 1 ≤ base) (input : Input) :
    acc ≤ (digits base limit acc input).1 := by
  fun_induction digits base limit acc input with
  | case1 => exact Nat.le_refl _
  | case2 => exact Nat.le_refl _
  | case3 limit acc b rest d _ ih =>
    have := Nat.le_mul_of_pos_right acc hbase
    omega
  | case4 => exact Nat.le_refl _

theorem one_le_digit {d : Nat} (hzero : latin1 b ≠ '0') (h : digit? 10 b = some d) : 1 ≤ d := by
  have hne : b.toNat ≠ 0x30 := fun heq => hzero (by rw [UInt8.toNat_inj (b := 0x30) |>.1 heq]; rfl)
  unfold digit? at h
  simp only [Option.ite_none_right_eq_some, Option.some.injEq, UInt8.le_iff_toNat_le, UInt8.reduceToNat] at h
  obtain ⟨-, rfl⟩ := h
  repeat' split
  all_goals omega

/-- 零でない数字から始まる数は、一より小さくない。 -/
theorem one_le_decimal {d : Nat} (hzero : latin1 b ≠ '0') (h : digit? 10 b = some d) (rest : Input) :
    1 ≤ (decimal (b :: rest)).1.getD 0 := by
  have hshort : (decimal (b :: rest)).2.length ≤ rest.length :=
    (decimal_cons_suffix (Option.isSome_iff_exists.2 ⟨d, h⟩)).length_le
  have hle : d ≤ (digits 10 rest.length (0 * 10 + d) rest).1 :=
    Nat.le_trans (by omega) (le_digits (by decide) rest)
  have hd := one_le_digit hzero h
  simp only [decimal, List.length_cons, digits, h] at hshort ⊢
  rw [if_pos (Nat.lt_succ_of_le hshort), Option.getD_some]
  omega

/-- 括弧でない要素。中に節はない。 -/
structure IsLeaf (node : Node) : Prop where
  children : node.children = []
  legal : node.Legal

theorem IsLeaf.label?_eq_none (h : IsLeaf node) (hne : ∀ n, node ≠ .backref n) : node.label? = none := by
  unfold Node.label?
  split
  · cases h.children
  · exact absurd rfl (hne _)
  · rfl

theorem IsLeaf.str {bytes : List UInt8} (h : bytes ≠ []) : IsLeaf (.str bytes) := ⟨rfl, h⟩

theorem IsLeaf.raw (b : UInt8) : IsLeaf (.raw [b]) := ⟨rfl, List.cons_ne_nil b []⟩

theorem IsLeaf.kind (e : Encoding) (k : CharKind) (outside : Bool) :
    IsLeaf (.cclass (CharClass.empty.addKind e k outside)) :=
  ⟨rfl, CharClass.spaced_addKind .nil k outside⟩

theorem isLeaf_letterEscape? (h : letterEscape? e b = some node) : IsLeaf node := by
  unfold letterEscape? at h
  dsimp only at h
  split at h <;> cases h <;> first | exact .kind .. | exact ⟨rfl, trivial⟩

theorem isLeaf_backrefOrOctal (hzero : latin1 b ≠ '0') (hdigit : (digit? 10 b).isSome)
    (h : backrefOrOctal groups b rest = .ok (node, after)) : IsLeaf node := by
  obtain ⟨d, hd⟩ := Option.isSome_iff_exists.1 hdigit
  have hpos := one_le_decimal hzero hd rest
  unfold backrefOrOctal at h
  dsimp only at h
  repeat' split at h
  all_goals cases h
  · exact ⟨rfl, hpos⟩
  · exact .str (List.cons_ne_nil b [])
  · exact .raw _

theorem isLeaf_hexEscape (h : hexEscape e rest = .ok (node, after)) : IsLeaf node := by
  unfold hexEscape at h
  split at h
  · split at h
    · split at h
      · rename_i hcode
        cases h
        exact .str (Encoding.encode_ne_nil hcode)
      · cases h
    · cases h
  · cases h
    exact .raw _

theorem controlValue_ne_char {bytes : List UInt8} : controlValue e input ≠ .ok (.char bytes, after) := by
  intro h
  unfold controlValue at h
  repeat' split at h
  all_goals cases h

theorem ne_nil_of_escapedValue {bytes : List UInt8} (h : escapedValue e input = .ok (.char bytes, after)) :
    bytes ≠ [] := by
  unfold escapedValue at h
  repeat' split at h
  all_goals first
    | cases h; exact List.cons_ne_nil _ _
    | cases h
    | exact absurd h controlValue_ne_char

theorem isLeaf_escape (h : escape e groups input = .ok (node, after)) : IsLeaf node := by
  unfold escape at h
  split at h
  · cases h
  · split at h
    · rename_i hletter
      cases h
      exact isLeaf_letterEscape? hletter
    · split at h
      · exact isLeaf_hexEscape h
      · split at h
        · cases h
          exact .raw _
        · rename_i hzero
          split at h
          · rename_i hdigit
            exact isLeaf_backrefOrOctal hzero hdigit h
          · split at h
            · split at h
              · rename_i hcode
                cases h
                exact .str (Encoding.encode_ne_nil hcode)
              · cases h
            · cases h
              exact .raw _
            · rename_i hvalue
              cases h
              exact .str (ne_nil_of_escapedValue hvalue)
            · cases h

theorem isLeaf_atom {ws : List Warning} (h : atom e groups b rest = .ok (node, ws, after)) : IsLeaf node := by
  unfold atom at h
  split at h
  · split at h
    · rename_i hbracket
      cases h
      exact ⟨rfl, spaced_bracket hbracket⟩
    · cases h
  · split at h
    · cases h
      exact ⟨rfl, trivial⟩
    · split at h
      · cases h
        exact ⟨rfl, trivial⟩
      · split at h
        · cases h
          exact ⟨rfl, trivial⟩
        · split at h
          · split at h
            · rename_i hescape
              cases h
              exact isLeaf_escape hescape
            · cases h
          · cases h
            exact .str (List.cons_ne_nil _ _)

/-! ## 繰り返し -/

theorem bounded_interval {lower : Nat} {upper : Option Nat} (h : interval input = .ok (some ((lower, upper), after))) :
    lower ≤ maxRepeatNumber ∧ ∀ u ∈ upper, u ≤ maxRepeatNumber := by
  unfold interval at h
  split at h
  · split at h
    · cases h
    · split at h
      · cases h
      · rename_i hmax
        split at h
        · cases h
        · cases h
          simp only [Bool.or_eq_true, decide_eq_true_eq, not_or, Option.any_eq_true] at hmax
          exact ⟨Nat.le_of_not_lt hmax.1, fun u hu => Nat.le_of_not_lt fun hlt => hmax.2 ⟨u, hu, hlt⟩⟩
  · cases h

theorem bounded_repetition {lower : Nat} {upper : Option Nat}
    (h : repetition input = .ok (some ((lower, upper), after))) :
    lower ≤ maxRepeatNumber ∧ ∀ u ∈ upper, u ≤ maxRepeatNumber := by
  unfold repetition at h
  split at h
  · cases h
  · split at h
    · cases h
      decide
    · cases h
      decide
    · cases h
      decide
    · exact bounded_interval h
    · cases h

/-- 読み取った繰り返しの回数は、決まりに合う。 -/
theorem inBounds_repetition {lower : Nat} {upper : Option Nat}
    (h : repetition input = .ok (some ((lower, upper), after))) (greedy : Bool) :
    Loop.InBounds { lower, upper, greedy } :=
  ⟨ordered_repetition h, (bounded_repetition h).1, (bounded_repetition h).2⟩

end Pattern
end MultibyteRegex

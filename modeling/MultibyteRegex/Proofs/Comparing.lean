import MultibyteRegex.Proofs.Outcomes
import MultibyteRegex.Proofs.Preparation

/-!
# 合い方の検査と命令の検査

節の合い方は、本文の残りの並びだけから決めてある。機械は同じことを、一バイトずつ比べ、集まりを前もって閉じ、
後方参照を長さで答えて調べる。どの検査も、二つの決め方で同じ所に着く。
-/

namespace MultibyteRegex

namespace Text

variable {text : Text} {bytes : List UInt8} {s : Nat}

theorem slice_add (text : Text) (s n : Nat) : text.slice s (s + n) = (text.toList.drop s).take n := by
  simp [slice, List.extract_eq_take_drop]

theorem hasFoldedAt_iff_slice {t : FoldTable} : text.hasFoldedAt t bytes s ↔
    s + bytes.length ≤ text.size ∧ bytes = t.foldAll (text.slice s (s + bytes.length)) := by
  rw [slice_add, FoldTable.foldAll, List.map_take]
  constructor
  · exact fun h => ⟨hasFoldedAt_le h, List.prefix_iff_eq_take.1 (hasFoldedAt_iff.1 h).2⟩
  · rintro ⟨hle, heq⟩
    exact hasFoldedAt_iff.2 ⟨by omega, List.prefix_iff_eq_take.2 heq⟩

theorem hasAt_iff_slice : text.hasAt bytes s ↔
    s + bytes.length ≤ text.size ∧ bytes = text.slice s (s + bytes.length) := by
  rw [hasAt_eq_hasFoldedAt, hasFoldedAt_iff_slice, FoldTable.foldAll, List.map_id]

end Text

namespace Setting

variable {x : Setting} {ignoreCase : Bool} {s : Nat}

/-! ## 文字列 -/

/-- 区別するなら、文字の切れ目は問わない。 -/
theorem charsEnd?_false {cs : List (List UInt8)} (hs : s ≤ x.text.size) :
    x.charsEnd? false cs s =
      if x.text.hasAt cs.flatten s then some (s + cs.flatten.length) else none := by
  induction cs generalizing s with
  | nil => simp [charsEnd?, Text.hasAt, hs]
  | cons c cs ih =>
    by_cases h : x.text.hasAt c s
    · have hle := Text.hasAt_le h
      simp [charsEnd?, charEnd?_eq, Text.hasAt_append, h, ih hle, Nat.add_assoc]
    · simp [charsEnd?, charEnd?_eq, Text.hasAt_append, h]

/-- 区別しないときに文字を順に比べるのは、並んだバイトを文字ごとに比べるのと同じである。 -/
theorem charsEnd?_true {cs : List (List UInt8)} (hs : s ≤ x.text.size) : x.charsEnd? true cs s =
    if s + cs.flatten.length ≤ x.text.size ∧ x.fold.sameChars cs (x.text.slice s (s + cs.flatten.length)) then
      some (s + cs.flatten.length)
    else none := by
  induction cs generalizing s with
  | nil => simp [charsEnd?, FoldTable.sameChars, hs]
  | cons c cs ih =>
    have hhead : (x.text.slice s (s + (c ++ cs.flatten).length)).take c.length = x.text.slice s (s + c.length) := by
      rw [Text.slice_add, Text.slice_add, List.take_take, List.length_append, Nat.min_eq_left (Nat.le_add_right ..)]
    have hrest : (x.text.slice s (s + (c ++ cs.flatten).length)).drop c.length =
        x.text.slice (s + c.length) (s + c.length + cs.flatten.length) := by
      rw [Text.slice_add, Text.slice_add, List.drop_take, List.drop_drop, List.length_append, Nat.add_sub_cancel_left]
    have hreads : x.reads true c s ↔ s + c.length ≤ x.text.size ∧
        (if c.length = 1 then x.fold.foldAll c == x.fold.foldAll (x.text.slice s (s + c.length))
          else c == x.text.slice s (s + c.length)) := by
      rw [reads_eq]
      by_cases hone : c.length = 1
      · simp [hone, Text.hasFoldedAt_iff_slice, FoldTable.foldAll]
      · simp [hone, Text.hasAt_iff_slice]
    rw [charsEnd?, charEnd?, List.flatten_cons, FoldTable.sameChars, hhead, hrest]
    by_cases h : x.reads true c s
    · obtain ⟨hle, hsame⟩ := hreads.1 h
      rw [if_pos h, Option.bind_some, ih hle, List.length_append, ← Nat.add_assoc]
      simp only [hsame, Bool.true_and]
    · rw [if_neg h, Option.bind_none, if_neg]
      rintro ⟨hle, hsame⟩
      rw [List.length_append] at hle
      exact h (hreads.2 ⟨by omega, (Bool.and_eq_true_iff.1 hsame).1⟩)

/-! ## 一文字と検査 -/

theorem isMember_eq (c : CharClass) (code : Nat) : x.isMember ignoreCase c code =
    (if ignoreCase then c.closeFold x.fold else c).contains x.encoding code := by
  cases ignoreCase with
  | false => rfl
  | true =>
    by_cases hsingle : CharClass.isSingle x.encoding code
    · have hclose : (c.closeFold x.fold).bytes.contains code.toUInt8 =
          allBytes.any fun b => c.bytes.contains b && x.fold.fold b == x.fold.fold code.toUInt8 := by
        rw [Bool.eq_iff_iff, CharClass.contains_closeFold, List.any_eq_true]
        constructor
        · rintro ⟨d, hd, hdb⟩
          exact ⟨d, mem_allBytes d, by rcases hdb with rfl | hdb <;> simp [*]⟩
        · rintro ⟨d, -, hd⟩
          rw [Bool.and_eq_true, beq_iff_eq] at hd
          exact ⟨d, hd.1, .inr hd.2⟩
      have hnegated : (c.closeFold x.fold).negated = c.negated := by simp only [CharClass.closeFold]
      simp only [isMember, CharClass.contains, hsingle, Bool.and_self, if_true, hclose, hnegated]
    · simp [isMember, CharClass.contains, hsingle, CharClass.closeFold]

/-- 集まりを前もって閉じておくのは、同じとみなす文字を探すのと同じである。 -/
theorem classEnd?_eq (c : CharClass) : x.classEnd? ignoreCase c s =
    ((if ignoreCase then c.closeFold x.fold else c).matchAt x.encoding x.text s).map (s + ·) := by
  rw [classEnd?, isMember_eq, CharClass.matchAt]
  simp only [Encoding.lengthAt_ne_zero_iff]
  generalize (if ignoreCase then c.closeFold x.fold else c) = c
  by_cases h : s < x.text.size ∧ c.contains x.encoding (x.encoding.codeAt x.text s)
  · rw [if_pos h, if_pos h, Option.map_some]
  · rw [if_neg h, if_neg h, Option.map_none]

theorem isWordBefore_eq : x.isWordBefore s = x.encoding.isWordBefore x.text s := by
  unfold isWordBefore Encoding.isWordBefore
  cases x.encoding.prevHead x.text 0 s <;> rfl

/-! ## 後方参照 -/

theorem captured?_eq (caps : Captures) (n : Nat) :
    x.captured? caps n = (caps.span? n).map fun p => x.text.slice p.1 p.2 := by
  have hslice : ∀ start stop, (x.text.toList.take stop).drop start = x.text.slice start stop :=
    fun start stop => by simp [Text.slice, List.extract_eq_take_drop, List.drop_take]
  unfold captured? Captures.span?
  split <;> simp_all

/-- 後方参照が合うのは、捕まえたバイトを文字列として並べた所である。 -/
theorem captured?_bind_charsEnd? (caps : Captures) (n : Nat) (hs : s ≤ x.text.size) :
    ((x.captured? caps n).bind fun bytes => x.charsEnd? ignoreCase (x.encoding.chars bytes) s) =
      (caps.backrefLength x.encoding (if ignoreCase then some x.fold else none) x.text n s).map (s + ·) := by
  rw [captured?_eq]
  unfold Captures.backrefLength
  cases caps.span? n with
  | none => rfl
  | some p =>
    have hends : ∀ {bytes : List UInt8} {same : Bool}, (if s + bytes.length ≤ x.text.size ∧ same then
        some (s + bytes.length) else none) = (if x.text.size < s + bytes.length then none else
          if same then some bytes.length else none).map (s + ·) := by
      intro bytes same
      by_cases hin : x.text.size < s + bytes.length
      · rw [if_pos hin, if_neg fun h => by omega, Option.map_none]
      · cases same <;> simp [Nat.le_of_not_lt hin, hin]
    dsimp only [Option.map_some, Option.bind_some]
    cases ignoreCase
    · rw [charsEnd?_false hs, Encoding.flatten_chars]
      simp only [Bool.false_eq_true, if_false]
      rw [← hends]
      simp only [Text.hasAt_iff_slice, beq_iff_eq]
    · rw [charsEnd?_true hs, Encoding.flatten_chars]
      exact hends

end Setting
end MultibyteRegex

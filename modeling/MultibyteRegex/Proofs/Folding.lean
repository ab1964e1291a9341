import MultibyteRegex.Proofs.SingleByte

/-!
# 写して等しい本文

一バイトの符号化では、写して等しい二つの本文は、改行も単語の文字も同じ所に持つ。同じとみなす文字を見分けない
命令は、どちらの本文でも同じように動く。
-/

namespace MultibyteRegex

/-! ## 本文 -/

/-- 長さが等しく、どの位置のバイトも写すと等しい。 -/
def Text.SameFold (text text' : Text) : Prop :=
  text.map FoldTable.ascii.fold = text'.map FoldTable.ascii.fold

namespace FoldTable

theorem toNat_fold_ascii (b : UInt8) :
    (ascii.fold b).toNat = if 0x41 ≤ b.toNat ∧ b.toNat ≤ 0x5a then b.toNat + 0x20 else b.toNat := by
  simp only [ascii, CharKind.isUpper, Bool.and_eq_true, decide_eq_true_eq]
  split
  · rw [UInt8.toNat_add, Nat.mod_eq_of_lt (by simp; omega)]
    rfl
  · rfl

theorem newline_fold_ascii (b : UInt8) : (ascii.fold b == 0x0a) = (b == 0x0a) := by
  have h := toNat_fold_ascii b
  rw [Bool.eq_iff_iff, beq_iff_eq, beq_iff_eq, ← UInt8.toNat_inj, ← UInt8.toNat_inj]
  simp only [UInt8.reduceToNat]
  split at h <;> omega

theorem isWordLead_fold_ascii (b : UInt8) :
    Encoding.ascii.isWordLead (ascii.fold b) = Encoding.ascii.isWordLead b := by
  simp only [Encoding.isWordLead, Encoding.width, Encoding.hasKind, toNat_fold_ascii]
  split
  · have hascii : b.toNat < 0x80 ∧ b.toNat + 0x20 < 0x80 := by omega
    have hlower : 0x61 ≤ b.toNat + 0x20 ∧ b.toNat + 0x20 ≤ 0x7a := by omega
    rw [if_pos hascii.1, if_pos hascii.2]
    simp [CharKind.hasAscii, CharKind.isAlnum, CharKind.isAlpha, CharKind.isLower, CharKind.isUpper, *]
  · rfl

theorem fold_fold_ascii (b : UInt8) : ascii.fold (ascii.fold b) = ascii.fold b := by
  have h := toNat_fold_ascii b
  rw [← UInt8.toNat_inj, toNat_fold_ascii]
  split at h <;> split <;> omega

/-- 一バイトの文字の並びは、写した並びで比べる。 -/
theorem sameChars_singles (t : FoldTable) (bytes target : List UInt8) :
    t.sameChars (bytes.map ([·])) target = (t.foldAll bytes == t.foldAll (target.take bytes.length)) := by
  induction bytes generalizing target with
  | nil => rfl
  | cons b bytes ih =>
    cases target with
    | nil => rfl
    | cons c target =>
      simp [sameChars, ih, foldAll]

end FoldTable

/-- 同じとみなすバイトを見分けない集合。 -/
def ByteSet.IsCaseless (s : ByteSet) : Prop := ∀ b, s.contains (FoldTable.ascii.fold b) = s.contains b

theorem CharClass.isCaseless_of_closeFold {c : CharClass} (h : c.closeFold .ascii = c) :
    c.bytes.IsCaseless := by
  intro b
  rw [← h, Bool.eq_iff_iff, contains_closeFold, contains_closeFold]
  refine exists_congr fun d => and_congr_right fun hd => ?_
  rw [FoldTable.fold_fold_ascii]
  constructor
  · rintro (rfl | hdb)
    · exact .inr (FoldTable.fold_fold_ascii b)
    · exact .inr hdb
  · rintro (rfl | hdb)
    · exact .inr rfl
    · exact .inr hdb

/-- 一バイトの文字の集まりは、その位置のバイトだけを見る。 -/
theorem CharClass.matchAt_ascii (c : CharClass) (text : Text) (pos : Nat) :
    c.matchAt .ascii text pos =
      if (text[pos]?).any fun b => c.bytes.contains b != c.negated then some 1 else none := by
  by_cases hp : pos < text.size
  · have hcode : Encoding.ascii.codeAt text pos = text[pos].toNat := Encoding.codeAt_of_width_one hp rfl
    have hsingle : isSingle .ascii text[pos].toNat := by
      have := text[pos].toNat_lt
      simp [isSingle, Encoding.width, this]
    simp [matchAt, contains, hcode, hsingle, Encoding.lengthAt_ascii hp, Array.getElem?_eq_getElem hp]
  · have hnone : text[pos]? = none := Array.getElem?_eq_none (Nat.not_lt.1 hp)
    simp [matchAt, Encoding.lengthAt, hnone]

/-- 一バイトの文字は、本文を見ずに戻る。 -/
theorem Encoding.stepBack_ascii (text text' : Text) (pos n : Nat) :
    Encoding.ascii.stepBack text 0 pos n = Encoding.ascii.stepBack text' 0 pos n := by
  induction n generalizing pos with
  | zero => rfl
  | succ n ih => rw [stepBack, stepBack, prevHead_ascii, prevHead_ascii, funext ih]

namespace Text.SameFold

variable {text text' : Text} (h : text.SameFold text')

include h

theorem size : text.size = text'.size := by simpa using congrArg Array.size h

theorem getElem?_fold (pos : Nat) :
    (text[pos]?).map FoldTable.ascii.fold = (text'[pos]?).map FoldTable.ascii.fold := by
  simpa using congrArg (·[pos]?) h

/-- 写しても変わらない検査は、二つの本文で同じ所で成り立つ。 -/
theorem any_eq {p : UInt8 → Bool} (hp : ∀ b, p (FoldTable.ascii.fold b) = p b) (pos : Nat) :
    (text[pos]?).any p = (text'[pos]?).any p := by
  have hany (x : Option UInt8) : x.any p = (x.map FoldTable.ascii.fold).any p := by
    cases x with
    | none => rfl
    | some b => exact (hp b).symm
  exact (hany _).trans ((congrArg (Option.any p) (h.getElem?_fold pos)).trans (hany _).symm)

theorem isNewline (pos : Nat) : (text[pos]? == some 0x0a) = (text'[pos]? == some 0x0a) := by
  have hany (x : Option UInt8) : (x == some 0x0a) = x.any (· == 0x0a) := by cases x <;> rfl
  rw [hany, hany]
  exact h.any_eq FoldTable.newline_fold_ascii pos

theorem isWordAt (pos : Nat) : Encoding.ascii.isWordAt text pos = Encoding.ascii.isWordAt text' pos := by
  have hany (text : Text) : Encoding.ascii.isWordAt text pos = (text[pos]?).any Encoding.ascii.isWordLead := by
    unfold Encoding.isWordAt
    cases text[pos]? <;> rfl
  rw [hany, hany]
  exact h.any_eq FoldTable.isWordLead_fold_ascii pos

theorem isWordBefore (pos : Nat) :
    Encoding.ascii.isWordBefore text pos = Encoding.ascii.isWordBefore text' pos := by
  rw [Encoding.isWordBefore, Encoding.isWordBefore, Encoding.prevHead_ascii, Encoding.prevHead_ascii,
    funext h.isWordAt]

theorem lengthAt (pos : Nat) : Encoding.ascii.lengthAt text pos = Encoding.ascii.lengthAt text' pos := by
  by_cases hp : pos < text.size
  · rw [Encoding.lengthAt_ascii hp, Encoding.lengthAt_ascii (h.size ▸ hp)]
  · have hnone : text[pos]? = none := Array.getElem?_eq_none (Nat.not_lt.1 hp)
    have hnone' : text'[pos]? = none := Array.getElem?_eq_none (h.size ▸ Nat.not_lt.1 hp)
    simp [Encoding.lengthAt, hnone, hnone']

theorem hasFoldedAt (bytes : List UInt8) (pos : Nat) :
    text.hasFoldedAt .ascii bytes pos = text'.hasFoldedAt .ascii bytes pos := by
  induction bytes generalizing pos with
  | nil => rw [Text.hasFoldedAt, Text.hasFoldedAt, h.size]
  | cons b bytes ih => rw [Text.hasFoldedAt, Text.hasFoldedAt, h.getElem?_fold, ih]

theorem matchAt {c : CharClass} (hc : c.bytes.IsCaseless) (pos : Nat) :
    c.matchAt .ascii text pos = c.matchAt .ascii text' pos := by
  rw [CharClass.matchAt_ascii, CharClass.matchAt_ascii, h.any_eq fun b => by rw [hc b]]

theorem foldAll_slice (a b : Nat) :
    FoldTable.ascii.foldAll (text.slice a b) = FoldTable.ascii.foldAll (text'.slice a b) := by
  simpa [FoldTable.foldAll, slice] using congrArg (fun t : Text => (t.extract a b).toList) h

/-- 写して比べる後方参照は、どちらの本文でも同じ長さに合う。 -/
theorem backrefLength (caps : Captures) (n pos : Nat) :
    caps.backrefLength .ascii (some .ascii) text n pos =
      caps.backrefLength .ascii (some .ascii) text' n pos := by
  unfold Captures.backrefLength
  cases caps.span? n with
  | none => rfl
  | some span =>
    obtain ⟨start, stop⟩ := span
    have hslice := h.foldAll_slice
    have hlength : (text.slice start stop).length = (text'.slice start stop).length := by
      simpa [FoldTable.foldAll] using congrArg List.length (hslice start stop)
    have htarget (k p q : Nat) : FoldTable.ascii.foldAll ((text.slice p q).take k) =
        FoldTable.ascii.foldAll ((text'.slice p q).take k) := by
      simpa only [FoldTable.foldAll, List.map_take] using congrArg (List.take k) (hslice p q)
    simp only [Encoding.chars_ascii, FoldTable.sameChars_singles, hslice, hlength, htarget, h.size]

end Text.SameFold

/-! ## 命令 -/

/-- 同じとみなす文字を見分けない命令。 -/
def Instruction.IsCaseless : Instruction → Prop
  | .exact .. => False
  | .inSet set _ => set.IsCaseless
  | .inEither set _ _ => set.IsCaseless
  | .anyStar _ peek => peek = none
  | .backref _ fold => fold = true
  | .pushOrJump .. => False
  | .pushIfPeek .. => False
  | _ => True

theorem Instruction.isCaseless_of_isControl {i : Instruction} (h : i.isControl) : i.IsCaseless := by
  cases i <;> first | exact trivial | cases h

/-- 同じとみなす文字を見分けない命令だけを持つ、一バイトの符号化のプログラム。 -/
structure Program.IsCaseless (p : Program) : Prop where
  encoding : p.encoding = .ascii
  fold : p.fold = .ascii
  code : ∀ i ∈ p.code, i.IsCaseless

namespace Matcher

variable {m : Matcher} {text' : Text} {origin : Nat} {r : Registers}

theorem anyStar_sameFold (he : m.encoding = .ascii) (h : m.text.SameFold text') (newline : Bool) :
    { m with text := text' }.anyStar newline none r = m.anyStar newline none r := by
  induction hn : m.text.size - r.pos using Nat.strongRecOn generalizing r with
  | ind n ih =>
    subst hn
    rw [anyStar, anyStar]
    by_cases hp : r.pos < m.text.size
    · have hp' : r.pos < text'.size := h.size ▸ hp
      have hnl : (text'[r.pos] == 0x0a) = (m.text[r.pos] == 0x0a) := by
        simpa [Array.getElem?_eq_getElem hp, Array.getElem?_eq_getElem hp'] using (h.isNewline r.pos).symm
      have he' : ({ m with text := text' } : Matcher).encoding = .ascii := he
      have hpush (f : Frame) : ({ m with text := text' } : Matcher).push r f = m.push r f := rfl
      simp only [hp, hp', dif_pos, hnl, he, he', Encoding.nextHead_ascii, Option.all_none, if_true, hpush]
      cases hr : m.push r (.alt (r.pc + 1) r.pos) with
      | error e => rfl
      | ok r' =>
        have hpos : r'.pos = r.pos := by
          rcases m.push_eq r (.alt (r.pc + 1) r.pos) with hq | ⟨hq, -⟩ <;> rw [hq] at hr <;> cases hr
          rfl
        dsimp only
        rw [ih _ (by dsimp only; omega) rfl]
    · have hp' : ¬r.pos < text'.size := h.size ▸ hp
      simp only [hp, hp', dif_neg, not_false_iff]

/-- 同じとみなす文字を見分けない命令は、写して等しい本文で同じように動く。 -/
theorem execute_sameFold (hp : m.program.IsCaseless) (h : m.text.SameFold text') {i : Instruction}
    (hi : i.IsCaseless) : { m with text := text' }.execute origin i r = m.execute origin i r := by
  have he : m.encoding = .ascii := hp.encoding
  have he' : ({ m with text := text' } : Matcher).encoding = .ascii := he
  cases i with
  | exact | pushOrJump | pushIfPeek => cases hi
  | exactFold single bytes => simp only [execute, hp.fold, h.hasFoldedAt]
  | inSet set negated => simp only [execute, he, he', h.matchAt (c := { bytes := set, negated }) hi]
  | inRanges ranges negated =>
    have hempty : ByteSet.IsCaseless .empty := fun b => by simp
    simp only [execute, he, he', h.matchAt (c := { ranges, negated }) hempty]
  | inEither set ranges negated =>
    simp only [execute, he, he', h.matchAt (c := { bytes := set, ranges, negated }) hi]
  | any newline =>
    have hmap := h.getElem?_fold r.pos
    have hline := h.isNewline r.pos
    simp only [execute, he, he', h.lengthAt]
    cases hb : m.text[r.pos]? with
    | none =>
      rw [hb] at hmap
      rw [Option.map_eq_none_iff.1 hmap.symm]
    | some b =>
      rw [hb] at hmap
      obtain ⟨b', hb', -⟩ := Option.map_eq_some_iff.1 hmap.symm
      have hnewline : (b' == 0x0a) = (b == 0x0a) := by simpa [hb, hb'] using hline.symm
      simp only [hb', hnewline]
  | anyStar newline peek =>
    obtain rfl : peek = none := hi
    exact anyStar_sameFold he h newline
  | word isWord => simp only [execute, he, he', h.size, h.isWordAt, h.lengthAt]
  | wordBound atBound => simp only [execute, he, he', h.isWordAt, h.isWordBefore]
  | wordBegin | wordEnd => simp only [execute, he, he', h.isWordAt, h.isWordBefore]
  | endBuf => simp only [execute, h.size]
  | semiEndBuf | beginLine | endLine => simp only [execute, h.size, h.isNewline]
  | backref n fold =>
    obtain rfl : fold = true := hi
    simp only [execute, he, he', hp.fold, if_true, h.backrefLength]
  | lookBehind chars => simp only [execute, he, he', Encoding.stepBack_ascii m.text text']
  | pushLookBehindNot addr chars =>
    simp only [execute, he, he', Encoding.stepBack_ascii m.text text']
    rfl
  | _ => rfl

theorem step_sameFold (hp : m.program.IsCaseless) (h : m.text.SameFold text') :
    { m with text := text' }.step origin r = m.step origin r := by
  unfold step
  cases hi : m.program.code[r.pc]? with
  | none => rfl
  | some i =>
    have hcode := hp.code i (Array.mem_of_getElem? hi)
    simp only [execute_sameFold hp h hcode]
    rfl

/-- 写して等しい本文では、何歩進めても同じ状態になり、同じ答えになる。 -/
theorem run_sameFold (hp : m.program.IsCaseless) (h : m.text.SameFold text') (fuel : Nat) :
    { m with text := text' }.run origin fuel r = m.run origin fuel r := by
  induction fuel generalizing r with
  | zero => rfl
  | succ fuel ih => simp only [run, step_sameFold hp h, ih]

theorem matchAt_sameFold (hp : m.program.IsCaseless) (h : m.text.SameFold text') (fuel origin : Nat) :
    { m with text := text' }.matchAt fuel origin = m.matchAt fuel origin := by
  simp only [matchAt, run_sameFold hp h, h.size]

end Matcher
end MultibyteRegex

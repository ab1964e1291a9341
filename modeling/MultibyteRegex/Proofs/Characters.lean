import Mathlib.Logic.Function.Iterate
import MultibyteRegex.Proofs.Contract

/-!
# 文字の切れ目

本文が文字を並べたものであれば、切れ目から前へ一文字ずつ進む操作と、後ろへ戻る操作は、互いに逆になる。
文字の途中の位置からは、その文字の先頭に戻る。
-/

namespace MultibyteRegex
namespace Encoding

/-- 先頭でないバイトになれる。 -/
def isTrail : Encoding → UInt8 → Bool
  | .ascii, _ => false
  | .eucJp, b => isEucJpPart b
  | .sjis, b => isSjisTrail b
  | .utf8, b => isUtf8Trail b

/-- 先頭バイトの求める長さで、続きもふさわしいバイトからなる一文字。 -/
def isChar (e : Encoding) : List UInt8 → Bool
  | [] => false
  | b :: trail => trail.length + 1 == e.width b && trail.all e.isTrail && !(e = .utf8 && isUtf8Trail b)

/-- 正しい文字だけを並べたもの。 -/
def isWellFormed (e : Encoding) (bytes : List UInt8) : Bool := (e.chars bytes).all e.isChar

/-- 本文を初めから文字に分けたときの切れ目。 -/
def Head (e : Encoding) (text : Text) (p : Nat) : Prop :=
  p ≤ text.size ∧ ∃ k, (e.nextHead text)^[k] 0 = p

variable {e : Encoding} {text : Text} {p q pos k : Nat} {b : UInt8} {rest bytes : List UInt8}

theorem isWellFormed_cons (h : e.isWellFormed (b :: rest)) :
    e.width b ≤ rest.length + 1 ∧ (∀ c ∈ rest.take (e.width b - 1), e.isTrail c) ∧
      (e = .utf8 → ¬isUtf8Trail b) ∧ e.isWellFormed (rest.drop (e.width b - 1)) := by
  have hpos := e.width_pos b
  simp only [isWellFormed, chars, takeChar, List.all_cons, isChar, Bool.and_eq_true, beq_iff_eq,
    List.length_take, List.all_eq_true] at h
  obtain ⟨⟨⟨hlen, htrail⟩, hlead⟩, hrest⟩ := h
  exact ⟨by omega, htrail, fun he => by simpa [he] using hlead, List.all_eq_true.2 hrest⟩

/-! ## 前へ進む -/

theorem add_le_iterate (k : Nat) : p + k ≤ (e.nextHead text)^[k] p := by
  induction k with
  | zero => exact Nat.le_refl p
  | succ k ih =>
    rw [Function.iterate_succ_apply']
    have := lt_nextHead e text ((e.nextHead text)^[k] p)
    omega

theorem iterate_lt {j : Nat} (h : j < k) : (e.nextHead text)^[j] p < (e.nextHead text)^[k] p := by
  obtain ⟨d, rfl⟩ := Nat.exists_eq_add_of_lt h
  have : (e.nextHead text)^[j] p + (d + 1) ≤ (e.nextHead text)^[d + 1] ((e.nextHead text)^[j] p) :=
    add_le_iterate (d + 1)
  rw [← Function.iterate_add_apply, Nat.add_comm (d + 1)] at this
  rw [Nat.add_assoc]
  omega

namespace Head

theorem zero : e.Head text 0 := ⟨Nat.zero_le _, 0, rfl⟩

theorem le (h : e.Head text p) : p ≤ text.size := h.1

/-- 切れ目の間に、切れ目はない。 -/
theorem nextHead_le (hp : e.Head text p) (hq : e.Head text q) (h : p < q) : e.nextHead text p ≤ q := by
  obtain ⟨-, j, rfl⟩ := hp
  obtain ⟨-, k, rfl⟩ := hq
  have hjk : j < k := by
    refine Nat.lt_of_not_le fun hkj => ?_
    rcases Nat.lt_or_eq_of_le hkj with hlt | rfl
    · exact Nat.lt_asymm h (iterate_lt hlt)
    · exact Nat.lt_irrefl _ h
  rw [← Function.iterate_succ_apply' (e.nextHead text)]
  rcases Nat.lt_or_eq_of_le (Nat.succ_le_of_lt hjk) with hlt | rfl
  · exact Nat.le_of_lt (iterate_lt hlt)
  · exact Nat.le_refl _

theorem unique (hp : e.Head text p) (hq : e.Head text q) (hpos : p ≤ pos) (hpos' : pos < e.nextHead text p)
    (hqos : q ≤ pos) (hqos' : pos < e.nextHead text q) : p = q := by
  rcases Nat.lt_trichotomy p q with h | h | h
  · have := hp.nextHead_le hq h
    omega
  · exact h
  · have := hq.nextHead_le hp h
    omega

section

variable (hw : e.isWellFormed text.toList)
include hw

/-- 切れ目から後ろも、文字を並べたものである。 -/
theorem whole_drop (h : e.Head text p) : e.isWellFormed (text.toList.drop p) := by
  obtain ⟨hle, k, hk⟩ := h
  induction k generalizing p with
  | zero =>
    cases hk
    exact hw
  | succ k ih =>
    rw [Function.iterate_succ_apply'] at hk
    have hlt : (e.nextHead text)^[k] 0 < text.size := by
      have := lt_nextHead e text ((e.nextHead text)^[k] 0)
      omega
    have hd := ih (Nat.le_of_lt hlt) rfl
    generalize (e.nextHead text)^[k] 0 = q at hd hk hlt
    rw [List.drop_eq_getElem_cons (by simpa using hlt)] at hd
    obtain ⟨hlen, -, -, hrest⟩ := isWellFormed_cons hd
    have hpos := e.width_pos text.toList[q]
    have hnext : e.nextHead text q = q + e.width text[q] := by
      simp only [Array.getElem_toList, List.length_drop, Array.length_toList] at hlen
      rw [nextHead_eq e hlt, lengthAt, Array.getElem?_eq_getElem hlt]
      dsimp only
      omega
    rw [List.drop_drop] at hrest
    rw [← hk, hnext]
    simp only [Array.getElem_toList] at hrest hpos
    rwa [show q + 1 + (e.width text[q] - 1) = q + e.width text[q] by omega] at hrest

/-- 一文字のバイト。 -/
theorem char (h : e.Head text p) (hp : p < text.size) :
    e.nextHead text p = p + e.width (text.getD p 0) ∧ e.nextHead text p ≤ text.size ∧
      (∀ i, p < i → i < e.nextHead text p → e.isTrail (text.getD i 0)) ∧
      (e = .utf8 → ¬isUtf8Trail (text.getD p 0)) := by
  have hd := h.whole_drop hw
  rw [List.drop_eq_getElem_cons (by simpa using hp)] at hd
  obtain ⟨hlen, htrail, hlead, -⟩ := isWellFormed_cons hd
  simp only [Array.getElem_toList, List.length_drop, Array.length_toList] at hlen htrail hlead
  have hpos := e.width_pos text[p]
  have hget : text.getD p 0 = text[p] := by simp [Array.getD, hp]
  have hnext : e.nextHead text p = p + e.width text[p] := by
    rw [nextHead_eq e hp, lengthAt, Array.getElem?_eq_getElem hp]
    dsimp only
    omega
  refine ⟨by rw [hget, hnext], by omega, fun i hi hlt => htrail _ ?_, by rwa [hget]⟩
  have hi' : i < text.size := by omega
  rw [List.mem_iff_getElem]
  refine ⟨i - (p + 1), by simp; omega, ?_⟩
  have hidx : p + 1 + (i - (p + 1)) = i := by omega
  simp [Array.getD, hi', hidx]

theorem next (h : e.Head text p) (hp : p < text.size) : e.Head text (e.nextHead text p) := by
  refine ⟨(h.char hw hp).2.1, ?_⟩
  obtain ⟨-, k, rfl⟩ := h
  exact ⟨k + 1, Function.iterate_succ_apply' ..⟩

end

end Head

section

variable (hw : e.isWellFormed text.toList)
include hw

/-- どの位置も、一つの文字に入る。 -/
theorem exists_head (hp : pos < text.size) :
    ∃ p, e.Head text p ∧ p ≤ pos ∧ pos < e.nextHead text p := by
  induction pos with
  | zero => exact ⟨0, .zero, Nat.le_refl 0, lt_nextHead e text 0⟩
  | succ pos ih =>
    obtain ⟨p, hhead, hle, hlt⟩ := ih (by omega)
    by_cases h : pos + 1 < e.nextHead text p
    · exact ⟨p, hhead, by omega, h⟩
    · have hnext : e.nextHead text p = pos + 1 := by omega
      exact ⟨pos + 1, hnext ▸ hhead.next hw (by omega), Nat.le_refl _, lt_nextHead ..⟩

/-- 先頭でしかありえないバイトは、切れ目にある。 -/
theorem head_of_not_isTrail (hp : pos < text.size) (h : ¬e.isTrail (text.getD pos 0)) : e.Head text pos := by
  obtain ⟨p, hhead, hle, hlt⟩ := exists_head hw hp
  rcases Nat.lt_or_eq_of_le hle with hlt' | rfl
  · exact absurd ((hhead.char hw (by omega)).2.2.1 pos hlt' hlt) h
  · exact hhead

end

/-! ## 後ろへ戻る -/

theorem retreatWhile_spec (inside : UInt8 → Bool) (text : Text) (pos : Nat) :
    (retreatWhile inside text 0 pos = 0 ∨ ¬inside (text.getD (retreatWhile inside text 0 pos) 0)) ∧
      ∀ i, retreatWhile inside text 0 pos < i → i ≤ pos → inside (text.getD i 0) := by
  induction pos with
  | zero => exact ⟨.inl rfl, fun i h h' => absurd h (by simp [retreatWhile]; omega)⟩
  | succ pos ih =>
    unfold retreatWhile
    split
    · rename_i h
      refine ⟨ih.1, fun i hi hle => ?_⟩
      rcases Nat.lt_or_eq_of_le hle with hlt | rfl
      · exact ih.2 i hi (Nat.le_of_lt_succ hlt)
      · exact h.2
    · rename_i h
      exact ⟨.inr fun hin => h ⟨Nat.succ_pos pos, hin⟩, fun i hi hle => by omega⟩

theorem retreatOver_spec (lead : UInt8 → Bool) (text : Text) (pos : Nat) :
    (retreatOver lead text 0 pos = 0 ∨ ¬lead (text.getD (retreatOver lead text 0 pos - 1) 0)) ∧
      ∀ i, retreatOver lead text 0 pos ≤ i → i < pos → lead (text.getD i 0) := by
  induction pos with
  | zero => exact ⟨.inl rfl, fun i _ h => absurd h (Nat.not_lt_zero i)⟩
  | succ pos ih =>
    unfold retreatOver
    split
    · rename_i h
      refine ⟨ih.1, fun i hi hlt => ?_⟩
      rcases Nat.lt_or_eq_of_le (Nat.le_of_lt_succ hlt) with hlt | rfl
      · exact ih.2 i hi hlt
      · exact h.2
    · rename_i h
      exact ⟨.inr fun hl => h ⟨Nat.succ_pos pos, hl⟩, fun i hi hlt => by omega⟩

theorem width_of_isEucJpPart (h : isEucJpPart b) : Encoding.eucJp.width b = 2 := by
  simp only [isEucJpPart, Bool.and_eq_true, decide_eq_true_eq] at h
  have hne : b ≠ 0x8f := by
    rintro rfl
    exact absurd h.1 (by decide)
  simp [width, h, hne]

theorem width_sjis (b : UInt8) : Encoding.sjis.width b = if isSjisLead b then 2 else 1 := by
  simp [width, isSjisLead]

/-- 二バイトの文字が続くかぎり、二つずつ進んだ先も切れ目である。 -/
theorem Head.pairs (hw : e.isWellFormed text.toList) (hq : e.Head text q)
    (h : ∀ i, q ≤ i → i < pos → e.width (text.getD i 0) = 2) (hpos : pos < text.size) {j : Nat}
    (hj : q + 2 * j ≤ pos) : e.Head text (q + 2 * j) := by
  induction j with
  | zero => exact hq
  | succ j ih =>
    have hhead := ih (by omega)
    have hnext := (hhead.char hw (by omega)).1
    rw [h (q + 2 * j) (by omega) (by omega)] at hnext
    have := hhead.next hw (by omega)
    rwa [hnext] at this

/-- `p` は、`pos` の文字の先頭である。 -/
def Starts (e : Encoding) (text : Text) (pos p : Nat) : Prop :=
  e.Head text p ∧ p ≤ pos ∧ pos < e.nextHead text p

theorem Head.starts (h : e.Head text pos) : e.Starts text pos pos := ⟨h, Nat.le_refl pos, lt_nextHead ..⟩

section

variable (hw : e.isWellFormed text.toList) (hpos : pos < text.size)
include hw hpos

/-- 切れ目 `p` の次から二バイトの文字が続くなら、二つずつ進んで `pos` の文字の先頭に着く。 -/
theorem resync_spec (hp : e.Head text p) (hle : p ≤ pos)
    (h : ∀ i, p < i → i < pos → e.width (text.getD i 0) = 2) : e.Starts text pos (e.resync text p pos) := by
  have hnext := (hp.char hw (by omega)).1
  have hlt := lt_nextHead e text p
  unfold resync
  dsimp only
  rw [← hnext]
  split
  · exact ⟨hp, hle, ‹_›⟩
  · have hq := hp.next hw (by omega)
    generalize e.nextHead text p = q at *
    have hpairs : ∀ i, q ≤ i → i < pos → e.width (text.getD i 0) = 2 := fun i hi => h i (by omega)
    have hr := hq.pairs hw hpairs hpos (j := (pos - q) / 2) (by omega)
    rw [Nat.mul_comm] at hr
    generalize hrdef : q + (pos - q) / 2 * 2 = r at hr
    refine ⟨hr, by omega, ?_⟩
    rcases Nat.lt_or_eq_of_le (show r ≤ pos by omega) with hlt | rfl
    · rw [(hr.char hw (by omega)).1, hpairs r (by omega) hlt]
      omega
    · exact lt_nextHead ..

end

theorem retreatWhile_starts_utf8 (hw : Encoding.utf8.isWellFormed text.toList) (hpos : pos < text.size) :
    Encoding.utf8.Starts text pos (retreatWhile isUtf8Trail text 0 pos) := by
  obtain ⟨hstop, htrail⟩ := retreatWhile_spec isUtf8Trail text pos
  have hle := retreatWhile_le isUtf8Trail text 0 pos
  generalize retreatWhile isUtf8Trail text 0 pos = p at *
  have hp : Encoding.utf8.Head text p := by
    rcases hstop with rfl | hstop
    · exact .zero
    · exact head_of_not_isTrail hw (by omega) hstop
  refine ⟨hp, hle, Nat.lt_of_not_le fun h => ?_⟩
  have hnext := hp.next hw (by omega)
  exact (hnext.char hw (by omega)).2.2.2 rfl (htrail _ (lt_nextHead ..) h)

theorem resync_starts_eucJp (hw : Encoding.eucJp.isWellFormed text.toList) (hpos : pos < text.size) :
    Encoding.eucJp.Starts text pos
      (Encoding.eucJp.resync text (retreatWhile isEucJpPart text 0 pos) pos) := by
  obtain ⟨hstop, hpart⟩ := retreatWhile_spec isEucJpPart text pos
  have hle := retreatWhile_le isEucJpPart text 0 pos
  refine resync_spec hw hpos ?_ hle fun i hi hlt => width_of_isEucJpPart (hpart i hi (Nat.le_of_lt hlt))
  rcases hstop with h | hstop
  · rw [h]
    exact .zero
  · exact head_of_not_isTrail hw (by omega) hstop

theorem resync_starts_sjis (hw : Encoding.sjis.isWellFormed text.toList) (hpos : pos < text.size) :
    Encoding.sjis.Starts text pos (Encoding.sjis.resync text
      (if isSjisTrail (text.getD pos 0) then retreatOver isSjisLead text 0 pos else pos) pos) := by
  by_cases htrail : isSjisTrail (text.getD pos 0)
  · rw [if_pos htrail]
    obtain ⟨hstop, hlead⟩ := retreatOver_spec isSjisLead text pos
    have hle := retreatOver_le isSjisLead text 0 pos
    generalize retreatOver isSjisLead text 0 pos = p at *
    have hp : Encoding.sjis.Head text p := by
      rcases hstop with rfl | hstop
      · exact .zero
      by_cases h0 : p = 0
      · rw [h0]
        exact .zero
      -- 直前のバイトが二バイトの文字の先頭でなければ、そこで文字が終わる。
      obtain ⟨q, hq, hqle, hqlt⟩ := exists_head hw (show p - 1 < text.size by omega)
      have hnext := (hq.char hw (by omega)).1
      have hqp : Encoding.sjis.nextHead text q = p := by
        rw [width_sjis] at hnext
        by_cases hqe : q = p - 1
        · subst hqe
          rw [if_neg hstop] at hnext
          omega
        · have hwidth : (if isSjisLead (text.getD q 0) then 2 else 1) ≤ 2 := by
            split <;> omega
          omega
      rw [← hqp]
      exact hq.next hw (by omega)
    exact resync_spec hw hpos hp hle fun i hi hlt => by rw [width_sjis, if_pos (hlead i (by omega) hlt)]
  · rw [if_neg htrail]
    exact resync_spec hw hpos (head_of_not_isTrail hw hpos htrail) (Nat.le_refl pos) fun i hi hlt => by omega

/-- 文字の途中の位置からは、その文字の先頭に戻る。 -/
theorem leftAdjust_starts (hw : e.isWellFormed text.toList) (hpos : pos < text.size) :
    e.Starts text pos (e.leftAdjust text 0 pos) := by
  unfold leftAdjust
  by_cases h : pos ≤ 0 ∨ text.size ≤ pos
  · rw [if_pos h]
    obtain rfl : pos = 0 := by omega
    exact Head.zero.starts
  · rw [if_neg h]
    cases e with
    | ascii => exact (head_of_not_isTrail hw hpos (by simp [isTrail])).starts
    | utf8 => exact retreatWhile_starts_utf8 hw hpos
    | eucJp => exact resync_starts_eucJp hw hpos
    | sjis =>
      dsimp only
      exact resync_starts_sjis hw hpos

/-- 一文字戻るのは、一文字進むことの逆である。 -/
theorem prevHead_spec (hw : e.isWellFormed text.toList) (hp : e.Head text pos)
    (h : e.prevHead text 0 pos = some p) : e.Head text p ∧ e.nextHead text p = pos := by
  have hle := hp.le
  unfold prevHead at h
  split at h
  · cases h
  · obtain ⟨hhead, hle', hlt⟩ := leftAdjust_starts hw (show pos - 1 < text.size by omega)
    cases h
    have := hhead.nextHead_le hp (by omega)
    exact ⟨hhead, by omega⟩

/-- `n` 文字戻った所から `n` 文字進むと、元の位置に着く。 -/
theorem stepBack_spec (hw : e.isWellFormed text.toList) (hp : e.Head text pos)
    (h : e.stepBack text 0 pos k = some p) : e.Head text p ∧ (e.nextHead text)^[k] p = pos := by
  induction k generalizing pos with
  | zero =>
    cases h
    exact ⟨hp, rfl⟩
  | succ k ih =>
    obtain ⟨q, hq, h⟩ := Option.bind_eq_some_iff.1 h
    obtain ⟨hhead, hnext⟩ := prevHead_spec hw hp hq
    obtain ⟨hhead', rfl⟩ := ih hhead h
    exact ⟨hhead', (Function.iterate_succ_apply' ..).trans hnext⟩

/-- 文字の途中から戻っても、同じ数だけ進めば、元の位置か、その先に着く。 -/
theorem le_iterate_of_stepBack (hw : e.isWellFormed text.toList) (hpos : pos ≤ text.size)
    (h : e.stepBack text 0 pos (k + 1) = some p) : e.Head text p ∧ pos ≤ (e.nextHead text)^[k + 1] p := by
  obtain ⟨q, hq, h⟩ := Option.bind_eq_some_iff.1 h
  unfold prevHead at hq
  split at hq
  · cases hq
  · obtain ⟨hhead, hle, hlt⟩ := leftAdjust_starts hw (show pos - 1 < text.size by omega)
    cases hq
    obtain ⟨hp, hcount⟩ := stepBack_spec hw hhead h
    rw [Function.iterate_succ_apply', hcount]
    exact ⟨hp, by omega⟩

end Encoding
end MultibyteRegex

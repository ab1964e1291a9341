import MultibyteRegex.Proofs.Outcomes
import MultibyteRegex.Proofs.SingleByte
import MultibyteRegex.Search.Plan

/-!
# 探すものの見つけ方

一バイトの符号化では、飛ばしながら探しても、探すものが現れる最初の、または最後の位置を見逃さない。
-/

namespace MultibyteRegex
namespace Text

variable {p : Nat → Bool} {text : Text} {key : List UInt8} {lo mid hi last c i x : Nat}

/-! ## 一つずつ調べる -/

theorem firstFrom_eq_some_iff : firstFrom p lo hi = some i ↔
    lo ≤ i ∧ i ≤ hi ∧ p i ∧ ∀ j, lo ≤ j → j < i → p j = false := by
  fun_induction firstFrom p lo hi with
  | case1 lo hle hp =>
    constructor
    · intro h
      cases h
      exact ⟨Nat.le_refl _, hle, hp, fun j _ _ => by omega⟩
    · rintro ⟨hlo, -, -, hmin⟩
      rcases Nat.lt_or_eq_of_le hlo with hlt | rfl
      · simp [hmin lo (Nat.le_refl _) hlt] at hp
      · rfl
  | case2 lo hle hp ih =>
    rw [ih]
    constructor
    · rintro ⟨hlo, hhi, hi, hmin⟩
      refine ⟨by omega, hhi, hi, fun j hj hji => ?_⟩
      rcases Nat.lt_or_eq_of_le hj with hlt | rfl
      · exact hmin j hlt hji
      · simpa using hp
    · rintro ⟨hlo, hhi, hi, hmin⟩
      refine ⟨?_, hhi, hi, fun j hj => hmin j (by omega)⟩
      rcases Nat.lt_or_eq_of_le hlo with hlt | rfl
      · exact hlt
      · exact absurd hi hp
  | case3 lo hgt =>
    simp only [reduceCtorEq, false_iff]
    omega

theorem lastFrom_eq_some_iff : lastFrom p lo hi = some i ↔
    lo ≤ i ∧ i ≤ hi ∧ p i ∧ ∀ j, i < j → j ≤ hi → p j = false := by
  fun_induction lastFrom p lo hi with
  | case1 h =>
    obtain ⟨rfl, hp⟩ := h
    constructor
    · intro h
      cases h
      exact ⟨Nat.le_refl _, Nat.le_refl _, hp, fun j _ _ => by omega⟩
    · rintro ⟨-, hi, -, -⟩
      rw [Nat.le_zero.1 hi]
  | case2 h =>
    simp only [reduceCtorEq, false_iff]
    rintro ⟨hlo, hi, hp, -⟩
    obtain rfl := Nat.le_zero.1 hi
    exact h ⟨Nat.le_zero.1 hlo, hp⟩
  | case3 hi hle hp =>
    constructor
    · intro h
      cases h
      exact ⟨hle, Nat.le_refl _, hp, fun j _ _ => by omega⟩
    · rintro ⟨-, hi', -, hmax⟩
      rcases Nat.lt_or_eq_of_le hi' with hlt | rfl
      · simp [hmax (hi + 1) hlt (Nat.le_refl _)] at hp
      · rfl
  | case4 hi hle hp ih =>
    rw [ih]
    constructor
    · rintro ⟨hlo, hhi, hpi, hmax⟩
      refine ⟨hlo, by omega, hpi, fun j hj hji => ?_⟩
      rcases Nat.lt_or_eq_of_le hji with hlt | rfl
      · exact hmax j hj (by omega)
      · simpa using hp
    · rintro ⟨hlo, hhi, hpi, hmax⟩
      refine ⟨hlo, ?_, hpi, fun j hj hji => hmax j hj (by omega)⟩
      rcases Nat.lt_or_eq_of_le hhi with hlt | rfl
      · omega
      · exact absurd hpi hp
  | case5 hi hgt =>
    simp only [reduceCtorEq, false_iff]
    omega

theorem firstFrom_eq_none_iff :
    firstFrom p lo hi = none ↔ ∀ x, lo ≤ x → x ≤ hi → p x = false := by
  fun_induction firstFrom p lo hi with
  | case1 lo hle hp =>
    simp only [reduceCtorEq, false_iff]
    intro h
    simp [h lo (Nat.le_refl _) hle] at hp
  | case2 lo hle hp ih =>
    rw [ih]
    refine ⟨fun h x hlo hx => ?_, fun h x hlo hx => h x (by omega) hx⟩
    rcases Nat.lt_or_eq_of_le hlo with hlt | rfl
    · exact h x hlt hx
    · simpa using hp
  | case3 lo hgt => exact ⟨fun _ x _ _ => by omega, fun _ => rfl⟩

theorem lastFrom_eq_none_iff :
    lastFrom p lo hi = none ↔ ∀ x, lo ≤ x → x ≤ hi → p x = false := by
  fun_induction lastFrom p lo hi with
  | case1 h =>
    simp only [reduceCtorEq, false_iff]
    intro hnone
    simp [hnone 0 (by omega) (Nat.le_refl _)] at h
  | case2 h =>
    refine ⟨fun _ x hlo hx => ?_, fun _ => rfl⟩
    obtain rfl := Nat.le_zero.1 hx
    simpa [Nat.le_zero.1 hlo] using h
  | case3 hi hle hp =>
    simp only [reduceCtorEq, false_iff]
    intro h
    simp [h (hi + 1) hle (Nat.le_refl _)] at hp
  | case4 hi hle hp ih =>
    rw [ih]
    refine ⟨fun h x hlo hx => ?_, fun h x hlo hx => h x hlo (by omega)⟩
    rcases Nat.lt_or_eq_of_le hx with hlt | rfl
    · exact h x hlo (by omega)
    · simpa using hp
  | case5 hi hgt => exact ⟨fun _ x _ _ => by omega, fun _ => rfl⟩

/-- 現れない所から探し始めても、答えは同じである。 -/
theorem firstFrom_skip (hle : lo ≤ mid) (h : ∀ x, lo ≤ x → x < mid → p x = false) :
    firstFrom p lo hi = firstFrom p mid hi := by
  ext i
  simp only [firstFrom_eq_some_iff]
  constructor
  · rintro ⟨hlo, hhi, hi, hmin⟩
    refine ⟨Nat.le_of_not_lt fun hlt => ?_, hhi, hi, fun j hj => hmin j (by omega)⟩
    simp [h i hlo hlt] at hi
  · rintro ⟨hlo, hhi, hi, hmin⟩
    refine ⟨by omega, hhi, hi, fun j hj hji => ?_⟩
    by_cases hjm : j < mid
    · exact h j hj hjm
    · exact hmin j (by omega) hji

theorem lastFrom_skip (hle : mid ≤ hi) (h : ∀ x, mid < x → x ≤ hi → p x = false) :
    lastFrom p lo hi = lastFrom p lo mid := by
  ext i
  simp only [lastFrom_eq_some_iff]
  constructor
  · rintro ⟨hlo, hhi, hi, hmax⟩
    refine ⟨hlo, Nat.le_of_not_lt fun hlt => ?_, hi, fun j hj hjm => hmax j hj (by omega)⟩
    simp [h i hlt hhi] at hi
  · rintro ⟨hlo, hhi, hi, hmax⟩
    refine ⟨hlo, by omega, hi, fun j hj hji => ?_⟩
    by_cases hjm : j ≤ mid
    · exact hmax j hj hjm
    · exact h j (by omega) hji

/-- 現れうる最後の位置より後は、探しても探さなくても同じである。 -/
theorem firstFrom_min (h : ∀ x, p x → x ≤ last) : firstFrom p lo (min last hi) = firstFrom p lo hi := by
  ext i
  simp only [firstFrom_eq_some_iff]
  constructor
  · rintro ⟨hlo, hhi, hi, hmin⟩
    exact ⟨hlo, by omega, hi, hmin⟩
  · rintro ⟨hlo, hhi, hi, hmin⟩
    have := h i hi
    exact ⟨hlo, by omega, hi, hmin⟩

theorem lastFrom_min (h : ∀ x, p x → x ≤ last) : lastFrom p lo (min last hi) = lastFrom p lo hi := by
  by_cases hle : last ≤ hi
  · rw [Nat.min_eq_left hle]
    refine (lastFrom_skip hle fun x hx _ => Bool.eq_false_iff.2 fun hp => ?_).symm
    have := h x hp
    omega
  · rw [Nat.min_eq_right (by omega)]

/-! ## 飛ばしながら調べる -/

theorem getElem?_of_hasAt (h : text.hasAt key x) (hi : i < key.length) : text[x + i]? = some key[i] := by
  induction key generalizing x i with
  | nil => cases hi
  | cons b key ih =>
    simp only [hasAt, Bool.and_eq_true, beq_iff_eq] at h
    cases i with
    | zero => exact h.1
    | succ i =>
      have := ih h.2 (Nat.lt_of_succ_lt_succ hi)
      rwa [show x + 1 + i = x + (i + 1) by omega] at this

theorem getD_of_hasAt (h : text.hasAt key x) (hi : i < key.length) : text.getD (x + i) 0 = key[i] := by
  rw [Array.getD_eq_getD_getElem?, getElem?_of_hasAt h hi]
  rfl

/-- 窓の末尾のバイトが決める幅の内側には、文字列は現れない。 -/
theorem not_hasAt_of_lt_forward (hlt : lo < x)
    (hx : x < lo + (Skip.forward key).width (text.getD (lo + (key.length - 1)) 0)) :
    text.hasAt key x = false := by
  refine Bool.eq_false_iff.2 fun h => ?_
  generalize hb : text.getD (lo + (key.length - 1)) 0 = b at hx
  simp only [Skip.forward] at hx
  have hlen := List.idxOf_le_length (l := key.dropLast.reverse) (a := b)
  simp only [List.length_reverse, List.length_dropLast] at hlen
  have hi : key.length - 1 - (x - lo) < key.length := by omega
  have hkey := getD_of_hasAt h hi
  rw [show x + (key.length - 1 - (x - lo)) = lo + (key.length - 1) by omega, hb] at hkey
  have hskip : x - lo - 1 < key.dropLast.reverse.findIdx (· == b) := by
    change x - lo - 1 < key.dropLast.reverse.idxOf b
    omega
  have hne := List.not_of_lt_findIdx hskip
  simp only [List.getElem_reverse, List.getElem_dropLast, List.length_dropLast, beq_eq_false_iff_ne,
    hkey] at hne
  apply hne
  congr 1
  omega

/-- 窓の先頭のバイトが決める幅の内側には、文字列は現れない。 -/
theorem not_hasAt_of_lt_backward (hlt : x < hi)
    (hx : hi < x + (Skip.backward key).width (text.getD hi 0)) : text.hasAt key x = false := by
  refine Bool.eq_false_iff.2 fun h => ?_
  generalize hb : text.getD hi 0 = b at hx
  simp only [Skip.backward] at hx
  have hlen := List.idxOf_le_length (l := key.tail) (a := b)
  simp only [List.length_tail] at hlen
  have hi' : hi - x < key.length := by omega
  have hkey := getD_of_hasAt h hi'
  rw [show x + (hi - x) = hi by omega, hb] at hkey
  have hskip : hi - x - 1 < key.tail.findIdx (· == b) := by
    change hi - x - 1 < key.tail.idxOf b
    omega
  have hne := List.not_of_lt_findIdx hskip
  simp only [List.getElem_tail, beq_eq_false_iff_ne, hkey] at hne
  apply hne
  congr 1
  omega

theorem leapForward_eq : text.leapForward (.forward key) key last lo =
    firstFrom (text.hasAt key) lo last := by
  fun_induction leapForward (.forward key) text key last lo with
  | case1 lo hle h => exact (firstFrom_eq_some_iff.2 ⟨Nat.le_refl _, hle, h, fun j _ _ => by omega⟩).symm
  | case2 lo hle h ih =>
    rw [ih]
    refine (firstFrom_skip (Nat.le_add_right ..) fun x hlo hx => ?_).symm
    rcases Nat.lt_or_eq_of_le hlo with hlt | rfl
    · exact not_hasAt_of_lt_forward hlt hx
    · simpa using h
  | case3 lo hgt =>
    rw [firstFrom, if_neg hgt]

theorem leapBackward_eq : text.leapBackward (.backward key) .ascii key lo hi =
    lastFrom (text.hasAt key) lo hi := by
  fun_induction leapBackward (.backward key) .ascii text key lo hi with
  | case1 hi hle h => exact (lastFrom_eq_some_iff.2 ⟨hle, Nat.le_refl _, h, fun j _ _ => by omega⟩).symm
  | case2 hi hle h width hlt =>
    refine (lastFrom_eq_none_iff.2 fun x _ hx => ?_).symm
    rcases Nat.lt_or_eq_of_le hx with hx | rfl
    · exact not_hasAt_of_lt_backward hx (by omega)
    · simpa using h
  | case3 hi hle h width hge ih =>
    rw [ih, Encoding.leftAdjust_ascii]
    refine (lastFrom_skip (Nat.sub_le ..) fun x hx hle => ?_).symm
    rcases Nat.lt_or_eq_of_le hle with hlt | rfl
    · exact not_hasAt_of_lt_backward hlt (by omega)
    · simpa using h
  | case4 hi hgt => exact (lastFrom_eq_none_iff.2 fun x _ _ => by omega).symm

/-! ## 集合のバイト -/

theorem memberForward_eq {set : ByteSet} : text.memberForward set .ascii hi lo =
    firstFrom (fun p => (text[p]?).any set.contains) lo hi := by
  fun_induction memberForward set .ascii text hi lo with
  | case1 lo h hc =>
    refine (firstFrom_eq_some_iff.2 ⟨Nat.le_refl _, h.1, ?_, fun j _ _ => by omega⟩).symm
    simp [Array.getElem?_eq_getElem h.2, hc]
  | case2 lo h hc ih =>
    rw [ih, Encoding.nextHead_ascii]
    refine (firstFrom_skip (Nat.le_succ _) fun x hlo hx => ?_).symm
    obtain rfl : x = lo := by omega
    simpa [Array.getElem?_eq_getElem h.2] using hc
  | case3 lo h =>
    refine (firstFrom_eq_none_iff.2 fun x hlo hhi => ?_).symm
    simp [Array.getElem?_eq_none (show text.size ≤ x by omega)]

theorem memberBackward_eq {set : ByteSet} (h : hi < text.size) :
    text.memberBackward set .ascii lo hi = lastFrom (fun p => (text[p]?).any set.contains) lo hi := by
  fun_induction memberBackward set .ascii text lo hi with
  | case1 hi hle hc =>
    refine (lastFrom_eq_some_iff.2 ⟨hle, Nat.le_refl _, ?_, fun j _ _ => by omega⟩).symm
    simpa [Array.getElem?_eq_getElem h, h] using hc
  | case2 hi hle hc q hq ih =>
    simp only [Encoding.prevHead_ascii, Option.ite_none_left_eq_some, Option.some.injEq] at hq
    rw [ih (by omega)]
    refine (lastFrom_skip (by omega) fun x hx hle => ?_).symm
    obtain rfl : x = hi := by omega
    simpa [Array.getElem?_eq_getElem h, h] using hc
  | case3 hi hle hc hq =>
    refine (lastFrom_eq_none_iff.2 fun x _ hx => ?_).symm
    obtain rfl : hi = 0 := by simpa [Encoding.prevHead_ascii] using hq
    obtain rfl := Nat.le_zero.1 hx
    simpa [Array.getElem?_eq_getElem h, h] using hc
  | case4 hi hgt => exact (lastFrom_eq_none_iff.2 fun x _ _ => by omega).symm

end Text

namespace Finder

/-- 探すものが `p` に現れる。 -/
def hits (f : Finder) (fold : FoldTable) (text : Text) (p : Nat) : Bool :=
  match f with
  | .nothing => false
  | .exact key => text.hasAt key p
  | .leaping key => text.hasAt key p
  | .folded key => text.hasFoldedAt fold key p
  | .member set => (text[p]?).any set.contains

variable {f : Finder} {fold : FoldTable} {text : Text} {start limit : Nat}

theorem lastStart?_bind {n : Nat} {p : Nat → Bool} {g : Nat → Option Nat} {r : Option Nat}
    (hp : ∀ x, p x → x + n ≤ text.size) (hnone : (∀ x, p x = false) → r = none)
    (hsome : (∀ x, p x → x ≤ text.size - n) → g (text.size - n) = r) :
    (text.lastStart? n).bind g = r := by
  unfold Text.lastStart?
  split
  · rw [Option.bind_some]
    exact hsome fun x hx => Nat.le_sub_of_add_le (hp x hx)
  · refine (hnone fun x => Bool.eq_false_iff.2 fun hx => ?_).symm
    have := hp x hx
    omega

/-- 前から探すと、現れる最初の位置が見つかる。 -/
theorem forward_ascii : f.forward .ascii fold text start limit =
    Text.firstFrom (f.hits fold text) start limit := by
  cases f with
  | nothing => exact (Text.firstFrom_eq_none_iff.2 fun _ _ _ => rfl).symm
  | member set => exact Text.memberForward_eq
  | exact key =>
    refine lastStart?_bind (p := text.hasAt key) (fun x => Text.hasAt_le) (fun h => ?_) fun h => ?_
    · exact Text.firstFrom_eq_none_iff.2 fun x _ _ => h x
    · exact Text.firstFrom_min h
  | leaping key =>
    refine lastStart?_bind (p := text.hasAt key) (fun x => Text.hasAt_le) (fun h => ?_) fun h => ?_
    · exact Text.firstFrom_eq_none_iff.2 fun x _ _ => h x
    · rw [Text.leapForward_eq]
      exact Text.firstFrom_min h
  | folded key =>
    refine lastStart?_bind (p := text.hasFoldedAt fold key) (fun x => Text.hasFoldedAt_le)
      (fun h => ?_) fun h => ?_
    · exact Text.firstFrom_eq_none_iff.2 fun x _ _ => h x
    · exact Text.firstFrom_min h

/-- 後ろから探すと、現れる最後の位置が見つかる。 -/
theorem backward_ascii : f.backward .ascii fold text start limit =
    Text.lastFrom (f.hits fold text) limit start := by
  cases f with
  | nothing => exact (Text.lastFrom_eq_none_iff.2 fun _ _ _ => rfl).symm
  | member set =>
    have houtside : ∀ x, text.size ≤ x → (Finder.member set).hits fold text x = false := fun x hx => by
      simp [hits, Array.getElem?_eq_none hx]
    unfold backward
    dsimp only
    split
    · rename_i hle
      rw [Encoding.prevHead_ascii]
      split
      · refine (Text.lastFrom_eq_none_iff.2 fun x _ _ => houtside x ?_).symm
        omega
      · rw [Option.bind_some, Text.memberBackward_eq (by omega)]
        exact (Text.lastFrom_skip (by omega) fun x hx _ => houtside x (by omega)).symm
    · exact Text.memberBackward_eq (by omega)
  | exact key =>
    refine lastStart?_bind (p := text.hasAt key) (fun x => Text.hasAt_le) (fun h => ?_) fun h => ?_
    · exact Text.lastFrom_eq_none_iff.2 fun x _ _ => h x
    · exact Text.lastFrom_min h
  | leaping key =>
    refine lastStart?_bind (p := text.hasAt key) (fun x => Text.hasAt_le) (fun h => ?_) fun h => ?_
    · exact Text.lastFrom_eq_none_iff.2 fun x _ _ => h x
    · rw [Text.leapBackward_eq]
      exact Text.lastFrom_min h
  | folded key =>
    refine lastStart?_bind (p := text.hasFoldedAt fold key) (fun x => Text.hasFoldedAt_le)
      (fun h => ?_) fun h => ?_
    · exact Text.lastFrom_eq_none_iff.2 fun x _ _ => h x
    · exact Text.lastFrom_min h

end Finder
end MultibyteRegex

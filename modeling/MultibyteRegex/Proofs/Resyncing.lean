import MultibyteRegex.Proofs.Overflow
import MultibyteRegex.Proofs.Substring

/-!
# 切れ目を飛ばさずに候補を並べること

本文が文字を並べたものなら、切れ目から一文字ずつ進む候補は、以後の切れ目を一つも飛ばさない。UTF-8 では、文字の途中
からでも次の切れ目に揃う。他の多バイトの符号化では、途中から進むと切れ目を外し続けうるが、文字列を探す候補は、
見つけるたびに切れ目へ揃え直す。
-/

namespace MultibyteRegex

/-! ## 一文字ずつ進む -/

namespace Encoding

variable {e : Encoding} {text : Text} {c d hi x y : Nat}

/-- `c` から一文字ずつ進むと、`c` から先の切れ目をすべて通る。 -/
def Meets (e : Encoding) (text : Text) (c : Nat) : Prop :=
  ∀ x, e.Head text x → c ≤ x → ∃ k, (e.nextHead text)^[k] c = x

theorem Head.meets (h : e.Head text c) : e.Meets text c := by
  obtain ⟨-, j, rfl⟩ := h
  rintro x ⟨-, k, rfl⟩ hle
  have hjk : j ≤ k := Nat.le_of_not_lt fun hlt => Nat.not_lt.2 hle (iterate_lt hlt)
  exact ⟨k - j, by rw [← Function.iterate_add_apply, Nat.sub_add_cancel hjk]⟩

theorem meets_of_size_lt (h : text.size < c) : e.Meets text c :=
  fun _ hx hle => absurd (Nat.le_trans hle hx.le) (Nat.not_le.2 h)

namespace Meets

theorem nextHead_le (h : e.Meets text c) (hx : e.Head text x) (hlt : c < x) : e.nextHead text c ≤ x := by
  obtain ⟨k, rfl⟩ := h x hx (Nat.le_of_lt hlt)
  cases k with
  | zero => exact absurd hlt (Nat.lt_irrefl _)
  | succ k =>
    rw [Function.iterate_succ_apply]
    exact Nat.le_trans (Nat.le_add_right ..) (add_le_iterate k)

theorem next (h : e.Meets text c) : e.Meets text (e.nextHead text c) := by
  intro x hx hle
  have hlt := lt_nextHead e text c
  obtain ⟨k, hk⟩ := h x hx (by omega)
  cases k with
  | zero =>
    obtain rfl : c = x := hk
    omega
  | succ k => exact ⟨k, by rwa [Function.iterate_succ_apply] at hk⟩

theorem max (h : e.Meets text c) (h' : e.Meets text d) : e.Meets text (max c d) := by
  rcases Nat.le_total c d with hle | hle
  · rwa [Nat.max_eq_right hle]
  · rwa [Nat.max_eq_left hle]

theorem mem_headsUp (h : e.Meets text c) (hx : e.Head text x) (hcx : c ≤ x) (hxhi : x ≤ hi) :
    x ∈ (e.headsUp text hi c).1 := by
  fun_induction headsUp e text hi c with
  | case1 c hle rest next hr ih =>
    rw [hr] at ih
    rcases Nat.lt_or_eq_of_le hcx with hlt | rfl
    · exact List.mem_cons_of_mem _ (ih h.next (h.nextHead_le hx hlt))
    · exact List.mem_cons_self
  | case2 c hgt => omega

/-- 切れ目を辿った先は、`hi` より先の切れ目を越えない。 -/
theorem headsUp_le (h : e.Meets text c) (hx : e.Head text x) (hcx : c ≤ x) (hxhi : hi < x) :
    (e.headsUp text hi c).2 ≤ x := by
  fun_induction headsUp e text hi c with
  | case1 c hle rest next hr ih =>
    rw [hr] at ih
    exact ih h.next (h.nextHead_le hx (by omega))
  | case2 c hgt => exact hcx

theorem headsUp_snd (h : e.Meets text c) : e.Meets text (e.headsUp text hi c).2 := by
  fun_induction headsUp e text hi c with
  | case1 c hle rest next hr ih =>
    rw [hr] at ih
    exact ih h.next
  | case2 c hgt => exact h

end Meets

theorem headsUp_sorted : (e.headsUp text hi c).1.Pairwise (· < ·) := by
  fun_induction headsUp e text hi c with
  | case1 c hle rest next hr ih =>
    rw [hr] at ih
    refine List.pairwise_cons.2 ⟨fun y hy => ?_, ih⟩
    have hmem : y ∈ (e.headsUp text hi (e.nextHead text c)).1 := by rwa [hr]
    exact Nat.lt_of_lt_of_le (lt_nextHead e text c) (ge_of_mem_headsUp hmem)
  | case2 => exact .nil

theorem exists_iterate_of_mem_headsUp (h : x ∈ (e.headsUp text hi c).1) :
    ∃ k, (e.nextHead text)^[k] c = x := by
  fun_induction headsUp e text hi c with
  | case1 c hle rest next hr ih =>
    rw [hr] at ih
    rcases List.mem_cons.1 h with rfl | h
    · exact ⟨0, rfl⟩
    · obtain ⟨k, hk⟩ := ih h
      exact ⟨k + 1, by rwa [Function.iterate_succ_apply]⟩
  | case2 => cases h

/-- 一つでも切れ目を過ぎれば、その先は切れ目だけを辿る。 -/
theorem Meets.head_of_mem (h : e.Meets text c) (hhi : hi ≤ text.size) (hx : x ∈ (e.headsUp text hi c).1)
    (hy : e.Head text y) (hcy : c ≤ y) (hyx : y ≤ x) : e.Head text x := by
  have hxhi := le_of_mem_headsUp hx
  obtain ⟨k, rfl⟩ := exists_iterate_of_mem_headsUp hx
  obtain ⟨j, rfl⟩ := h y hy hcy
  have hjk : j ≤ k := Nat.le_of_not_lt fun hlt => Nat.not_lt.2 hyx (iterate_lt hlt)
  obtain ⟨-, i, hi⟩ := hy
  refine ⟨Nat.le_trans hxhi hhi, k - j + i, ?_⟩
  rw [Function.iterate_add_apply, hi, ← Function.iterate_add_apply, Nat.sub_add_cancel hjk]

theorem rightAdjust_of_size_le (h : text.size ≤ d) : e.rightAdjust text d = d := by
  simp [rightAdjust, leftAdjust, h]

section

variable (hw : e.isWellFormed text.toList)
include hw

theorem head_size : e.Head text text.size := by
  rcases Nat.eq_zero_or_pos text.size with h | h
  · rw [h]
    exact .zero
  · obtain ⟨p, hp, hle, hlt⟩ := exists_head hw (show text.size - 1 < text.size by omega)
    have hnext := hp.next hw (by omega)
    have := hnext.le
    rwa [show e.nextHead text p = text.size by omega] at hnext

/-- 揃えた先は、後ろにある最初の切れ目である。 -/
theorem head_rightAdjust (h : d ≤ text.size) : e.Head text (e.rightAdjust text d) ∧ d ≤ e.rightAdjust text d := by
  rcases Nat.lt_or_eq_of_le h with hlt | rfl
  · obtain ⟨hhead, hle, hnext⟩ := leftAdjust_starts hw hlt
    unfold rightAdjust
    dsimp only
    split
    · exact ⟨hhead.next hw (by omega), Nat.le_of_lt hnext⟩
    · rw [show e.leftAdjust text 0 d = d by omega] at hhead
      exact ⟨hhead, Nat.le_refl d⟩
  · rw [rightAdjust_of_size_le (Nat.le_refl _)]
    exact ⟨head_size hw, Nat.le_refl _⟩

theorem le_rightAdjust : d ≤ e.rightAdjust text d := by
  rcases Nat.le_total d text.size with h | h
  · exact (head_rightAdjust hw h).2
  · exact Nat.le_of_eq (rightAdjust_of_size_le h).symm

theorem meets_rightAdjust : e.Meets text (e.rightAdjust text d) := by
  rcases Nat.lt_or_ge text.size d with hlt | hle
  · rw [rightAdjust_of_size_le (Nat.le_of_lt hlt)]
    exact meets_of_size_lt hlt
  · exact (head_rightAdjust hw hle).1.meets

end

/-! ## 文字の途中から -/

theorem width_of_isUtf8Trail {b : UInt8} (h : isUtf8Trail b) : Encoding.utf8.width b = 1 := by
  simp only [isUtf8Trail, Bool.and_eq_true, decide_eq_true_eq] at h
  simp [width, h.2]

/-- UTF-8 の先頭でないバイトからは、一バイトだけ進む。 -/
theorem nextHead_of_isUtf8Trail (hlt : c < text.size) (h : isUtf8Trail (text.getD c 0)) :
    Encoding.utf8.nextHead text c = c + 1 := by
  have hget : text.getD c 0 = text[c] := by simp [Array.getD, hlt]
  have hwidth := width_of_isUtf8Trail (hget ▸ h)
  rw [nextHead_eq _ hlt, lengthAt, Array.getElem?_eq_getElem hlt]
  dsimp only
  omega

theorem isUtf8Trail_of_not_head (hw : Encoding.utf8.isWellFormed text.toList) (hlt : c < text.size)
    (hc : ¬Encoding.utf8.Head text c) : isUtf8Trail (text.getD c 0) :=
  Classical.byContradiction fun h => hc (head_of_not_isTrail hw hlt h)

/-- UTF-8 では、どこからでも切れ目に揃う。 -/
theorem meets_utf8 (hw : Encoding.utf8.isWellFormed text.toList) (c : Nat) : Encoding.utf8.Meets text c := by
  by_cases hc : Encoding.utf8.Head text c
  · exact hc.meets
  intro x hx hle
  have hcx : c < x := Nat.lt_of_le_of_ne hle fun h => hc (h ▸ hx)
  have hlt : c < text.size := Nat.lt_of_lt_of_le hcx hx.le
  obtain ⟨k, hk⟩ := meets_utf8 hw (c + 1) x hx hcx
  exact ⟨k + 1, by rw [Function.iterate_succ_apply, nextHead_of_isUtf8Trail hlt (isUtf8Trail_of_not_head hw hlt hc), hk]⟩
termination_by text.size - c

end Encoding

/-! ## 探すものを見つける -/

namespace Text

variable {e : Encoding} {text : Text} {set : ByteSet} {limit p i x : Nat}

theorem not_contains_of_memberForward (h : e.Meets text p) (hnone : text.memberForward set e limit p = none)
    (hx : e.Head text x) (hpx : p ≤ x) (hxl : x ≤ limit) : ¬(text[x]?).any set.contains := by
  fun_induction memberForward set e text limit p with
  | case1 => cases hnone
  | case2 p hp hout ih =>
    rcases Nat.lt_or_eq_of_le hpx with hlt | rfl
    · exact ih h.next hnone (h.nextHead_le hx hlt)
    · simpa [Array.getElem?_eq_getElem hp.2] using hout
  | case3 p hp =>
    have hsize : text.size ≤ x := by omega
    simp [Array.getElem?_eq_none hsize]

/-- 集合のバイトから始まるどの文字よりも先へは飛ばない。 -/
theorem memberForward_le (h : e.Meets text p) (hsome : text.memberForward set e limit p = some i)
    (hx : e.Head text x) (hpx : p ≤ x) (hset : (text[x]?).any set.contains) : i ≤ x := by
  fun_induction memberForward set e text limit p with
  | case1 =>
    cases hsome
    exact hpx
  | case2 p hp hout ih =>
    rcases Nat.lt_or_eq_of_le hpx with hlt | rfl
    · exact ih h.next hsome (h.nextHead_le hx hlt)
    · simp [Array.getElem?_eq_getElem hp.2, hout] at hset
  | case3 => cases hsome

end Text

namespace Finder

/-- 文字列を探す。 -/
def isKey : Finder → Bool
  | .exact _ | .leaping _ | .folded _ => true
  | .nothing | .member _ => false

variable {f : Finder} {e : Encoding} {fold : FoldTable} {text : Text} {start limit i : Nat}

/-- 文字列は、符号化によらず、現れる最初の位置に見つかる。 -/
theorem forward_of_isKey (h : f.isKey) :
    f.forward e fold text start limit = Text.firstFrom (f.hits fold text) start limit := by
  cases f with
  | nothing | member => cases h
  | exact key => exact forward_ascii (f := .exact key)
  | leaping key => exact forward_ascii (f := .leaping key)
  | folded key => exact forward_ascii (f := .folded key)

theorem isNothing_of_isKey (h : f.isKey) : f.isNothing = false := by
  cases f with
  | nothing | member => cases h
  | _ => rfl

theorem isKey_or_member (h : f.isNothing = false) : f.isKey ∨ ∃ set, f = .member set := by
  cases f with
  | nothing => cases h
  | member set => exact .inr ⟨set, rfl⟩
  | _ => exact .inl rfl

end Finder

/-! ## 候補 -/

namespace Quarry

variable {q : Quarry} {lo hi s n p x : Nat}

/-- `s` から探しても、その先の切れ目を見逃さない。 -/
def Follows (q : Quarry) (s : Nat) : Prop :=
  q.plan.finder.isKey ∨
    (∃ set, q.plan.finder = .member set) ∧ q.plan.distance = .zero ∧ q.encoding.Meets q.text s

namespace Follows

theorem next (h : q.Follows s) (hn : q.encoding.Meets q.text n) : q.Follows n :=
  h.imp_right fun ⟨hset, hzero, _⟩ => ⟨hset, hzero, hn⟩

theorem not_near (h : q.Follows s) (hx : q.encoding.Head q.text x) (hsx : s ≤ x) (hxhi : x ≤ hi)
    (hnone : q.plan.finder.forward q.encoding q.fold q.text (s + q.plan.distance.min) (q.reach hi) = none) :
    ¬q.Near x := by
  rintro ⟨p, hmin, hfar, hp⟩
  have hreach := le_reach hxhi hfar (hits_le hp)
  rcases h with hkey | ⟨⟨set, hset⟩, hzero, hmeets⟩
  · rw [Finder.forward_of_isKey hkey, Text.firstFrom_eq_none_iff] at hnone
    rw [hnone p (by omega) hreach] at hp
    cases hp
  · have hpx : p = x := by
      have := hfar 0 (by rw [hzero]; rfl)
      omega
    subst hpx
    rw [hset] at hp hnone
    rw [hzero] at hnone
    exact Text.not_contains_of_memberForward hmeets hnone hx hsx hreach hp

/-- 見つかった所は、近くに探すものが現れる切れ目を飛び越えない。 -/
theorem earliest_le (h : q.Follows s) (hx : q.encoding.Head q.text x) (hsx : s ≤ x) (hnear : q.Near x)
    (hp : q.plan.finder.forward q.encoding q.fold q.text (s + q.plan.distance.min) (q.reach hi) = some p) :
    q.earliest s p ≤ x := by
  obtain ⟨p', hmin, hfar, hp'⟩ := hnear
  refine earliest_le_of_near hfar hsx ?_
  rcases h with hkey | ⟨⟨set, hset⟩, hzero, hmeets⟩
  · rw [Finder.forward_of_isKey hkey, Text.firstFrom_eq_some_iff] at hp
    refine Nat.le_of_not_lt fun hlt => ?_
    rw [hp.2.2.2 p' (by omega) hlt] at hp'
    cases hp'
  · have hpx : p' = x := by
      have := hfar 0 (by rw [hzero]; rfl)
      omega
    subst hpx
    rw [hset] at hp hp'
    rw [hzero] at hp
    exact Text.memberForward_le hmeets hp hx hsx hp'

end Follows

/-- 前からの候補は切れ目だけを小さい順に並べ、近くに探すものが現れる切れ目をすべて含む。 -/
theorem forward_heads (hw : q.encoding.isWellFormed q.text.toList) (hhi : hi ≤ q.text.size) (h : q.Follows s) :
    (q.forward hi s).Pairwise (· < ·) ∧
      (∀ x ∈ q.forward hi s, (s ≤ x ∧ x ≤ hi) ∧ q.encoding.Head q.text x) ∧
      ∀ x, q.encoding.Head q.text x → s ≤ x → x ≤ hi → q.Near x → x ∈ q.forward hi s := by
  fun_induction forward q hi s with
  | case1 s hs hnone =>
    exact ⟨.nil, by simp, fun x hx hsx hxhi hnear => absurd hnear (h.not_near hx hsx hxhi hnone)⟩
  | case2 s hs p hp high heads ih =>
    -- 見つかった所の始まりの下限を切れ目に揃え、そこから切れ目を辿る
    let c := q.encoding.rightAdjust q.text (q.earliest s p)
    have hmeets : q.encoding.Meets q.text c := Encoding.meets_rightAdjust hw
    have hsc : s ≤ c := Nat.le_trans le_earliest (Encoding.le_rightAdjust hw)
    have hgt : high < heads.2 := Encoding.headsUp_gt ..
    have hhigh : high ≤ hi := Nat.min_le_right ..
    have hshigh : s ≤ high := Nat.le_min.2 ⟨Nat.le_sub_of_add_le (Finder.forward_ge hp), hs⟩
    have hhead : ∀ x ∈ heads.1, (s ≤ x ∧ x ≤ high) ∧ q.encoding.Head q.text x := fun x hx => by
      have hcx : c ≤ x := Encoding.ge_of_mem_headsUp hx
      have hxhigh : x ≤ high := Encoding.le_of_mem_headsUp hx
      have hle : q.earliest s p ≤ c := Encoding.le_rightAdjust hw
      have hhead : q.encoding.Head q.text c := (Encoding.head_rightAdjust hw (by omega)).1
      exact ⟨⟨by omega, hxhigh⟩, hmeets.head_of_mem (by omega) hx hhead (Nat.le_refl c) hcx⟩
    obtain ⟨hsorted, hwithin, hmem⟩ := ih (h.next ((Encoding.meets_rightAdjust hw).max hmeets.headsUp_snd))
    refine ⟨List.pairwise_append.2 ⟨Encoding.headsUp_sorted, hsorted, fun x hx y hy => ?_⟩, fun x hx => ?_,
      fun x hx hsx hxhi hnear => ?_⟩
    · have := (hhead x hx).1
      have := (hwithin y hy).1
      omega
    · rcases List.mem_append.1 hx with hx | hx
      · have := hhead x hx
        exact ⟨by omega, this.2⟩
      · have := hwithin x hx
        exact ⟨by omega, this.2⟩
    · have hcx : c ≤ x := hx.rightAdjust_le hw (h.earliest_le hx hsx hnear hp)
      rw [List.mem_append]
      by_cases hxhigh : x ≤ high
      · exact .inl (hmeets.mem_headsUp hx hcx hxhigh)
      · have hlt : high < x := Nat.lt_of_not_le hxhigh
        exact .inr (hmem x hx (Nat.max_le.2 ⟨hx.rightAdjust_le hw hlt, hmeets.headsUp_le hx hcx hlt⟩) hxhi hnear)
  | case3 s hgt => exact ⟨.nil, by simp, fun x _ hsx hxhi _ => by omega⟩

/-- 前への検索で並べる位置。探すものがあって範囲が一点でなければ飛ばしながら、そうでなければ一文字ずつ並べる。 -/
def upward (q : Quarry) (w : Nat × Nat) : List Nat :=
  if !q.plan.finder.isNothing && w.1 != w.2 then q.forward w.2 w.1 else (q.encoding.headsUp q.text w.2 w.1).1

theorem candidates_forward {start range : Nat} {w : Nat × Nat} (hle : start ≤ range)
    (hwindow : q.plan.window? q.text start start range = some w) : q.candidates start range =
      if q.plan.edges.anyStar then (q.upward w).filter (q.isLineHead start) else q.upward w := by
  unfold candidates upward
  simp only [Nat.min_eq_left hle, Nat.max_eq_right hle, hwindow, if_neg (Nat.not_lt.2 hle)]

/-- 下端から切れ目を飛ばさない候補は小さい順に並び、切れ目を過ぎれば切れ目だけからなり、探すものの近くの切れ目を
すべて含む。 -/
theorem candidates_meets {start range : Nat} {w : Nat × Nat} (hw : q.encoding.isWellFormed q.text.toList)
    (hle : start ≤ range) (hwindow : q.plan.window? q.text start start range = some w)
    (hsize : w.2 ≤ q.text.size) (hstar : q.plan.edges.anyStar = false)
    (hmember : ∀ set, q.plan.finder = .member set → q.plan.distance = .zero)
    (hmeets : q.encoding.Meets q.text w.1) :
    (q.candidates start range).Pairwise (· < ·) ∧
      (∀ x ∈ q.candidates start range, (w.1 ≤ x ∧ x ≤ w.2) ∧
        ∀ y, q.encoding.Head q.text y → w.1 ≤ y → y ≤ x → q.encoding.Head q.text x) ∧
      ∀ x, q.encoding.Head q.text x → w.1 ≤ x → x ≤ w.2 → (q.plan.finder ≠ .nothing → q.Near x) →
        x ∈ q.candidates start range := by
  rw [candidates_forward hle hwindow, if_neg (ne_true_of_eq_false hstar), upward]
  by_cases hkeyed : (!q.plan.finder.isNothing && w.1 != w.2) = true
  · rw [if_pos hkeyed]
    simp only [Bool.and_eq_true, Bool.not_eq_true'] at hkeyed
    have hfollows : q.Follows w.1 := by
      rcases Finder.isKey_or_member hkeyed.1 with hkey | ⟨set, hset⟩
      · exact .inl hkey
      · exact .inr ⟨⟨set, hset⟩, hmember set hset, hmeets⟩
    obtain ⟨hsorted, hheads, hmem⟩ := forward_heads hw hsize hfollows
    refine ⟨hsorted, fun x hx => ⟨(hheads x hx).1, fun _ _ _ _ => (hheads x hx).2⟩,
      fun x hx hlo hhi hnear => hmem x hx hlo hhi (hnear fun hnothing => ?_)⟩
    rw [hnothing] at hkeyed
    cases hkeyed.1
  · rw [if_neg hkeyed]
    exact ⟨Encoding.headsUp_sorted,
      fun x hx => ⟨⟨Encoding.ge_of_mem_headsUp hx, Encoding.le_of_mem_headsUp hx⟩,
        fun y hy hwy hyx => hmeets.head_of_mem hsize hx hy hwy hyx⟩,
      fun x hx hlo hhi _ => hmeets.mem_headsUp hx hlo hhi⟩

/-- 文字列を探す候補は、下端が文字の途中でも、切れ目だけを小さい順に並べ、文字列の近くの切れ目をすべて含む。 -/
theorem candidates_isKey {start range : Nat} {w : Nat × Nat} (hw : q.encoding.isWellFormed q.text.toList)
    (hle : start ≤ range) (hwindow : q.plan.window? q.text start start range = some w)
    (hsize : w.2 ≤ q.text.size) (hstar : q.plan.edges.anyStar = false) (hkey : q.plan.finder.isKey)
    (hne : w.1 ≠ w.2) :
    (q.candidates start range).Pairwise (· < ·) ∧
      (∀ x ∈ q.candidates start range, (w.1 ≤ x ∧ x ≤ w.2) ∧ q.encoding.Head q.text x) ∧
      ∀ x, q.encoding.Head q.text x → w.1 ≤ x → x ≤ w.2 → q.Near x → x ∈ q.candidates start range := by
  rw [candidates_forward hle hwindow, if_neg (ne_true_of_eq_false hstar), upward,
    if_pos (by simp [Finder.isNothing_of_isKey hkey, hne])]
  exact forward_heads hw hsize (.inl hkey)

end Quarry
end MultibyteRegex

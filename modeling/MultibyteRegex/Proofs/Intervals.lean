import Mathlib.Algebra.GroupWithZero.Nat
import MultibyteRegex.Proofs.Bounds

/-!
# 区間の計算

下端は `maxSize` で頭打ちになり、上端は越えると消える。それでも、どの計算も下端と上端を逆転させず、入っていた
数の和を落とさない。和は結合的で、掛け算は足し算の繰り返しである。
-/

namespace MultibyteRegex
namespace Interval

/-- 上端があれば、下端はそれを越えない。 -/
def Ordered (a : Interval) : Prop := ∀ u ∈ a.max, a.min ≤ u

/-- 逆転せず、両端が `maxSize` を越えない。 -/
structure Valid (a : Interval) : Prop where
  ordered : a.Ordered
  min_le : a.min ≤ maxSize
  max_le : ∀ u ∈ a.max, u ≤ maxSize

variable {a b : Interval} {lower n x y : Nat} {upper : Option Nat}

theorem bounded?_le {m : Nat} (h : bounded? n = some m) : m ≤ maxSize := by
  simp only [bounded?, Option.ite_none_right_eq_some, Option.some.injEq] at h
  omega

/-- 途中で越えた和は、足し続けても越えている。 -/
theorem bounded?_bind_add : ((bounded? x).bind fun s => bounded? (s + y)) = bounded? (x + y) := by
  unfold bounded?
  by_cases h : x ≤ maxSize
  · simp [h]
  · simp [h, show ¬x + y ≤ maxSize by omega]

/-! ## 上端 -/

theorem add_max (a b : Interval) :
    (a.add b).max = a.max.bind fun x => b.max.bind fun y => bounded? (x + y) := by
  simp only [add]
  cases a.max <;> cases b.max <;> rfl

theorem times_max_of_some (h : a.max = some x) : (a.times lower (some n)).max = bounded? (x * n) := by
  cases x with
  | zero => simp [times, h, bounded?]
  | succ x => cases n <;> simp [times, h, bounded?]

theorem times_max_of_none (h : a.max = none) (hn : n ≠ 0) : (a.times lower (some n)).max = none := by
  cases n with
  | zero => exact absurd rfl hn
  | succ n => simp [times, h]

/-! ## 逆転しない -/

/-- 入る数のある区間は逆転していない。 -/
theorem Contains.ordered (h : a.Contains x) : a.Ordered := fun u hu => Nat.le_trans h.1 (h.2 u hu)

/-- 区間に入る数を並べた和は、個数だけ足したものである。 -/
theorem totals_sum {xs : List Nat} (h : ∀ x ∈ xs, a.Contains x) : a.Totals xs.length xs.sum := by
  induction xs with
  | nil => exact .nil
  | cons x xs ih =>
    rw [List.sum_cons]
    exact .cons (h x List.mem_cons_self) (ih fun y hy => h y (List.mem_cons_of_mem _ hy))

/-- 区間に入る数を `lower` 個から `upper` 個まで並べた和は、掛けた区間に入る。 -/
theorem contains_times {xs : List Nat} (h : ∀ x ∈ xs, a.Contains x) (hl : lower ≤ xs.length)
    (hu : ∀ u ∈ upper, xs.length ≤ u) : (a.times lower upper).Contains xs.sum :=
  (totals_sum h).times hl hu

namespace Ordered

theorem contains_min (h : a.Ordered) : a.Contains a.min := ⟨Nat.le_refl _, h⟩

theorem add (ha : a.Ordered) (hb : b.Ordered) : (a.add b).Ordered := (ha.contains_min.add hb.contains_min).ordered

theorem hull (ha : a.Ordered) (b : Interval) : (a.hull b).Ordered := ha.contains_min.hull_left.ordered

theorem times (ha : a.Ordered) (hl : ∀ u ∈ upper, lower ≤ u) : (a.times lower upper).Ordered := by
  have hmin : (a.times lower upper).Contains (List.replicate lower a.min).sum :=
    contains_times (fun x hx => List.eq_of_mem_replicate hx ▸ ha.contains_min) (by simp) (by simpa using hl)
  exact hmin.ordered

/-- 上端があれば、幅は引き算で求まる。 -/
theorem width?_eq (h : a.Ordered) : a.width? = a.max.map (· - a.min) := by
  cases hm : a.max with
  | none => simp [width?, hm]
  | some u => simp [width?, hm, h u hm]

end Ordered

namespace Valid

theorem add (ha : a.Valid) (hb : b.Valid) : (a.add b).Valid := by
  refine ⟨ha.ordered.add hb.ordered, Nat.min_le_right .., fun u hu => ?_⟩
  simp only [add_max, Option.mem_def, Option.bind_eq_some_iff] at hu
  obtain ⟨x, -, y, -, hu⟩ := hu
  exact bounded?_le hu

theorem hull (ha : a.Valid) (hb : b.Valid) : (a.hull b).Valid := by
  refine ⟨ha.ordered.hull b, Nat.le_trans (Nat.min_le_left ..) ha.min_le, fun u hu => ?_⟩
  simp only [Interval.hull] at hu
  split at hu
  · rename_i x y hx hy
    cases hu
    exact Nat.max_le.2 ⟨ha.max_le x hx, hb.max_le y hy⟩
  · cases hu

theorem times (ha : a.Valid) (hl : ∀ u ∈ upper, lower ≤ u) : (a.times lower upper).Valid := by
  refine ⟨ha.ordered.times hl, Nat.min_le_right .., fun u hu => ?_⟩
  simp only [Interval.times] at hu
  split at hu
  · cases hu
    decide
  · cases hu
    decide
  · exact bounded?_le hu
  · cases hu

end Valid

/-! ## 和の結合と繰り返し -/

theorem ext_ends (hmin : a.min = b.min) (hmax : a.max = b.max) : a = b := by
  cases a
  cases b
  simp_all

theorem add_assoc (a b c : Interval) : (a.add b).add c = a.add (b.add c) := by
  refine ext_ends (by simp only [add, satAdd]; omega) ?_
  simp only [add_max]
  cases a.max with
  | none => rfl
  | some x =>
    cases b.max with
    | none => rfl
    | some y =>
      cases c.max with
      | none => simp
      | some z =>
        have hright : ((bounded? (y + z)).bind fun s => bounded? (x + s)) = bounded? (x + (y + z)) := by
          simp only [Nat.add_comm x]
          exact bounded?_bind_add
        simpa [Nat.add_assoc] using bounded?_bind_add.trans (by rw [Nat.add_assoc, ← hright])

theorem times_zero (a : Interval) : a.times 0 (some 0) = zero := by
  refine ext_ends (by simp [times, satMul, zero, fixed]) ?_
  cases h : a.max with
  | none => simp [times, h, zero, fixed]
  | some x => simp [times_max_of_some h, bounded?, zero, fixed]

/-- もう一つ足すと、個数が一つ増える。 -/
theorem times_succ (a : Interval) (n : Nat) :
    (a.times n (some n)).add a = a.times (n + 1) (some (n + 1)) := by
  refine ext_ends (by simp only [add, times, satAdd, satMul, Nat.mul_succ]; omega) ?_
  cases hx : a.max with
  | none => simp [add_max, hx, times_max_of_none hx (Nat.succ_ne_zero n)]
  | some x =>
    rw [add_max, times_max_of_some hx, times_max_of_some hx, hx, Nat.mul_succ]
    simpa using bounded?_bind_add

theorem times_eq_foldl (a : Interval) (n : Nat) :
    a.times n (some n) = (List.replicate n a).foldl add zero := by
  induction n with
  | zero => exact times_zero a
  | succ n ih =>
    rw [List.replicate_succ', List.foldl_append, ← ih, List.foldl_cons, List.foldl_nil, times_succ]

/-- どの計算の答えも逆転せず、幅は引き算で求まる。和、どちらかの数、並べた和は、それぞれの区間に入る。和は結合的で、
ちょうど `n` 個の掛け算は `n` 回の足し算である。 -/
theorem operations_sound (ha : a.Valid) (hb : b.Valid) :
    (∀ r, r = a.add b ∨ r = a.hull b ∨
        (∃ lower upper, (∀ u ∈ upper, lower ≤ u) ∧ r = a.times lower upper) →
      r.Valid ∧ r.width? = r.max.map (· - r.min)) ∧
    (∀ x y, a.Contains x → b.Contains y → (a.add b).Contains (x + y)) ∧
    (∀ x, a.Contains x ∨ b.Contains x → (a.hull b).Contains x) ∧
    (∀ lower upper (xs : List Nat), (∀ x ∈ xs, a.Contains x) → lower ≤ xs.length → (∀ u ∈ upper, xs.length ≤ u) →
      (a.times lower upper).Contains xs.sum) ∧
    (∀ c, (a.add b).add c = a.add (b.add c)) ∧
    ∀ n, a.times n (some n) = (List.replicate n a).foldl add zero := by
  have hvalid : ∀ r, r = a.add b ∨ r = a.hull b ∨
      (∃ lower upper, (∀ u ∈ upper, lower ≤ u) ∧ r = a.times lower upper) → r.Valid := by
    rintro r (rfl | rfl | ⟨lower, upper, hl, rfl⟩)
    · exact ha.add hb
    · exact ha.hull hb
    · exact ha.times hl
  refine ⟨fun r hr => ⟨hvalid r hr, (hvalid r hr).ordered.width?_eq⟩, fun x y hx hy => hx.add hy, ?_,
    fun lower upper xs => contains_times, add_assoc a b, times_eq_foldl a⟩
  rintro x (hx | hx)
  · exact hx.hull_left
  · exact hx.hull_right

/-- 上端が越えて消え、下端が頭打ちになる例。 -/
theorem operations_sound_saturated :
    Valid ⟨maxSize - 1, some maxSize⟩ ∧ Valid ⟨0, some 1⟩ ∧
      add ⟨maxSize - 1, some maxSize⟩ ⟨0, some 1⟩ = ⟨maxSize - 1, none⟩ ∧
      times ⟨maxSize - 1, some maxSize⟩ 2 (some 3) = ⟨maxSize, none⟩ ∧
      Valid ⟨maxSize - 1, none⟩ ∧ Contains ⟨maxSize - 1, none⟩ (maxSize - 1 + 1) ∧ Valid ⟨maxSize, none⟩ ∧
      Contains ⟨maxSize, none⟩ [maxSize - 1, maxSize].sum ∧
      times ⟨maxSize - 1, some maxSize⟩ 2 (some 2) =
        add (add zero ⟨maxSize - 1, some maxSize⟩) ⟨maxSize - 1, some maxSize⟩ := by
  have ha : Valid ⟨maxSize - 1, some maxSize⟩ := ⟨by simp [Ordered], by simp, by simp⟩
  have hb : Valid ⟨0, some 1⟩ := ⟨by simp [Ordered], by simp, by simp [maxSize]⟩
  have hadd : add ⟨maxSize - 1, some maxSize⟩ ⟨0, some 1⟩ = ⟨maxSize - 1, none⟩ := by decide
  have htimes : times ⟨maxSize - 1, some maxSize⟩ 2 (some 3) = ⟨maxSize, none⟩ := by decide
  obtain ⟨hvalid, hcontains, -, hsum, -, hfold⟩ := operations_sound ha hb
  refine ⟨ha, hb, hadd, htimes, hadd ▸ (hvalid _ (.inl rfl)).1, ?_,
    htimes ▸ (hvalid _ (.inr (.inr ⟨2, some 3, by simp, rfl⟩))).1, ?_, hfold 2⟩
  · exact hadd ▸ hcontains (maxSize - 1) 1 ⟨by simp, by simp⟩ ⟨by simp, by simp⟩
  · exact htimes ▸ hsum 2 (some 3) [maxSize - 1, maxSize] (by simp [Contains, maxSize]) (by simp) (by simp)

end Interval
end MultibyteRegex

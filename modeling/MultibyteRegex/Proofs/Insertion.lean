import MultibyteRegex.Proofs.Expansion

/-!
# 輪の続きの輪

輪の途中の合い方から同じ輪をもう一度続けても、すでに試した合い方を試し直すだけなので、答えは変わらない。内側の
輪に外側の輪を重ねた合い方は、この繰り返しの他に何も加えない。
-/

namespace MultibyteRegex

/-! ## 先に試す方 -/

namespace Outlook

variable {T T' U U' : Outlook → Outlook}

/-- 欲張りなら `T` を先に、そうでなければ `U` を先に試す。 -/
def ordered (greedy : Bool) (T U : Outlook → Outlook) : Outlook → Outlook :=
  fun res => if greedy then T (U res) else U (T res)

variable {greedy : Bool}

theorem Within.ordered (h : Within T U) (h' : Within T' U') :
    Within (ordered greedy T T') (ordered greedy U U') := by
  cases greedy with
  | true => exact h.comp h'
  | false => exact h'.comp h

namespace Once

/-- 二つを試した後に、`U` の所で二つとも試し直しても、答えは変わらない。 -/
theorem ordered_again (hT : Once T) :
    Outlook.ordered greedy T (Outlook.ordered greedy T U) = Outlook.ordered greedy T U := by
  funext res
  cases greedy with
  | true => exact hT.twice (U res)
  | false => exact congrArg U (hT.twice res)

theorem ordered_later (hT : Once T) (hU : Once U) :
    Outlook.ordered greedy T (fun res => U (Outlook.ordered greedy T U res)) = Outlook.ordered greedy T U := by
  funext res
  cases greedy with
  | true => exact (hT.comp hU).twice res
  | false => exact (hU.twice (T (T res))).trans (congrArg U (hT.twice res))

/-- 二つを試した前か後に `U` をもう一度試しても、答えは変わらない。 -/
theorem ordered_fold {outer : Bool} (hT : Once T) (hU : Once U) :
    Outlook.ordered outer (Outlook.ordered greedy T U) U = Outlook.ordered (greedy && outer) T U := by
  funext res
  cases outer with
  | true =>
    cases greedy with
    | true => exact congrArg T (hU.twice res)
    | false => exact hU.absorb hT res
  | false =>
    cases greedy with
    | true => exact hU.absorb hT res
    | false => exact hU.twice (T res)

end Once
end Outlook

open Outlook (Within ordered)

/-! ## 上限のない輪 -/

/-- 何回でも続ける輪。 -/
def Loop.star (e : EmptyBody) (greedy : Bool) : Loop := { lower := 0, upper := none, greedy, emptyBody := e }

namespace Cont

/-- 何回でも続ける輪の見通し。 -/
def star (e : EmptyBody) (greedy : Bool) (R : Cont Outlook → Cont Outlook) (F : Cont Outlook) (fuel : Nat) :
    Cont Outlook :=
  (Loop.star e greedy).explore (fun _ => none) R F fuel 0

/-- `o` から一回続けた後。検査のある輪は、元の合い方に戻ったら抜ける。 -/
def after (e : EmptyBody) (o : Outcome) (F V : Cont Outlook) : Cont Outlook :=
  fun o' => if e ≠ .never ∧ o' = o then F o' else V o'

/-- `K o` は、続きに進むか、輪を続けるか、続きに進んでから輪を続けるかの、どれかより広い。 -/
def Repeats (F V K : Cont Outlook) (o : Outcome) : Prop :=
  Within (F o) (K o) ∨ Within (V o) (K o) ∨ Within (fun res => F o (V o res)) (K o)

variable {e : EmptyBody} {greedy : Bool} {kept : Prop} {R : Cont Outlook → Cont Outlook} {F G K : Cont Outlook}
  {f g h : Nat} {o o' : Outcome}

theorem after_of_stuck (h : e ≠ .never ∧ o' = o) : after e o F G o' = F o' := if_pos h

theorem after_of_not_stuck (h : ¬(e ≠ .never ∧ o' = o)) : after e o F G o' = G o' := if_neg h

theorem after_of_never (h : e = .never) : after e o F G = G := by
  funext o'
  exact if_neg fun hs => hs.1 h

theorem after_once (hF : F.Once) (hG : G.Once) : (after e o F G).Once := by
  intro o'
  unfold after
  split
  · exact hF o'
  · exact hG o'

theorem star_zero (T : Outlook → Outlook) : Within (star e greedy R F 0 o) T := by
  intro res res' _ best v h
  cases h

section
variable (hR : Traced (fun _ => none) kept R)
include hR

theorem star_steady (hF : F.Steady) : (star e greedy R F f).Steady :=
  (hR.explore (Loop.star e greedy) f 0).steady hF

theorem turn_once (hF : F.Steady) (o : Outcome) : Outlook.Once (R (after e o F (star e greedy R F f)) o) :=
  hR.once (after_once hF.once (star_steady hR hF).once) o

theorem star_mono (hF : F.Steady) (hle : f ≤ g) (o : Outcome) :
    Within (star e greedy R F f o) (star e greedy R F g o) :=
  (Loop.explore_below (.refl hR) hF.below hle).le o

variable (hkept : e = .possible → kept)
include hkept

/-- 届く合い方で空回りになるのは、元の合い方に戻ったときだけである。 -/
theorem turn_eq (F V : Cont Outlook) (o : Outcome) :
    R (fun o' res => if e.isStuck o o' then F o' res else V o' res) o = R (after e o F V) o := by
  refine hR.congr fun o' ho' => ?_
  funext res
  by_cases hne : e = .never
  · subst hne
    exact (congrFun (after_of_not_stuck fun hs => hs.1 rfl) res).symm
  · have hiff : e.isStuck o o' ↔ e ≠ .never ∧ o' = o :=
      (EmptyBody.isStuck_iff hne fun he => ho' (hkept he)).trans (and_iff_right hne).symm
    simp only [hiff, after]
    split <;> rfl

theorem star_succ (o : Outcome) : star e greedy R F (f + 1) o =
    ordered greedy (R (after e o F (star e greedy R F f)) o) (F o) := by
  have hmore : (Loop.star e greedy).explore (fun _ => none) R F f (0 + 1) = star e greedy R F f :=
    Loop.explore_of_reached rfl (Nat.zero_le _) (Nat.le_refl _)
  have hturn : Emit.Follows.turn (Loop.star e greedy) R F f 0 o = R (after e o F (star e greedy R F f)) o := by
    rw [← turn_eq hR hkept, ← hmore]
    rfl
  funext res
  rw [star, Emit.Follows.explore_of_le (fun u hu => by cases hu) (Nat.zero_le _), hturn]
  rfl

/-- 一回の後に元の合い方へ戻ったとき、輪を初めから続けても、続きに進んでから続けても、答えは変わらない。 -/
theorem after_again (hF : F.Steady) (o : Outcome) :
    R (after e o (star e greedy R F (f + 1)) (star e greedy R F f)) o =
        R (after e o F (star e greedy R F f)) o ∧
      R (after e o (fun o' res => F o' (star e greedy R F (f + 1) o' res)) (star e greedy R F f)) o =
        R (after e o F (star e greedy R F f)) o := by
  by_cases hne : e = .never
  · simp only [after_of_never hne, and_self]
  have hK : (after e o F (star e greedy R F f)).Once := after_once hF.once (star_steady hR hF).once
  have hsucc : star e greedy R F (f + 1) o = ordered greedy (R (after e o F (star e greedy R F f)) o) (F o) :=
    star_succ hR hkept o
  constructor
  · refine hR.retry hK (o := o) (fun o' ho' => ?_) ?_
    · rw [after_of_not_stuck fun h => ho' h.2, after_of_not_stuck fun h => ho' h.2]
    · simp only [after_of_stuck (⟨hne, rfl⟩ : e ≠ .never ∧ o = o), hsucc]
      cases greedy with
      | true => exact .inl fun _ => rfl
      | false => exact .inr (.inl fun _ => rfl)
  · refine hR.retry hK (o := o) (fun o' ho' => ?_) ?_
    · rw [after_of_not_stuck fun h => ho' h.2, after_of_not_stuck fun h => ho' h.2]
    · simp only [after_of_stuck (⟨hne, rfl⟩ : e ≠ .never ∧ o = o), hsucc]
      cases greedy with
      | true => exact .inr (.inr fun _ => rfl)
      | false => exact .inr (.inl fun res => (hF.once o).twice _)

/-- 一回の後の続きを広げれば、一回の見通しも広がる。元の合い方へ戻ったときは、輪をもう一度続けてよい。 -/
theorem after_within (hF : F.Steady)
    (hstay : ∀ o', ¬(e ≠ .never ∧ o' = o) → Within (star e greedy R F f o') (K o'))
    (hstuck : e ≠ .never → Repeats F (star e greedy R F (f + 1)) K o) :
    Within (R (after e o F (star e greedy R F f)) o) (R K o) := by
  have hwithin : ∀ {Z : Cont Outlook}, (e ≠ .never → Within (Z o) (K o)) →
      Within (R (after e o Z (star e greedy R F f)) o) (R K o) := by
    intro Z hZ
    refine hR.within fun o' _ => ?_
    by_cases hs : e ≠ .never ∧ o' = o
    · rw [after_of_stuck hs, hs.2]
      exact hZ hs.1
    · rw [after_of_not_stuck hs]
      exact hstay o' hs
  by_cases hne : e = .never
  · exact hwithin fun h => absurd hne h
  rcases hstuck hne with h | h | h
  · exact hwithin fun _ => h
  · rw [← (after_again hR hkept hF o).1]
    exact hwithin fun _ => h
  · rw [← (after_again hR hkept hF o).2]
    exact hwithin fun _ => h

omit hkept in
theorem Repeats.mono (hF : F.Steady) (hK : Repeats F (star e greedy R F f) K o) (hle : g ≤ f) :
    Repeats F (star e greedy R F g) K o := by
  have hmono : Within (star e greedy R F g o) (star e greedy R F f o) := star_mono hR hF hle o
  rcases hK with h | h | h
  · exact .inl h
  · exact .inr (.inl (hmono.trans h))
  · exact .inr (.inr (((hF.mono o).comp hmono).trans h))

/-- 輪の続きに、同じ輪をもう一度差し込んでもよい。 -/
theorem star_insert (hF : F.Steady) (hle : f ≤ g) (hK : ∀ o, Repeats F (star e greedy R F f) K o) (o : Outcome) :
    Within (star e greedy R F f o) (star e greedy R K g o) := by
  induction f generalizing g o with
  | zero => exact star_zero _
  | succ f ih =>
    obtain ⟨g, rfl⟩ := Nat.exists_eq_add_of_le' hle
    have hmore : ∀ o', Within (star e greedy R F f o') (star e greedy R K (g + f) o') := fun o' =>
      ih (Nat.le_add_left ..) (fun o => (hK o).mono hR hF (Nat.le_succ f)) o'
    let T : Outlook → Outlook := R (after e o F (star e greedy R F f)) o
    have hT : Outlook.Once T := turn_once hR hF o
    have hturn : Within T (R (after e o K (star e greedy R K (g + f))) o) := by
      refine after_within hR hkept hF (fun o' hs => ?_) fun hne => ?_
      · rw [after_of_not_stuck hs]
        exact hmore o'
      · have hhere : after e o K (star e greedy R K (g + f)) o = K o := after_of_stuck ⟨hne, rfl⟩
        simpa only [Repeats, hhere] using hK o
    have hsucc : star e greedy R F (f + 1) o = ordered greedy T (F o) := star_succ hR hkept o
    rw [← Nat.add_assoc, star_succ hR hkept o (F := K), hsucc]
    rcases hK o with h | h | h
    · exact hturn.ordered h
    · rw [← hT.ordered_again, ← hsucc]
      exact hturn.ordered h
    · rw [← hT.ordered_later (hF.once o), ← hsucc]
      exact hturn.ordered h

/-- 元の合い方で続きに進めるなら、差し込んだ輪の一回も、元の輪の一回より広い。 -/
theorem star_insert_here (hF : F.Steady) (hle : f ≤ g) (hK : ∀ o, Repeats F (star e greedy R F f) K o)
    (hhere : Within (F o) (K o)) : Within (star e greedy R F (f + 1) o) (star e greedy R K (g + 1) o) := by
  rw [star_succ hR hkept o, star_succ hR hkept o]
  refine (after_within hR hkept hF (fun o' hs => ?_) fun hne => .inl ?_).ordered hhere
  · rw [after_of_not_stuck hs]
    exact star_insert hR hkept hF hle hK o'
  · rw [after_of_stuck ⟨hne, rfl⟩]
    exact hhere

/-- 続きに進むか輪を続けるかのどちらかより狭い続きを差し込んでも、輪を長く続けるより広くはならない。 -/
theorem star_absorb (hF : F.Steady) (hK : ∀ o, Within (K o) (F o) ∨ Within (K o) (star e greedy R F h o)) (o : Outcome) :
    Within (star e greedy R K f o) (star e greedy R F (f + h) o) := by
  induction f generalizing o with
  | zero => exact star_zero _
  | succ f ih =>
    have hwithin : ∀ {Z : Cont Outlook}, Within (K o) (Z o) →
        Within (R (after e o K (star e greedy R K f)) o) (R (after e o Z (star e greedy R F (f + h))) o) := by
      intro Z hZ
      refine hR.within fun o' _ => ?_
      by_cases hs : e ≠ .never ∧ o' = o
      · rw [after_of_stuck hs, after_of_stuck hs, hs.2]
        exact hZ
      · rw [after_of_not_stuck hs, after_of_not_stuck hs]
        exact ih o'
    have hsucc : star e greedy R F (f + h + 1) o =
        ordered greedy (R (after e o F (star e greedy R F (f + h))) o) (F o) := star_succ hR hkept o
    rw [Nat.add_right_comm, star_succ hR hkept o (F := K), hsucc]
    rcases hK o with hK | hK
    · exact (hwithin hK).ordered hK
    · have hmore := hK.trans (star_mono hR hF (Nat.le_add_left h (f + 1)) o)
      rw [Nat.add_right_comm] at hmore
      have hturn := hwithin hmore
      rw [(after_again hR hkept hF o).1] at hturn
      have hT : Outlook.Once (R (after e o F (star e greedy R F (f + h))) o) := turn_once hR hF o
      rw [← hT.ordered_again, ← hsucc]
      exact hturn.ordered hmore

end
end Cont
end MultibyteRegex

import Mathlib.Data.Finset.Card
import Mathlib.Order.Filter.AtTopBot.Basic
import Mathlib.Order.Filter.Finite
import MultibyteRegex.Proofs.Listing

/-!
# 有限個の合い方

どの位置からも合い方が有限個しかないことは、節の組み立てごとに保たれる。上限のない輪は、位置が進まなければ、捕獲の
どれかが決まった範囲に変わるごとにしか続かず、その範囲になった捕獲は、位置が同じあいだはもう変わらない。
-/

namespace MultibyteRegex

/-! ## 合い方の進み方 -/

/-- 捕獲の数と、位置と、番号とから決まる範囲。 -/
abbrev Target := Nat → Nat → Nat → Option Slot

/-- `o` から `o'` へ進む。`writes` にない捕獲は変わらない。進まないとき、`calm` の言う `t` があれば、どの捕獲も元の
ままか `t` の範囲になる。 -/
structure Outcome.Proceeds (size least : Nat) (writes : Nat → Prop) (calm : Target → Prop) (o o' : Outcome) : Prop
    extends o.Advances size least o' where
  kept : ∀ n, ¬writes n → o'.caps[n]? = o.caps[n]?
  settled : ∀ t, calm t → o'.pos = o.pos → ∀ n, o'.caps[n]? = o.caps[n]? ∨ o'.caps[n]? = t o.caps.size o.pos n

namespace Outcome.Proceeds

variable {size least least' n : Nat} {writes writes' : Nat → Prop} {calm calm' : Target → Prop} {o o' o'' : Outcome}

/-- 位置だけを進める。 -/
theorem of_kept (h : o.Advances size least o') (hcaps : o'.caps = o.caps) :
    o.Proceeds size least writes calm o' :=
  ⟨h, fun _ _ => by rw [hcaps], fun _ _ _ _ => .inl (by rw [hcaps])⟩

theorem refl (ho : o.pos ≤ size) : o.Proceeds size 0 writes calm o := of_kept (.refl ho) rfl

theorem mono (h : o.Proceeds size least writes calm o') (hl : 0 < least' → 0 < least)
    (hw : ∀ n, writes n → writes' n) (hc : ∀ t, calm' t → calm t) : o.Proceeds size least' writes' calm' o' :=
  ⟨h.toAdvances.mono hl, fun n h' => h.kept n fun hw' => h' (hw n hw'), fun t h' => h.settled t (hc t h')⟩

theorem trans (h : o.Proceeds size least writes calm o') (h' : o'.Proceeds size least' writes calm o'') :
    o.Proceeds size (least + least') writes calm o'' := by
  refine ⟨h.toAdvances.trans h'.toAdvances, fun n hw => (h'.kept n hw).trans (h.kept n hw), fun t hc hpos n => ?_⟩
  have hle := h.le
  have hle' := h'.le
  have hpos₁ : o'.pos = o.pos := by omega
  rcases h'.settled t hc (by omega) n with hn | hn
  · rw [hn]
    exact h.settled t hc hpos₁ n
  · rw [hn, hpos₁, h.caps]
    exact .inr rfl

/-- 進まずに本体を過ぎた捕獲は、空の範囲になる。 -/
theorem capture (h : (o.opened n).Proceeds size least writes calm o') :
    o.Proceeds size least (fun k => k = n ∨ writes k)
      (fun t => (∀ size pos, t size pos n = some ⟨some pos, some pos⟩) ∧ calm t) (o'.closed n) := by
  have hsize : (o.opened n).caps.size = o.caps.size := by simp [Outcome.opened]
  have hcaps : o'.caps.size = o.caps.size := h.caps.trans hsize
  have hother : ∀ k, n ≠ k → (o.opened n).caps[k]? = o.caps[k]? ∧ (o'.closed n).caps[k]? = o'.caps[k]? := by
    intro k hk
    simp [Outcome.opened, Outcome.closed, Array.getElem?_modify, hk]
  refine ⟨⟨h.le, h.within, by simpa [Outcome.closed] using hcaps, h.lt⟩, fun k hw => ?_, fun t hc hpos k => ?_⟩
  · obtain ⟨hn, hk⟩ := not_or.1 hw
    rw [(hother k (Ne.symm hn)).2, h.kept k hk, (hother k (Ne.symm hn)).1]
  · have hpos : o'.pos = o.pos := hpos
    have hslot := h.settled t hc.2 hpos k
    rw [hsize] at hslot
    by_cases hk : n = k
    · subst hk
      by_cases hn : n < o.caps.size
      · refine .inr ?_
        rw [hc.1]
        rcases hslot with hslot | hslot <;>
          simp [hslot, hc.1, hn, Outcome.opened, Outcome.closed, Array.getElem?_modify, hpos]
      · refine .inl ?_
        rw [Array.getElem?_eq_none (Nat.not_lt.1 hn), Array.getElem?_eq_none]
        simpa [Outcome.closed, hcaps] using hn
    · rw [(hother k hk).2, ← (hother k hk).1]
      exact hslot

end Outcome.Proceeds

/-! ## 合い方の列 -/

variable {α : Type} {size least least' n : Nat} {writes writes' : Nat → Prop} {calm calm' : Target → Prop}
  {o : Outcome} {os : List Outcome}
  {R S : Nat → Cont α → Cont α}

/-- `fuel` が足りれば、`R` は列 `os` の合い方を順に続きへ渡す。 -/
def Lists (R : Nat → Cont α → Cont α) (o : Outcome) (os : List Outcome) : Prop :=
  ∀ᶠ fuel in Filter.atTop, ∀ (F : Cont α) (res : α), R fuel F o res = os.foldr F res

/-- 最初の合い方が `writes` の捕獲に書く範囲は、`t` のとおりである。 -/
def Fixes (size : Nat) (writes : Nat → Prop) (R : Nat → Cont α → Cont α) (t : Target) : Prop :=
  ∀ o os o', o.pos ≤ size → Lists R o os → os.head? = some o' → ∀ n, writes n →
    o'.caps[n]? = o.caps[n]? ∨ o'.caps[n]? = t o.caps.size o.pos n

/-- どの位置からも、合い方は有限個で、どれも本文の中を進む。 -/
def Halts (size least : Nat) (writes : Nat → Prop) (calm : Target → Prop) (R : Nat → Cont α → Cont α) : Prop :=
  ∀ o, o.pos ≤ size → ∃ os, Lists R o os ∧ ∀ o' ∈ os, o.Proceeds size least writes calm o'

namespace Halts

theorem mono (h : Halts size least writes calm R) (hl : 0 < least' → 0 < least)
    (hw : ∀ n, writes n → writes' n) (hc : ∀ t, calm' t → calm t) : Halts size least' writes' calm' R := by
  intro o ho
  obtain ⟨os, hos, hadv⟩ := h o ho
  exact ⟨os, hos, fun o' ho' => (hadv o' ho').mono hl hw hc⟩

theorem stay : Halts size 0 writes calm fun _ (F : Cont α) => F := by
  intro o ho
  refine ⟨[o], .of_forall fun fuel F res => rfl, fun o' ho' => ?_⟩
  cases List.mem_singleton.1 ho'
  exact .refl ho

theorem leaf {x : Setting} {options : Options} {node : Node} :
    Halts x.text.size node.minLength writes calm fun _ (F : Cont α) o res =>
      match node.leafEnd? x options o with
      | some s => F (o.moveTo s) res
      | none => res := by
  intro o ho
  refine ⟨(node.leafEnd? x options o).toList.map o.moveTo, .of_forall fun fuel F res => ?_, fun o' ho' => ?_⟩
  · dsimp only
    cases node.leafEnd? x options o <;> rfl
  · obtain ⟨s, hs, rfl⟩ := List.mem_map.1 ho'
    exact .of_kept (Node.leafEnd?_advances ho (Option.mem_toList.1 hs)) rfl

/-- 続けて合うときは、一つ目の合い方ごとに、二つ目の合い方が並ぶ。 -/
theorem comp (hR : Halts size least writes calm R) (hS : Halts size least' writes' calm' S) :
    Halts size (least + least') (fun n => writes n ∨ writes' n) (fun t => calm t ∧ calm' t)
      fun fuel F => R fuel (S fuel F) := by
  have hR : Halts size least (fun n => writes n ∨ writes' n) (fun t => calm t ∧ calm' t) R :=
    hR.mono id (fun _ => .inl) fun _ => And.left
  have hS : Halts size least' (fun n => writes n ∨ writes' n) (fun t => calm t ∧ calm' t) S :=
    hS.mono id (fun _ => .inr) fun _ => And.right
  intro o ho
  obtain ⟨os, hos, hadv⟩ := hR o ho
  have hrest : ∀ o', ∃ os', o' ∈ os → Lists S o' os' ∧
      ∀ o'' ∈ os', o'.Proceeds size least' (fun n => writes n ∨ writes' n) (fun t => calm t ∧ calm' t) o'' := by
    intro o'
    by_cases ho' : o' ∈ os
    · obtain ⟨os', h⟩ := hS o' (hadv o' ho').within
      exact ⟨os', fun _ => h⟩
    · exact ⟨[], fun h => absurd h ho'⟩
  choose rest hrest using hrest
  have hlists : ∀ᶠ fuel in Filter.atTop, ∀ o' ∈ os, ∀ (F : Cont α) (res : α),
      S fuel F o' res = (rest o').foldr F res :=
    (Filter.eventually_all_finite (List.finite_toSet os)).2 fun o' ho' => (hrest o' ho').1
  refine ⟨os.flatMap rest, ?_, fun o'' ho'' => ?_⟩
  · filter_upwards [hos, hlists] with fuel hos hlists F res
    rw [hos, List.foldr_flatMap]
    exact List.foldr_ext _ _ _ fun o' ho' res => hlists o' ho' F res
  · obtain ⟨o', ho', ho''⟩ := List.mem_flatMap.1 ho''
    exact (hadv o' ho').trans ((hrest o' ho').2 o'' ho'')

theorem times (hR : Halts size least writes calm R) (k : Nat) :
    Halts size (least * k) writes calm fun fuel => Nat.repeat (R fuel) k := by
  induction k with
  | zero => exact stay
  | succ k ih =>
    refine (hR.comp ih).mono (fun h => ?_) (fun _ h => h.elim id id) fun _ h => ⟨h, h⟩
    rw [Nat.mul_succ] at h
    omega

theorem either (hR : Halts size least writes calm R) (hS : Halts size least' writes' calm' S) :
    Halts size (min least least') (fun n => writes n ∨ writes' n) (fun t => calm t ∧ calm' t) fun fuel F o res =>
      R fuel F o (S fuel F o res) := by
  intro o ho
  obtain ⟨os, hos, hadv⟩ := hR o ho
  obtain ⟨os', hos', hadv'⟩ := hS o ho
  refine ⟨os ++ os', ?_, fun o' ho' => ?_⟩
  · filter_upwards [hos, hos'] with fuel hos hos' F res
    rw [hos, hos', List.foldr_append]
  · rcases List.mem_append.1 ho' with ho' | ho'
    · exact (hadv o' ho').mono (fun h => by omega) (fun _ => .inl) fun _ => And.left
    · exact (hadv' o' ho').mono (fun h => by omega) (fun _ => .inr) fun _ => And.right

theorem capture (hR : Halts size least writes calm R) (n : Nat) :
    Halts size least (fun k => k = n ∨ writes k)
      (fun t => (∀ size pos, t size pos n = some ⟨some pos, some pos⟩) ∧ calm t)
      fun fuel F o res => R fuel (fun o' => F (o'.closed n)) (o.opened n) res := by
  intro o ho
  obtain ⟨os, hos, hadv⟩ := hR (o.opened n) ho
  refine ⟨os.map (·.closed n), ?_, fun o' ho' => ?_⟩
  · filter_upwards [hos] with fuel hos F res
    rw [hos, List.foldr_map]
  · obtain ⟨o₁, ho₁, rfl⟩ := List.mem_map.1 ho'
    exact (hadv o₁ ho₁).capture

/-- 最初の合い方だけを使う。 -/
theorem first (hR : Halts size least writes calm R) (move : Outcome → Outcome → Outcome)
    (hmove : ∀ {o o' : Outcome} {os : List Outcome}, o.pos ≤ size → Lists R o (o' :: os) →
      o.Proceeds size least writes calm o' → o.Proceeds size least' writes' calm' (move o o')) :
    Halts size least' writes' calm' fun fuel F o res => R fuel (fun o' _ => F (move o o') res) o res := by
  intro o ho
  obtain ⟨os, hos, hadv⟩ := hR o ho
  refine ⟨(os.take 1).map (move o), ?_, fun o' ho' => ?_⟩
  · filter_upwards [hos] with fuel hos F res
    rw [hos]
    cases os <;> rfl
  · cases os with
    | nil => cases ho'
    | cons o₁ os =>
      obtain rfl := List.mem_singleton.1 ho'
      exact hmove ho hos (hadv o₁ List.mem_cons_self)

/-- 先読みの本体では、最初の合い方が書く範囲を `t` が言い当てていればよい。 -/
theorem ahead (hR : Halts size least writes calm R) :
    Halts size 0 writes (Fixes size writes R) fun fuel F o res => R fuel (fun o' _ => F (o'.moveTo o.pos) res) o res := by
  refine hR.first (fun o o' => o'.moveTo o.pos) fun {o o' os} ho hos h => ?_
  refine ⟨⟨Nat.le_refl _, ho, h.caps, fun hlt => absurd hlt (Nat.lt_irrefl 0)⟩, h.kept, fun t ht _ n => ?_⟩
  by_cases hn : writes n
  · exact ht o (o' :: os) o' ho hos rfl n hn
  · exact .inl (h.kept n hn)

theorem notAhead (hR : Halts size least writes calm R) :
    Halts size 0 writes' calm' fun fuel F o res => R fuel (fun _ _ => res) o (F o res) := by
  intro o ho
  obtain ⟨os, hos, -⟩ := hR o ho
  refine ⟨if os.isEmpty then [o] else [], ?_, fun o' ho' => ?_⟩
  · filter_upwards [hos] with fuel hos F res
    rw [hos]
    cases os <;> rfl
  · split at ho'
    · cases List.mem_singleton.1 ho'
      exact .refl ho
    · cases ho'

end Halts

/-! ## 輪 -/

/-- `t` の範囲になっていない捕獲の数。 -/
def Outcome.unsettled (t : Target) (o : Outcome) : Nat :=
  ((Finset.range o.caps.size).filter fun n => o.caps[n]? ≠ t o.caps.size o.pos n).card

theorem Outcome.unsettled_le (t : Target) (o : Outcome) : o.unsettled t ≤ o.caps.size := by
  have := Finset.card_filter_le (Finset.range o.caps.size) fun n => o.caps[n]? ≠ t o.caps.size o.pos n
  simpa [unsettled] using this

/-- 進まずに捕獲が変われば、`t` の範囲でない捕獲が減る。 -/
theorem Outcome.Proceeds.unsettled_lt {o o' : Outcome} {t : Target} (h : o.Proceeds size least writes calm o')
    (hc : calm t) (hpos : o'.pos = o.pos) (hcaps : o'.caps ≠ o.caps) : o'.unsettled t < o.unsettled t := by
  have hslot := h.settled t hc hpos
  obtain ⟨n, hn⟩ : ∃ n : Nat, o'.caps[n]? ≠ o.caps[n]? := by
    by_contra hall
    exact hcaps (Array.ext_getElem? fun n => not_not.1 fun hn => hall ⟨n, hn⟩)
  have hset := (hslot n).resolve_left hn
  have hlt : n < o.caps.size := by
    by_contra hge
    rw [Array.getElem?_eq_none (Nat.not_lt.1 hge), Array.getElem?_eq_none (by rw [h.caps]; exact Nat.not_lt.1 hge)] at hn
    exact hn rfl
  refine Finset.card_lt_card (Finset.ssubset_iff_of_subset ?_ |>.2 ⟨n, ?_, ?_⟩)
  · intro k hk
    simp only [Finset.mem_filter, Finset.mem_range, h.caps, hpos] at hk ⊢
    exact ⟨hk.1, fun heq => hk.2 ((hslot k).elim (·.trans heq) id)⟩
  · simp only [Finset.mem_filter, Finset.mem_range]
    exact ⟨hlt, fun heq => hn (hset.trans heq.symm)⟩
  · simp [h.caps, hpos, hset]

/-- `k` 回続けた所から、空回りせずに続けられる回数の上限。 -/
def Loop.bound (l : Loop) (t : Target) (size k : Nat) (o : Outcome) : Nat :=
  match l.upper with
  | some u => u - k
  | none => (size - o.pos) * (o.caps.size + 1) + o.unsettled t

/-- 空回りでなければ、輪は終わりに近づく。 -/
def Loop.Bounded (l : Loop) (least : Nat) (calm : Target → Prop) (t : Target) : Prop :=
  l.upper = none → (l.emptyBody = .never → 0 < least) ∧ (l.emptyBody = .possibleWithCaptures → calm t)

/-- 空回りでない一回は、続けられる回数の上限を減らす。 -/
theorem Loop.Bounded.lt {l : Loop} {t : Target} (hl : l.Bounded least calm t) {o o' : Outcome} {k : Nat}
    (h : o.Proceeds size least writes calm o') (hstuck : l.emptyBody.isStuck o o' = false)
    (hk : ∀ u ∈ l.upper, k < u) : l.bound t size (k + 1) o' < l.bound t size k o := by
  unfold bound
  cases hu : l.upper with
  | some u =>
    have := hk u hu
    dsimp only
    omega
  | none =>
    obtain ⟨hnever, hcalm⟩ := hl hu
    have hle := h.le
    have hwithin := h.within
    dsimp only
    rw [h.caps]
    by_cases hpos : o'.pos = o.pos
    · cases he : l.emptyBody with
      | never =>
        have := h.lt (hnever he)
        omega
      | possible =>
        rw [he] at hstuck
        simp [EmptyBody.isStuck, hpos] at hstuck
      | possibleWithCaptures =>
        rw [he] at hstuck
        have hcaps : o'.caps ≠ o.caps := by
          intro heq
          simp [EmptyBody.isStuck, hpos, heq] at hstuck
        have := h.unsettled_lt (hcalm he) hpos hcaps
        rw [hpos]
        omega
    · have hun := o'.unsettled_le t
      rw [h.caps] at hun
      have hmul : (size - o'.pos + 1) * (o.caps.size + 1) ≤ (size - o.pos) * (o.caps.size + 1) :=
        Nat.mul_le_mul_right _ (by omega)
      rw [Nat.add_mul, Nat.one_mul] at hmul
      omega

namespace Halts

/-- 続けられる回数の上限を越える `fuel` があれば、輪の合い方は並べきれる。 -/
theorem turns (hR : Halts size least writes calm R) {l : Loop} {t : Target} (bot : α) (hl : l.Bounded least calm t)
    (hordered : l.Ordered) (turns : Nat) {k : Nat} {o : Outcome} (ho : o.pos ≤ size)
    (hbound : l.bound t size k o < turns) :
    ∃ os : List Outcome, (∀ᶠ fuel in Filter.atTop, ∀ left ≥ turns, ∀ (F : Cont α) (res : α),
        l.explore bot (R fuel) F left k o res = os.foldr F res) ∧
      ∀ o' ∈ os, o.Proceeds size (if k < l.lower then least else 0) writes calm o' := by
  induction turns generalizing k o with
  | zero => exact absurd hbound (Nat.not_lt_zero _)
  | succ turns ih =>
    have hpred : ∀ {left}, turns + 1 ≤ left → ∃ j, left = j + 1 ∧ turns ≤ j :=
      fun {left} h => ⟨left - 1, by omega, by omega⟩
    by_cases hupper : l.upper.all (k < ·) = true
    swap
    · -- 回数の上限に達したら、続けずに止まる。
      have hlower : ¬k < l.lower := by
        obtain ⟨u, hu, hku⟩ : ∃ u ∈ l.upper, u ≤ k := by simpa [Option.all_eq_true] using hupper
        exact Nat.not_lt.2 (Nat.le_trans (hordered u hu) hku)
      refine ⟨[o], .of_forall fun fuel left hleft F res => ?_, fun o' ho' => ?_⟩
      · obtain ⟨j, rfl, hj⟩ := hpred hleft
        have hupper := Bool.eq_false_iff.2 hupper
        simp only [Loop.explore, hupper, Bool.not_false, if_true, List.foldr_cons,
          List.foldr_nil]
      · cases List.mem_singleton.1 ho'
        rw [if_neg hlower]
        exact .refl ho
    have hk : ∀ u ∈ l.upper, k < u := by simpa [Option.all_eq_true] using hupper
    obtain ⟨os, hos, hadv⟩ := hR o ho
    have hrest : ∀ o', ∃ os' : List Outcome, o' ∈ os → (∀ᶠ fuel in Filter.atTop, ∀ left ≥ turns, ∀ (F : Cont α) (res : α),
        (if l.emptyBody.isStuck o o' then F o' res else l.explore bot (R fuel) F left (k + 1) o' res) =
          os'.foldr F res) ∧ ∀ o'' ∈ os', o'.Proceeds size 0 writes calm o'' := by
      intro o'
      by_cases ho' : o' ∈ os
      swap
      · exact ⟨[], fun h => absurd h ho'⟩
      have h := hadv o' ho'
      cases hstuck : l.emptyBody.isStuck o o' with
      | true =>
        refine ⟨[o'], fun _ => ⟨.of_forall fun fuel left _ F res => rfl, fun o'' ho'' => ?_⟩⟩
        cases List.mem_singleton.1 ho''
        exact .refl h.within
      | false =>
        have hlt := hl.lt h hstuck hk
        obtain ⟨os', hos', hadv'⟩ := ih (k := k + 1) h.within (by omega)
        exact ⟨os', fun _ => ⟨hos', fun o'' ho'' => (hadv' o'' ho'').mono (fun h => by omega) (fun _ => id) fun _ => id⟩⟩
    choose rest hrest using hrest
    have hlists := (Filter.eventually_all_finite (List.finite_toSet os)).2 fun o' ho' => (hrest o' ho').1
    let more := os.flatMap rest
    -- 一回続けた先の合い方。
    have hagain : ∀ᶠ fuel in Filter.atTop, ∀ left ≥ turns, ∀ (F : Cont α) (res : α),
        R fuel (fun o' res' => if l.emptyBody.isStuck o o' then F o' res' else
          l.explore bot (R fuel) F left (k + 1) o' res') o res = more.foldr F res := by
      filter_upwards [hos, hlists] with fuel hos hlists left hleft F res
      rw [hos, List.foldr_flatMap]
      exact List.foldr_ext _ _ _ fun o' ho' res => hlists o' ho' left hleft F res
    have hmore : ∀ o' ∈ more, o.Proceeds size least writes calm o' := by
      intro o'' ho''
      obtain ⟨o', ho', ho''⟩ := List.mem_flatMap.1 ho''
      exact (hadv o' ho').trans ((hrest o' ho').2 o'' ho'')
    by_cases hlower : k < l.lower
    · refine ⟨more, ?_, fun o' ho' => by rw [if_pos hlower]; exact hmore o' ho'⟩
      filter_upwards [hagain] with fuel hagain left hleft F res
      obtain ⟨j, rfl, hj⟩ := hpred hleft
      simp only [Loop.explore, hupper, hlower, Bool.not_true, Bool.false_eq_true, if_false, if_true]
      exact hagain j hj F res
    · rw [if_neg hlower]
      have hmore : ∀ o' ∈ more, o.Proceeds size 0 writes calm o' :=
        fun o' ho' => (hmore o' ho').mono (fun h => absurd h (Nat.lt_irrefl 0)) (fun _ => id) fun _ => id
      cases hg : l.greedy with
      | true =>
        refine ⟨more ++ [o], ?_, fun o' ho' => ?_⟩
        · filter_upwards [hagain] with fuel hagain left hleft F res
          obtain ⟨j, rfl, hj⟩ := hpred hleft
          simp only [Loop.explore, hupper, hlower, hg, Bool.not_true, Bool.false_eq_true, if_false, if_true]
          rw [hagain j hj, List.foldr_append]
          rfl
        · rcases List.mem_append.1 ho' with ho' | ho'
          · exact hmore o' ho'
          · cases List.mem_singleton.1 ho'
            exact .refl ho
      | false =>
        refine ⟨o :: more, ?_, fun o' ho' => ?_⟩
        · filter_upwards [hagain] with fuel hagain left hleft F res
          obtain ⟨j, rfl, hj⟩ := hpred hleft
          simp only [Loop.explore, hupper, hlower, hg, Bool.not_true, Bool.false_eq_true, if_false]
          rw [hagain j hj]
          rfl
        · rcases List.mem_cons.1 ho' with rfl | ho'
          · exact .refl ho
          · exact hmore o' ho'

/-- 輪の全体。一回は続けなければならないなら、本体と同じだけ進む。 -/
theorem ring (hR : Halts size least writes calm R) {l : Loop} {t : Target} (bot : α) (hl : l.Bounded least calm t)
    (hordered : l.Ordered) :
    Halts size (if 0 < l.lower then least else 0) writes calm fun fuel F =>
      l.explore bot (R fuel) F fuel 0 := by
  intro o ho
  obtain ⟨os, hos, hadv⟩ := hR.turns bot hl hordered (l.bound t size 0 o + 1) ho (Nat.lt_succ_self _)
  refine ⟨os, ?_, hadv⟩
  filter_upwards [hos, Filter.eventually_ge_atTop (l.bound t size 0 o + 1)] with fuel hos hfuel
  exact hos fuel hfuel

/-- どの開き方でも、繰り返しの合い方は有限個である。 -/
theorem loop (hR : Halts size least writes calm R) (bot : α) {l : Loop} {t : Target} {body : Node}
    {shape : LoopShape} {k : Nat} (hfits : shape.Fits l body k) (hordered : l.Ordered) (hzero : k = 0 → least = 0)
    (hany : body = .any → 0 < least) (hpos : l.upper = none → l.emptyBody = .never → 0 < least)
    (hcalm : l.upper = none → shape.isGuarded → l.emptyBody = .possibleWithCaptures → calm t) :
    Halts size (satMul least l.lower) writes calm fun fuel => shape.explore l bot fuel (R fuel) := by
  have hleast : 0 < satMul least l.lower → 0 < least ∧ 0 < l.lower := by
    intro h
    simp only [satMul, maxSize, lt_min_iff] at h
    exact ⟨Nat.pos_of_mul_pos_right h.1, Nat.pos_of_mul_pos_left h.1⟩
  have hcopies : ∀ (copies : Nat) (l' : Loop), l'.Bounded least calm t → l'.Ordered →
      (0 < least → 0 < l.lower → 0 < copies ∨ 0 < l'.lower) →
      Halts size (satMul least l.lower) writes calm fun fuel F =>
        Nat.repeat (R fuel) copies (l'.explore bot (R fuel) F fuel 0) := by
    intro copies l' hl hordered hlower
    refine ((hR.times copies).comp (hR.ring bot hl hordered)).mono (fun h => ?_) (fun _ h => h.elim id id)
      fun _ h => ⟨h, h⟩
    obtain ⟨hlt, hlow⟩ := hleast h
    rcases hlower hlt hlow with hc | hc
    · exact Nat.add_pos_left (Nat.mul_pos hlt hc) _
    · rw [if_pos hc]
      exact Nat.add_pos_right _ hlt
  have hself : shape.isGuarded → l.Bounded least calm t := fun hg hu => ⟨hpos hu, hcalm hu hg⟩
  cases shape with
  | nothing =>
    refine hcopies 0 { l with lower := 0, upper := some 0 } nofun (fun _ _ => Nat.zero_le _)
      fun hlt hlow => ?_
    rcases hfits with hk | hu
    · have := hzero hk
      omega
    · have := hordered 0 hu
      omega
  | anyStar =>
    exact hcopies l.lower { l with lower := 0, emptyBody := .never }
      (fun _ => ⟨fun _ => hany hfits.1, nofun⟩) (fun _ _ => Nat.zero_le _) fun _ => .inl
  | ring copies jumpIn =>
    obtain ⟨-, hu, hc⟩ := hfits
    cases jumpIn with
    | true => exact hcopies 0 l (hself rfl) hordered fun _ => .inr
    | false =>
      obtain rfl : copies = l.lower := hc
      exact hcopies l.lower { l with lower := 0 } (hself rfl) (fun _ _ => Nat.zero_le _) fun _ => .inl
  | unrolled required extra =>
    obtain ⟨-, -, u, hu, -, rfl, rfl⟩ := hfits
    exact hcopies l.lower { l with lower := 0, upper := some (u - l.lower), emptyBody := .never }
      nofun (fun _ _ => Nat.zero_le _) fun _ => .inl
  | lazyOptional =>
    obtain ⟨-, -, -, hu⟩ := hfits
    exact hcopies 0 { l with emptyBody := .never }
      (fun h => by simp [hu] at h) hordered fun _ => .inr
  | counted => exact hcopies 0 l (hself rfl) hordered fun _ => .inr

end Halts


end MultibyteRegex

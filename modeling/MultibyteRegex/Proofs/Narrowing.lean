import MultibyteRegex.Proofs.Opening

/-!
# 外側の上限を縮める

内側が何回でも続ける輪なら、外側の二回目からの一回は、内側の輪を続けるだけで、新しい合い方を試さない。回数で書いた
外側の上限は、下限まで縮めてよい。
-/

namespace MultibyteRegex

open Outlook (Within ordered)

/-! ## 続きを含む輪 -/

/-- `K` は、どの合い方でも、`F` か `T` より広い。 -/
def Cont.Contains (F T K : Cont Outlook) : Prop := ∀ o, Within (F o) (K o) ∨ Within (T o) (K o)

namespace Loop

variable {l : Loop} {kept : Prop} {S : Cont Outlook → Cont Outlook} {F T V : Cont Outlook} {f g k u : Nat} {o : Outcome}

theorem contains_unless_stuck (hF : F.Steady) (hV : F.Contains T V) (o : Outcome) :
    F.Contains T fun o' res => if l.emptyBody.isStuck o o' then F o' res else V o' res := by
  intro o'
  by_cases hs : l.emptyBody.isStuck o o'
  · simp only [hs, if_true]
    exact .inl (hF.mono o')
  · simp only [hs, Bool.false_eq_true, if_false]
    exact hV o'

theorem explore_contains (hF : F.Steady) (hu : l.upper = some u) (hk : k ≤ u) (hg : 0 < g)
    (h : k < u → ∀ o, Within (T o) (l.explore (fun _ => none) S F g k o)) :
    F.Contains T (l.explore (fun _ => none) S F g k) := by
  rcases Nat.lt_or_eq_of_le hk with hlt | rfl
  · exact fun o => .inr (h hlt o)
  · exact fun o => .inl (stop_explore hF hu hg o)

/-- 続きか `T` より広い続きから一回続ければ `T` より広いなら、上限までの輪も `T` より広い。 -/
theorem explore_covers (hF : F.Steady) (hg : l.greedy = true) (hu : l.upper = some u)
    (hlast : ∀ K, F.Contains T K → ∀ o, Within (T o) (fun res => S K o (F o res)))
    (hfirst : l.lower ≤ k ∨ ∀ K, F.Contains T K → ∀ o, Within (T o) (S K o))
    (hk : k < u) (hle : u < g + k) (o : Outcome) : Within (T o) (l.explore (fun _ => none) S F g k o) := by
  induction g generalizing k o with
  | zero => omega
  | succ g ih =>
    have hK := contains_unless_stuck (l := l) hF (explore_contains (S := S) (k := k + 1) (g := g) hF hu hk (by omega)
      fun hlt => ih (hfirst.imp_left Nat.le_succ_of_le) hlt (by omega)) o
    by_cases hlower : k < l.lower
    · rw [explore_turn (lt_upper hu hk) hlower]
      exact hfirst.resolve_left (Nat.not_le.2 hlower) _ hK o
    · rw [explore_choose (lt_upper hu hk) (Nat.not_lt.1 hlower), hg]
      exact hlast _ hK o

theorem repeat_covers (hfirst : ∀ K, F.Contains T K → ∀ o, Within (T o) (S K o)) (hV : F.Contains T V) (n : Nat) :
    ∀ o, Within (T o) (Nat.repeat S (n + 1) V o) := by
  induction n with
  | zero => exact hfirst V hV
  | succ n ih => exact hfirst _ fun o => .inr (ih o)

end Loop

namespace LoopShape.Fits

variable {l : Loop} {shape : LoopShape} {body : Node} {size n u : Nat} {kept : Prop} {S : Cont Outlook → Cont Outlook}
  {F T : Cont Outlook} {f g : Nat}

section
variable (h : shape.Fits l body size) (hsize : size ≠ 0) (hF : F.Steady) (hg : l.greedy = true) (hu : l.upper = some u)
include h hsize hF hg hu

/-- 回数を決めた繰り返しは、どの形に開いても、一回ごとに `T` を保てば、`T` より広い。 -/
theorem covers (hpos : 0 < u) (hordered : l.lower ≤ u)
    (hlast : ∀ K, F.Contains T K → ∀ o, Within (T o) (fun res => S K o (F o res)))
    (hfirst : l.lower = 0 ∨ ∀ K, F.Contains T K → ∀ o, Within (T o) (S K o)) (hle : u < g) (o : Outcome) :
    Within (T o) (shape.explore l (fun _ => none) g S F o) := by
  rcases h.explore_of_upper (R := S) (F := F) (f := g) hsize hu (by omega) (.inl hg) with ⟨-, h⟩ | ⟨-, h⟩ <;> rw [h]
  · have hrest : (l.rest u).upper = some (u - l.lower) := rfl
    have hcovers (hlt : 0 < u - l.lower) (o : Outcome) :
        Within (T o) ((l.rest u).explore (fun _ => none) S F g 0 o) :=
      Loop.explore_covers (l := l.rest u) hF hg hrest hlast (.inl (Nat.zero_le 0)) hlt (by omega) o
    cases hn : l.lower with
    | zero => exact hcovers (by omega) o
    | succ n =>
      exact Loop.repeat_covers (hfirst.resolve_left (by omega))
        (Loop.explore_contains hF hrest (Nat.zero_le _) (by omega) hcovers) n o
  · exact Loop.explore_covers hF hg hu hlast (hfirst.imp_left Nat.le_of_eq) hpos (by omega) o

variable (hS : Traced (fun _ => none) kept S) (hopen : shape.isGuarded = false ∨ l.emptyBody = .never)
include hS hopen

theorem within_repeat (hfixed : u = l.lower) (hn : l.lower = n + 1) (o : Outcome) : ∃ X : Cont Outlook,
    (∀ o, Within (X o) (F o)) ∧
      Within (shape.explore l (fun _ => none) f S F o) (Nat.repeat S (n + 1) X o) := by
  subst hfixed
  rcases h.explore_of_upper (R := S) (F := F) (f := f) hsize hu (by omega) (.inl hg) with ⟨-, h⟩ | ⟨hguard, h⟩ <;> rw [h]
  · have hzero : (l.rest l.lower).upper = some 0 := congrArg some (Nat.sub_self l.lower)
    refine ⟨(l.rest l.lower).explore (fun _ => none) S F f 0, Loop.explore_stop hF hzero, ?_⟩
    rw [hn]
    exact ((hS.times _).steady ((hS.explore _ f 0).steady hF)).mono o
  · have hnever : l.emptyBody = .never := hopen.resolve_left (by rw [hguard hg]; exact Bool.false_ne_true.symm)
    have hordered : l.Ordered := fun w hw => by rw [hu] at hw; exact Nat.le_of_eq (Option.some.inj hw)
    refine ⟨l.explore (fun _ => none) S F f l.lower, Loop.explore_stop hF hu, ?_⟩
    exact (Loop.explore_below_repeat hnever hordered (.refl hS) hF.below ((Nat.zero_add _).trans hn.symm) (Nat.le_refl f)).le o

theorem repeat_within (hordered : l.lower ≤ u) (hn : l.lower = n + 1)
    (hlast : ∀ K, F.Contains T K → ∀ o, Within (T o) (fun res => S K o (F o res))) (hle : u + l.lower < g)
    (o : Outcome) : ∃ Y : Cont Outlook, F.Contains T Y ∧
      Within (Nat.repeat S (n + 1) Y o) (shape.explore l (fun _ => none) g S F o) := by
  rcases h.explore_of_upper (R := S) (F := F) (f := g) hsize hu (by omega) (.inl hg) with ⟨-, h⟩ | ⟨hguard, h⟩ <;> rw [h]
  · have hrest : (l.rest u).upper = some (u - l.lower) := rfl
    refine ⟨(l.rest u).explore (fun _ => none) S F g 0, Loop.explore_contains hF hrest (Nat.zero_le _) (by omega) fun hlt =>
      Loop.explore_covers hF hg hrest hlast (.inl (Nat.zero_le 0)) hlt (by omega), ?_⟩
    rw [hn]
    exact ((hS.times _).steady ((hS.explore _ g 0).steady hF)).mono o
  · have hnever : l.emptyBody = .never := hopen.resolve_left (by rw [hguard hg]; exact Bool.false_ne_true.symm)
    have hl : l.Ordered := fun w hw => by rw [hu] at hw; exact Option.some.inj hw ▸ hordered
    refine ⟨l.explore (fun _ => none) S F (g - l.lower) l.lower, Loop.explore_contains hF hu hordered (by omega) fun hlt =>
      Loop.explore_covers hF hg hu hlast (.inl (Nat.le_refl _)) hlt (by omega), ?_⟩
    exact (Loop.repeat_below_explore hnever hl (.refl hS) hF.below ((Nat.zero_add _).trans hn.symm) (by omega)).le o

end
end LoopShape.Fits

namespace Cont

variable {e : EmptyBody} {kept : Prop} {R : Cont Outlook → Cont Outlook} {F K X Y : Cont Outlook} {l : Loop}
  {f g h j k n u v : Nat} {i : Bool} {o : Outcome}

/-! ## `*` の外側 -/

section
variable (hR : Traced (fun _ => none) kept R) (hkept : e = .possible → kept)
include hR hkept

theorem star_then_eq (hF : F.Steady) (o : Outcome) : ordered true (star e i R F f o) (F o) = star e i R F f o := by
  cases f with
  | zero => rfl
  | succ f => rw [star_succ hR hkept o, (turn_once hR hF o).ordered_fold (hF.once o), Bool.and_true]

theorem star_congr (hXY : ∀ o, Within (X o) (Y o)) (hle : f ≤ g) (o : Outcome) :
    Within (star e i R X f o) (star e i R Y g o) := by
  induction f generalizing g o with
  | zero => exact star_zero _
  | succ f ih =>
    obtain ⟨g, rfl⟩ := Nat.exists_eq_add_of_le' hle
    rw [← Nat.add_assoc, star_succ hR hkept o, star_succ hR hkept o]
    refine (hR.within fun o' _ => ?_).ordered (hXY o)
    by_cases hs : e ≠ .never ∧ o' = o
    · rw [after_of_stuck hs, after_of_stuck hs]
      exact hXY o'
    · rw [after_of_not_stuck hs, after_of_not_stuck hs]
      exact ih (Nat.le_add_left ..) o'

/-- 輪を回数を決めて続けても、長く続ける一つの輪より広くはならない。 -/
theorem explore_within_star (hF : F.Steady) (hg : l.greedy = true) (hu : l.upper = some u) (hk : k < u) (o : Outcome) :
    Within (l.explore (fun _ => none) (fun G => star e true R G j) F f k o) (star e true R F (j * f) o) := by
  induction f generalizing k o with
  | zero => exact Loop.explore_zero
  | succ f ih =>
    have hturn : Within (Emit.Follows.turn l (fun G => star e true R G j) F f k o) (star e true R F (j * (f + 1)) o) := by
      rw [Nat.mul_succ, Nat.add_comm]
      refine star_absorb hR hkept hF (fun o' => ?_) o
      by_cases hs : l.emptyBody.isStuck o o'
      · simp only [hs, if_true]
        exact .inl (hF.mono o')
      simp only [hs, Bool.false_eq_true, if_false]
      by_cases hk' : k + 1 < u
      · exact .inr (ih hk' o')
      · obtain rfl : u = k + 1 := by omega
        exact .inl (Loop.explore_stop hF hu o')
    by_cases hlower : k < l.lower
    · rw [Loop.explore_turn (Loop.lt_upper hu hk) hlower]
      exact hturn
    · rw [Loop.explore_choose (Loop.lt_upper hu hk) (Nat.not_lt.1 hlower), hg, ← star_then_eq hR hkept hF o]
      exact hturn.ordered (hF.mono o)

theorem repeat_within_star (hF : F.Steady) (hX : ∀ o, Within (X o) (F o) ∨ Within (X o) (star e true R F h o)) (o : Outcome) :
    Within (Nat.repeat (fun G => star e true R G j) (n + 1) X o) (star e true R F (j * (n + 1) + h) o) := by
  induction n generalizing o with
  | zero =>
    rw [Nat.mul_one]
    exact star_absorb hR hkept hF hX o
  | succ n ih =>
    rw [show j * (n + 1 + 1) + h = j + (j * (n + 1) + h) by rw [Nat.mul_succ, Nat.add_right_comm, Nat.add_comm]]
    exact star_absorb hR hkept hF (fun o => .inr (ih o)) o

theorem fixed_within_star {shape : LoopShape} {body : Node} {size : Nat} (hfit : shape.Fits l body size) (hsize : size ≠ 0)
    (hF : F.Steady) (hg : l.greedy = true) (hu : l.upper = some (max l.lower 1)) (o : Outcome) :
    Within (shape.explore l (fun _ => none) f (fun G => star e true R G f) F o)
      (star e true R F (f * (l.lower + f)) o) := by
  have hloop : Within (star e true R F (f * f) o) (star e true R F (f * (l.lower + f)) o) :=
    star_mono hR hF (Nat.mul_le_mul_left f (Nat.le_add_left ..)) o
  rcases hfit.explore_of_upper (R := fun G => star e true R G f) (F := F) (f := f) hsize hu (by omega) (.inl hg)
    with ⟨-, h⟩ | ⟨-, h⟩ <;> rw [h]
  · cases hn : l.lower with
    | zero =>
      have hone : (l.rest (max 0 1)).upper = some 1 := congrArg some (by omega)
      exact (explore_within_star (l := l.rest (max 0 1)) hR hkept hF hg hone Nat.one_pos o).trans (hn ▸ hloop)
    | succ n =>
      have hzero : (l.rest (max (n + 1) 1)).upper = some 0 := congrArg some (by omega)
      exact (repeat_within_star (h := 0) hR hkept hF (fun o => .inl (Loop.explore_stop hF hzero o)) o).trans
        (star_mono hR hF (Nat.mul_le_mul_left f (Nat.le_add_right ..)) o)
  · exact (explore_within_star hR hkept hF hg hu (by omega) o).trans hloop

/-- `*` の外側の上限は、下限まで縮めてよい。 -/
theorem narrow_star {l' : Loop} {shape shape' : LoopShape} {body : Node} {size : Nat} (hF : F.Steady)
    (hfit : shape.Fits l body size) (hfit' : shape'.Fits l' body size) (hsize : size ≠ 0) (hg : l.greedy = true)
    (hg' : l'.greedy = true) (hlower : l'.lower = l.lower) (hordered : l.lower ≤ u) (hmany : 1 < u)
    (hu : l.upper = some (max l.lower 1)) (hu' : l'.upper = some u) (hle : f * (l.lower + f) + u < g) (o : Outcome) :
    Within (shape.explore l (fun _ => none) f (fun G => star e true R G f) F o)
      (shape'.explore l' (fun _ => none) g (fun G => star e true R G g) F o) := by
  let T : Cont Outlook := star e true R F (f * (l.lower + f))
  have hfirst : ∀ K, F.Contains T K → ∀ o, Within (T o) (star e true R K g o) :=
    fun K hK o => star_insert hR hkept hF (by omega) (fun o => (hK o).imp_right .inl) o
  have hlast : ∀ K, F.Contains T K → ∀ o, Within (T o) (fun res => star e true R K g o (F o res)) := by
    intro K hK o
    have h : Within (ordered true (T o) (F o)) (ordered true (star e true R K g o) (F o)) :=
      (hfirst K hK o).ordered (hF.mono o)
    rwa [star_then_eq hR hkept hF o] at h
  exact (fixed_within_star hR hkept hfit hsize hF hg hu o).trans
    (hfit'.covers hsize hF hg' hu' (by omega) (by omega) hlast (.inr hfirst) (by omega) o)

/-! ## `+` の外側 -/

theorem plus_congr (hXY : ∀ o, Within (X o) (Y o)) (hle : f ≤ g) (o : Outcome) :
    Within (R (star e true R X f) o) (R (star e true R Y g) o) :=
  hR.within fun o' _ => star_congr hR hkept hXY hle o'

theorem plus_insert (hF : F.Steady) (hle : f ≤ g) (hK : F.Contains (star e true R F f) K) (o : Outcome) :
    Within (R (star e true R F f) o) (R (star e true R K g) o) :=
  hR.within fun o' _ => star_insert hR hkept hF hle (fun o => (hK o).imp_right .inl) o'

theorem star_within_plus_then (hF : F.Steady) (hle : f ≤ g) (hK : F.Contains (star e true R F f) K) (o : Outcome) :
    Within (star e true R F f o) (fun res => R (star e true R K g) o (F o res)) :=
  (star_unfold hR hkept hF o).trans ((plus_insert hR hkept hF hle hK o).comp (hF.mono o))

theorem repeat_plus (hF : F.Steady) (hle : f ≤ g) (hX : ∀ o, Within (X o) (F o))
    (hY : F.Contains (star e true R F f) Y) (n : Nat) (o : Outcome) :
    Within (Nat.repeat (fun G => R (star e true R G f)) (n + 1) X o)
      (Nat.repeat (fun G => R (star e true R G g)) (n + 1) Y o) := by
  induction n generalizing o with
  | zero => exact (plus_congr hR hkept hX (Nat.le_refl f) o).trans (plus_insert hR hkept hF hle hY o)
  | succ n ih => exact plus_congr hR hkept ih hle o

theorem contains_counted {l' : Loop} (hF : F.Steady) (hle : f ≤ g) (hg : l'.greedy = true) (hlower : l'.lower ≤ k)
    (hu : l'.upper = some u) (hk : k ≤ u) (hbound : u < h + k) :
    F.Contains (star e true R F f) (l'.explore (fun _ => none) (fun G => R (star e true R G g)) F h k) :=
  Loop.explore_contains hF hu hk (by omega) fun hlt =>
    Loop.explore_covers hF hg hu (fun _ hK => star_within_plus_then hR hkept hF hle hK) (.inl hlower) hlt hbound

/-- 数えながら回る `+` も、上限を縮めてよい。 -/
theorem counted_plus {l l' : Loop} (hF : F.Steady) (hle : f ≤ g) (hg : l'.greedy = true)
    (hempty : l.emptyBody = l'.emptyBody) (hlower : l'.lower = l.lower) (hu : l.upper = some l.lower)
    (hu' : l'.upper = some u) (hordered : l.lower ≤ u) (hjh : j ≤ h) (hbound : u < h + k) (hk : k < l.lower)
    (o : Outcome) : Within (l.explore (fun _ => none) (fun G => R (star e true R G f)) F j k o)
      (l'.explore (fun _ => none) (fun G => R (star e true R G g)) F h k o) := by
  induction j generalizing h k o with
  | zero => exact Loop.explore_zero
  | succ j ih =>
    obtain ⟨h, rfl⟩ := Nat.exists_eq_add_of_le' hjh
    rw [← Nat.add_assoc, Loop.explore_turn (Loop.lt_upper hu hk) hk,
      Loop.explore_turn (Loop.lt_upper hu' (by omega)) (by omega)]
    by_cases hlast : k + 1 < l.lower
    · refine plus_congr hR hkept (fun o' => ?_) hle o
      rw [hempty]
      split
      · exact hF.mono o'
      · exact ih (Nat.le_add_left ..) (by omega) hlast o'
    -- 下限の最後の一回の後は、元の輪は続きに進み、上限の大きい輪はさらに続ける
    · obtain hn : l.lower = k + 1 := by omega
      refine (plus_congr hR hkept (Y := F) (fun o' => ?_) (Nat.le_refl f) o).trans
        (plus_insert hR hkept hF hle (Loop.contains_unless_stuck hF ?_ o) o)
      · split
        · exact hF.mono o'
        · exact Loop.explore_stop hF (hn ▸ hu) o'
      · exact contains_counted hR hkept hF hle hg (by omega) hu' (by omega) (by omega)

section
variable {l' : Loop} {shape shape' : LoopShape} {body : Node} {size : Nat} (hF : F.Steady)
  (hfit : shape.Fits l body size) (hfit' : shape'.Fits l' body size) (hsize : size ≠ 0)
  (hg : l.greedy = true) (hg' : l'.greedy = true) (hlower : l'.lower = l.lower) (hordered : l.lower ≤ u) (hmany : 1 < u)
  (hu : l.upper = some (max l.lower 1)) (hu' : l'.upper = some u)
include hF hfit hfit' hsize hg hg' hlower hordered hmany hu hu'

omit hordered in
theorem narrow_plus_zero (hn : l.lower = 0) (he : l.emptyBody = .never) (hle : f + u < g) (o : Outcome) :
    Within (shape.explore l (fun _ => none) f (fun G => R (star e true R G f)) F o)
      (shape'.explore l' (fun _ => none) g (fun G => R (star e true R G g)) F o) := by
  have hone : l.upper = some 1 := by rw [hu, hn]; rfl
  have hloop : ∀ m : Loop, m.upper = some 1 → m.lower = 0 → m.greedy = true → m.emptyBody = .never →
      Within (m.explore (fun _ => none) (fun G => R (star e true R G f)) F f 0 o) (star e true R F (f + 1) o) := by
    intro m hmu hml hmg hme
    cases f with
    | zero => exact Loop.explore_zero
    | succ f =>
      rw [Loop.explore_optional hmu hml hme, hmg, ← star_then_eq hR hkept hF o]
      refine ((plus_congr hR hkept (fun o' => Loop.explore_stop hF hmu o') (Nat.le_refl _) o).ordered (hF.mono o)).trans ?_
      exact again_within_star (f := f + 1) (i := true) (r := true) hR hkept hF rfl o
  refine Within.trans (U := star e true R F (f + 1) o) ?_ ?_
  · rcases hfit.explore_of_upper (R := fun G => R (star e true R G f)) (F := F) (f := f) hsize hone Nat.one_ne_zero (.inl hg)
      with ⟨-, h⟩ | ⟨-, h⟩ <;> rw [h]
    · rw [hn]
      exact hloop (l.rest 1) (congrArg (fun n => some (1 - n)) hn) rfl hg rfl
    · exact hloop l hone hn hg he
  · exact hfit'.covers hsize hF hg' hu' (by omega) (by omega)
      (fun K hK => star_within_plus_then hR hkept hF (by omega) hK) (.inl (hlower.trans hn)) (by omega) o

omit hmany in
/-- 検査で抜けることがなければ、`+` の外側の上限は縮めてよい。 -/
theorem narrow_plus_open (hn : l.lower = n + 1) (hopen : shape.isGuarded = false ∨ l.emptyBody = .never)
    (hopen' : shape'.isGuarded = false ∨ l'.emptyBody = .never) (hle : f + l.lower + u < g) (o : Outcome) :
    Within (shape.explore l (fun _ => none) f (fun G => R (star e true R G f)) F o)
      (shape'.explore l' (fun _ => none) g (fun G => R (star e true R G g)) F o) := by
  have hS (f : Nat) : Traced (fun _ => none) kept fun G => R (star e true R G f) := hR.comp (hR.explore _ f 0)
  have hfixed : l.upper = some l.lower := hu.trans (congrArg some (by omega))
  obtain ⟨X, hX, hleft⟩ := hfit.within_repeat (f := f) hsize hF hg hfixed (hS f) hopen rfl hn o
  have hlast (K : Cont Outlook) (hK : F.Contains (star e true R F f) K) (o : Outcome) :
      Within (star e true R F f o) (fun res => R (star e true R K g) o (F o res)) :=
    star_within_plus_then hR hkept hF (by omega) hK o
  obtain ⟨Y, hY, hright⟩ :=
    hfit'.repeat_within (g := g) hsize hF hg' hu' (hS g) hopen' (hlower ▸ hordered) (hlower.trans hn) hlast (by omega) o
  have hcopies : Within (Nat.repeat (fun G => R (star e true R G f)) (n + 1) X o)
      (Nat.repeat (fun G => R (star e true R G g)) (n + 1) Y o) := repeat_plus hR hkept hF (by omega) hX hY n o
  exact (hleft.trans hcopies).trans hright

omit hfit' hordered in
theorem narrow_plus_one (hone : l.lower = 1) (he : l.emptyBody = .never) (hle : f + u < g) (o : Outcome) :
    Within (shape.explore l (fun _ => none) f (fun G => R (star e true R G f)) F o)
      (l'.explore (fun _ => none) (fun G => R (star e true R G g)) F g 0 o) := by
  have hS : Traced (fun _ => none) kept fun G => R (star e true R G f) := hR.comp (hR.explore _ f 0)
  obtain ⟨X, hX, hleft⟩ := hfit.within_repeat (f := f) (n := 0) hsize hF hg hu hS (.inr he) (by omega) hone o
  obtain ⟨g, rfl⟩ := Nat.exists_eq_succ_of_ne_zero (n := g) (by omega)
  refine (hleft.trans (plus_congr hR hkept hX (Nat.le_refl f) o)).trans ?_
  rw [Loop.explore_turn (Loop.lt_upper hu' (by omega)) (by omega)]
  exact plus_insert hR hkept hF (by omega) (Loop.contains_unless_stuck hF
    (contains_counted hR hkept hF (by omega) hg' (by omega) hu' (by omega) (by omega)) o) o

/-- `+` の外側の上限も、二つが同じ形に開かれるか、本体が空に合わないか、下限が高々一なら、縮めてよい。 -/
theorem narrow_plus (he : l.lower ≤ 1 → l.emptyBody = .never) (he' : 1 < l.lower → l.emptyBody = l'.emptyBody)
    (hform : l.lower ≤ 1 ∨ l'.emptyBody = .never ∨ shape.isGuarded = shape'.isGuarded)
    (hle : f + l.lower + u < g) (o : Outcome) :
    Within (shape.explore l (fun _ => none) f (fun G => R (star e true R G f)) F o)
      (shape'.explore l' (fun _ => none) g (fun G => R (star e true R G g)) F o) := by
  cases hn : l.lower with
  | zero =>
    exact narrow_plus_zero hR hkept hF hfit hfit' hsize hg hg' hlower hmany hu hu' hn (he (by omega)) (by omega) o
  | succ n =>
    have hopened := narrow_plus_open (f := f) (g := g) hR hkept hF hfit hfit' hsize hg hg' hlower hordered hu hu' hn
    by_cases hopen' : shape'.isGuarded = false ∨ l'.emptyBody = .never
    · refine hopened ?_ hopen' hle o
      by_cases hone : l.lower ≤ 1
      · exact .inr (he hone)
      · rw [he' (by omega)]
        rcases hopen' with hopen' | hnever
        · exact (hform.resolve_left hone).symm.imp (·.trans hopen') id
        · exact .inr hnever
    -- 元の方が検査を置いて数えるとき
    obtain ⟨hguarded, hnever⟩ := not_or.1 hopen'
    have hcounted : shape'.explore l' (fun _ => none) g (fun G => R (star e true R G g)) F =
        l'.explore (fun _ => none) (fun G => R (star e true R G g)) F g 0 :=
      ((hfit'.explore_of_upper hsize hu' (by omega) (.inl hg')).resolve_left fun h => hguarded h.1).2
    rw [hcounted]
    by_cases hone : l.lower = 1
    · exact narrow_plus_one hR hkept hF hfit hsize hg hg' hlower hmany hu hu' hone (he (by omega)) (by omega) o
    have hguard : shape.isGuarded = shape'.isGuarded := (hform.resolve_left (by omega)).resolve_left hnever
    have hfixed : l.upper = some l.lower := hu.trans (congrArg some (by omega))
    have hcounted' : shape.explore l (fun _ => none) f (fun G => R (star e true R G f)) F =
        l.explore (fun _ => none) (fun G => R (star e true R G f)) F f 0 :=
      ((hfit.explore_of_upper hsize hfixed (by omega) (.inl hg)).resolve_left fun h => hguarded (hguard.symm.trans h.1)).2
    rw [hcounted']
    exact counted_plus hR hkept hF (by omega) hg' (he' (by omega)) hlower hfixed hu' hordered (by omega) (by omega)
      (by omega) o

end
end
end Cont
end MultibyteRegex

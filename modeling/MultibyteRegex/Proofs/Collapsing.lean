import MultibyteRegex.Proofs.Insertion
import MultibyteRegex.Tree.Repeat

/-!
# 重なる繰り返し

よく使う繰り返しを二つ重ねた合い方は、直した一つの繰り返しの合い方を、試し直す他は同じ順に並べている。控えめな
`+?` の外側が欲張りな `*` か `+` のときだけは、短い方から試すはずの合い方を長い方から試すので、順が変わる。
-/

namespace MultibyteRegex

open Outlook (Within ordered)

namespace Cont

variable {e e' : EmptyBody} {i r : Bool} {kept : Prop} {R S : Cont Outlook → Cont Outlook} {F K : Cont Outlook}
  {f g j n : Nat} {o : Outcome}

section
variable (hR : Traced (fun _ => none) kept R)
include hR

/-! ## 輪の展開 -/

section
variable (hkept : e = .possible → kept)
include hkept

theorem star_then (hF : F.Steady) (hir : (i && r) = i) (o : Outcome) :
    Within (star e i R F f o) (ordered r (star e i R F f o) (F o)) := by
  cases f with
  | zero => exact star_zero _
  | succ f =>
    have hfold : ordered r (star e i R F (f + 1) o) (F o) = star e i R F (f + 1) o := by
      rw [star_succ hR hkept o, (turn_once hR hF o).ordered_fold (hF.once o), hir]
    rw [hfold]
    exact (star_steady hR hF).mono o

theorem after_within_star (hF : F.Steady) (o : Outcome) :
    Within (R (after e o F (star e i R F f)) o) (R (star e i R F (f + 1)) o) :=
  after_within hR hkept hF (fun o' _ => star_mono hR hF (Nat.le_succ f) o') fun _ =>
    .inr (.inl ((star_steady hR hF).mono o))

theorem star_within_after (hF : F.Steady) (o : Outcome) :
    Within (R (star e i R F f) o) (R (after e o F (star e i R F f)) o) := by
  rw [← (after_again hR hkept hF o).1]
  refine hR.within fun o' _ => ?_
  by_cases hs : e ≠ .never ∧ o' = o
  · rw [after_of_stuck hs]
    exact star_mono hR hF (Nat.le_succ f) o'
  · rw [after_of_not_stuck hs]
    exact (star_steady hR hF).mono o'

theorem star_unfold (hF : F.Steady) (o : Outcome) :
    Within (star e i R F f o) (ordered i (R (star e i R F f) o) (F o)) := by
  cases f with
  | zero => exact star_zero _
  | succ f =>
    rw [star_succ hR hkept o]
    exact (after_within_star hR hkept hF o).ordered (hF.mono o)

/-- 一回の後に輪を続けてから続きを試すのは、輪から始めて続きを試すより広くない。 -/
theorem again_within_star (hF : F.Steady) (hir : (i && r) = r) (o : Outcome) :
    Within (ordered r (R (star e i R F f) o) (F o)) (ordered r (star e i R F (f + 1) o) (F o)) := by
  rw [star_succ hR hkept o, (turn_once hR hF o).ordered_fold (hF.once o), hir]
  exact (star_within_after hR hkept hF o).ordered (hF.mono o)

end

/-- 検査のない輪は、検査のある輪より広くない。 -/
theorem star_within_guarded (hF : F.Steady) (hkept : e = .possible → kept) (hkept' : e' = .possible → kept)
    (hne : e' ≠ .never) (o : Outcome) : Within (star e i R F f o) (star e' i R F f o) := by
  induction f generalizing o with
  | zero => exact star_zero _
  | succ f ih =>
    rw [star_succ hR hkept o, star_succ hR hkept' o]
    refine Within.ordered ?_ (hF.mono o)
    by_cases he : e = .never
    · rw [after_of_never he]
      exact (hR.within fun o' _ => ih o').trans (star_within_after hR hkept' hF o)
    · refine hR.within fun o' _ => ?_
      by_cases ho : o' = o
      · rw [after_of_stuck ⟨he, ho⟩, after_of_stuck ⟨hne, ho⟩]
        exact hF.mono o'
      · rw [after_of_not_stuck fun h => ho h.2, after_of_not_stuck fun h => ho h.2]
        exact ih o'

end

/-! ## 輪を重ねる -/

/-- 外側の輪が一回ごとに `T` を保つなら、外側の輪は `T` より広い。 -/
theorem star_covers (hS : Traced (fun _ => none) kept S) (hkept' : e' = .possible → kept) (hF : F.Steady)
    {T : Nat → Cont Outlook}
    (hstep : ∀ f < n, ∀ K o, (e' ≠ .never → Within (F o) (K o)) →
      (∀ o', 0 < f → ¬(e' ≠ .never ∧ o' = o) → Within (T f o') (K o')) →
      Within (T (f + 1) o) (ordered r (S K o) (F o)))
    (hpos : 0 < f) (hn : f ≤ n) (hle : f ≤ g) (o : Outcome) : Within (T f o) (star e' r S F g o) := by
  induction f generalizing g o with
  | zero => exact absurd hpos (Nat.lt_irrefl 0)
  | succ f ih =>
    obtain ⟨g, rfl⟩ := Nat.exists_eq_add_of_le' hle
    rw [← Nat.add_assoc, star_succ hS hkept' o]
    refine hstep f hn _ o (fun hne => ?_) fun o' hpos hs => ?_
    · rw [after_of_stuck ⟨hne, rfl⟩]
      exact hF.mono o
    · rw [after_of_not_stuck hs]
      exact ih hpos (Nat.le_of_succ_le hn) (Nat.le_add_left ..) o'

/-- 続きに進むか、輪を続けてから続きに進む続きは、輪を繰り返す。 -/
theorem Repeats.of_after (hR : Traced (fun _ => none) kept R) (hkept : e = .possible → kept) (hF : F.Steady)
    (hhere : e' ≠ .never → Within (F o) (K o))
    (hmore : ∀ o', 0 < f → ¬(e' ≠ .never ∧ o' = o) → Within (ordered r (star e i R F f o') (F o')) (K o'))
    (o' : Outcome) : Repeats F (star e i R F f) K o' := by
  by_cases hs : e' ≠ .never ∧ o' = o
  · exact .inl (hs.2 ▸ hhere hs.1)
  cases f with
  | zero => exact .inr (.inl (star_zero _))
  | succ f =>
    have h := hmore o' (Nat.succ_pos f) hs
    cases r with
    | true => exact .inr (.inl ((star_then hR hkept hF (Bool.and_true i) o').trans h))
    | false => exact .inr (.inr h)

section
variable (hR : Traced (fun _ => none) kept R) (hkept : e = .possible → kept) (hkept' : e' = .possible → kept)
include hR hkept hkept'

theorem star_over_star (hF : F.Steady) (hne : e' ≠ .never) (hpos : 0 < f) (hj : f ≤ j) (hg : f ≤ g) (o : Outcome) :
    Within (ordered r (star e i R F f o) (F o)) (star e' r (fun G => star e i R G j) F g o) := by
  refine star_covers (T := fun f o => ordered r (star e i R F f o) (F o)) (n := j)
    (hR.explore (Loop.star e i) j 0) hkept' hF (fun f hf K o hhere hmore => ?_) hpos hj hg o
  obtain ⟨j, rfl⟩ := Nat.exists_eq_succ_of_ne_zero (Nat.ne_of_gt (Nat.zero_lt_of_lt hf))
  exact (star_insert_here hR hkept hF (Nat.le_of_lt_succ hf) (Repeats.of_after hR hkept hF hhere hmore)
    (hhere hne)).ordered (hF.mono o)

theorem star_over_plus (hF : F.Steady) (he : e ≠ .never → e' ≠ .never) (hir : (i && r) = r) (hpos : 0 < f) (hj : f ≤ j)
    (hg : f ≤ g) (o : Outcome) :
    Within (ordered r (star e i R F f o) (F o)) (star e' r (fun G => R (star e i R G j)) F g o) := by
  refine star_covers (T := fun f o => ordered r (star e i R F f o) (F o)) (n := j)
    (hR.comp (hR.explore (Loop.star e i) j 0)) hkept' hF (fun f hf K o hhere hmore => ?_) hpos hj hg o
  obtain ⟨j, rfl⟩ := Nat.exists_eq_succ_of_ne_zero (Nat.ne_of_gt (Nat.zero_lt_of_lt hf))
  have hrepeats := Repeats.of_after (o := o) hR hkept hF hhere hmore
  rw [star_succ hR hkept o, (turn_once hR hF o).ordered_fold (hF.once o), hir]
  refine (after_within hR hkept hF (fun o' _ => ?_) fun hne => .inr (.inl ?_)).ordered (hF.mono o)
  · exact star_insert hR hkept hF (Nat.le_of_lt hf) hrepeats o'
  · exact star_insert_here hR hkept hF (Nat.le_of_lt_succ hf) hrepeats (hhere (he hne))

theorem star_over_optional (hF : F.Steady) (hne : e' ≠ .never) (hg : f ≤ g) (o : Outcome) :
    Within (star e (i && r) R F f o) (star e' r (fun G o => ordered i (R G o) (G o)) F g o) := by
  rcases Nat.eq_zero_or_pos f with rfl | hpos
  · exact star_zero _
  refine (star_within_guarded hR hF hkept hkept' hne o).trans (star_covers (n := f)
    (T := fun f o => star e' (i && r) R F f o) ?_ hkept' hF (fun f _ K o hhere hmore => ?_) hpos (Nat.le_refl f) hg o)
  · intro o
    cases i with
    | true => exact (hR o).orElse (Traced.stay o)
    | false => exact (Traced.stay o).orElse (hR o)
  · rw [star_succ hR hkept' o, ← (turn_once hR hF o).ordered_fold (hF.once o)]
    refine (Within.ordered ?_ (hhere hne)).ordered (hF.mono o)
    refine after_within hR hkept' hF (fun o' hs => ?_) fun _ => .inl (hhere hne)
    cases f with
    | zero => exact star_zero _
    | succ f => exact hmore o' (Nat.succ_pos f) hs

theorem star_within_star (hF : F.Steady) (hne : e' ≠ .never) (hir : (i && r) = i) (hj : f < j) (hg : f < g)
    (o : Outcome) : Within (star e i R F f o) (star e' r (fun G => star e i R G j) F g o) :=
  ((star_mono hR hF (Nat.le_succ f) o).trans (star_then hR hkept hF hir o)).trans
    (star_over_star hR hkept hkept' hF hne (Nat.succ_pos f) hj hg o)

theorem star_within_plus (hF : F.Steady) (he : e ≠ .never → e' ≠ .never) (hir : i = r) (hj : f < j) (hg : f < g)
    (o : Outcome) : Within (star e i R F f o) (star e' r (fun G => R (star e i R G j)) F g o) := by
  have hand : (i && r) = r := by rw [hir, Bool.and_self]
  exact ((star_mono hR hF (Nat.le_succ f) o).trans (star_then hR hkept hF (hand.trans hir.symm) o)).trans
    (star_over_plus hR hkept hkept' hF he hand (Nat.succ_pos f) hj hg o)

omit hkept' in
/-- 外側の輪が内側の輪を含めば、外側の輪に続く内側の輪も、内側の輪を含む。 -/
theorem star_insert_over (hF : F.Steady) (hle : f ≤ g)
    (hK : ∀ o, Within (ordered r (star e i R F f o) (F o)) (K o)) (o : Outcome) :
    Within (star e i R F f o) (star e i R K g o) := by
  refine star_insert hR hkept hF hle (fun o' => ?_) o
  cases r with
  | true => exact .inr (.inl ((star_then hR hkept hF (Bool.and_true i) o').trans (hK o')))
  | false => exact .inr (.inr (hK o'))

omit hkept' in
theorem star_within_optional (hF : F.Steady) (hK : ∀ o, Within (star e i R F (f + 1) o) (K o)) (o : Outcome) :
    Within (star e i R F f o) (ordered i (R K o) (K o)) := by
  have hstar : star e i R F (f + 1) o = ordered i (R (after e o F (star e i R F f)) o) (star e i R F (f + 1) o) := by
    rw [star_succ hR hkept o, (turn_once hR hF o).ordered_again]
  refine (star_mono hR hF (Nat.le_succ f) o).trans ?_
  rw [hstar]
  exact ((after_within_star hR hkept hF o).trans (hR.within fun o' _ => hK o')).ordered (hK o)

end
end Cont

/-! ## よく使う繰り返し -/

namespace Quantifier

/-- よく使う繰り返しの見通し。 -/
def run (q : Quantifier) (e : EmptyBody) (fuel : Nat) (R : Cont Outlook → Cont Outlook) (F : Cont Outlook) :
    Cont Outlook :=
  match q with
  | .optional => fun o => ordered true (R F o) (F o)
  | .lazyOptional => fun o => ordered false (R F o) (F o)
  | .star => .star e true R F fuel
  | .lazyStar => .star e false R F fuel
  | .plus => R (.star e true R F fuel)
  | .lazyPlus => R (.star e false R F fuel)

/-- 外から順に重ねた繰り返しの見通し。`flag` は、内側の繰り返しに応じた空回りの検査である。 -/
def runs (flag : List Quantifier → EmptyBody) (fuel : Nat) (R : Cont Outlook → Cont Outlook) :
    List Quantifier → Cont Outlook → Cont Outlook
  | [] => R
  | q :: qs => q.run (flag qs) fuel (runs flag fuel R qs)

/-- 直した一つの繰り返しが、重ねた二つの順を保つ。 -/
def KeepsOrder (inner outer : Quantifier) : Prop := ¬(inner = .lazyPlus ∧ (outer = .star ∨ outer = .plus))

instance (inner outer : Quantifier) : Decidable (KeepsOrder inner outer) := inferInstanceAs (Decidable ¬_)

variable {e : EmptyBody} {kept : Prop} {R S : Cont Outlook → Cont Outlook} {F : Cont Outlook} {f g : Nat}

theorem carries_run (hR : Cont.Carries kept R S) (hle : f ≤ g) (q : Quantifier) :
    Cont.Carries kept (q.run e f R) (q.run e g S) := by
  have hstar (greedy : Bool) : Cont.Carries kept (fun F => Cont.star e greedy R F f) (fun F => Cont.star e greedy S F g) :=
    ⟨hR.left.explore _ f 0, hR.right.explore _ g 0, fun _ _ hF => (Loop.explore_below hR hF hle).le⟩
  cases q with
  | optional =>
    exact ⟨fun o => (hR.left o).orElse (Traced.stay o), fun o => (hR.right o).orElse (Traced.stay o),
      fun _ _ hF o res res' hres => hR.le hF o (hF.le o hres)⟩
  | lazyOptional =>
    exact ⟨fun o => (Traced.stay o).orElse (hR.left o), fun o => (Traced.stay o).orElse (hR.right o),
      fun _ _ hF o res res' hres => hF.le o (hR.le hF o hres)⟩
  | star => exact hstar true
  | lazyStar => exact hstar false
  | plus =>
    exact ⟨hR.left.comp (hstar true).left, hR.right.comp (hstar true).right, fun _ _ hF => hR.le ((hstar true).apply hF)⟩
  | lazyPlus =>
    exact ⟨hR.left.comp (hstar false).left, hR.right.comp (hstar false).right, fun _ _ hF => hR.le ((hstar false).apply hF)⟩

theorem carries_runs (flag : List Quantifier → EmptyBody) (hR : Cont.Carries kept R S) (hle : f ≤ g)
    (qs : List Quantifier) :
    Cont.Carries kept (runs flag f R qs) (runs flag g S qs) := by
  induction qs with
  | nil => exact hR
  | cons q qs ih => exact carries_run ih hle q

section
variable {flag : List Quantifier → EmptyBody} (hR : Traced (fun _ => none) kept R) (hF : F.Steady)
  (hkept : ∀ qs, flag qs = .possible → kept) (hlt : f < g)
include hR hF hkept hlt

omit hlt in
theorem runs_again (o : Outcome) : Within (ordered false (R (Cont.star (flag []) true R F f) o) (F o))
    (ordered false (Cont.star (flag []) true R F (f + 1) o) (F o)) :=
  Cont.again_within_star hR (hkept []) hF rfl o

/-- `?` と `??` の外側。 -/
theorem runs_over_optional {inner : Quantifier} (outer : Quantifier) (hinner : inner = .optional ∨ inner = .lazyOptional)
    (hne : flag [inner] ≠ .never) (o : Outcome) :
    Within (runs flag f R (inner.reduce outer) F o) (runs flag g R [outer, inner] F o) := by
  have hk := hkept []
  have hk' := hkept [inner]
  have hfold (i r : Bool) : Within (ordered (i && r) (R F o) (F o)) (ordered r (ordered i (R F o) (F o)) (F o)) := by
    rw [(hR.once hF.once o).ordered_fold (hF.once o)]
    exact ((hR.steady hF).mono o).ordered (hF.mono o)
  have hle := Nat.le_of_lt hlt
  rcases hinner with rfl | rfl
  · cases outer with
    | optional => exact hfold true true
    | lazyOptional => exact hfold true false
    | star => exact Cont.star_over_optional (i := true) (r := true) hR hk hk' hF hne hle o
    | lazyStar => exact Cont.star_over_optional (i := true) (r := false) hR hk hk' hF hne hle o
    | plus =>
      exact Cont.star_within_optional hR hk hF
        (Cont.star_over_optional (i := true) (r := true) hR hk hk' hF hne hlt) o
    | lazyPlus => exact (carries_runs flag (.refl hR) hle [.lazyPlus, .optional]).le hF.below o
  · cases outer with
    | optional => exact hfold false true
    | lazyOptional => exact hfold false false
    | star => exact Cont.star_over_optional (i := false) (r := true) hR hk hk' hF hne hle o
    | lazyStar => exact Cont.star_over_optional (i := false) (r := false) hR hk hk' hF hne hle o
    | plus =>
      exact Cont.star_within_optional hR hk hF
        (Cont.star_over_optional (i := false) (r := true) hR hk hk' hF hne hlt) o
    | lazyPlus =>
      exact Cont.star_within_optional hR hk hF
        (Cont.star_over_optional (i := false) (r := false) hR hk hk' hF hne hlt) o

theorem runs_over_star {inner : Quantifier} (outer : Quantifier) (hinner : inner = .star ∨ inner = .lazyStar)
    (hne : flag [inner] ≠ .never) (o : Outcome) :
    Within (runs flag f R (inner.reduce outer) F o) (runs flag g R [outer, inner] F o) := by
  have hk := hkept []
  have hk' := hkept [inner]
  have hover (i r : Bool) (o : Outcome) := Cont.star_over_star (i := i) (r := r) hR hk hk' hF hne
    (Nat.succ_pos f) hlt hlt o
  have hloop (i r : Bool) (hir : (i && r) = i) : Within (Cont.star (flag []) i R F f o)
      (ordered r (Cont.star (flag []) i R F g o) (F o)) :=
    (Cont.star_then hR hk hF hir o).trans ((Cont.star_mono hR hF (Nat.le_of_lt hlt) o).ordered (hF.mono o))
  have hinsert (i r : Bool) := (Cont.star_mono hR hF (Nat.le_succ f) o).trans
    (Cont.star_insert_over hR hk hF hlt (hover i r) o)
  rcases hinner with rfl | rfl
  · cases outer with
    | optional => exact hloop true true rfl
    | lazyOptional =>
      exact (runs_again hR hF hkept o).trans ((Cont.star_mono hR hF hlt o).ordered (hF.mono o))
    | star => exact Cont.star_within_star (i := true) (r := true) hR hk hk' hF hne rfl hlt hlt o
    | lazyStar => exact (runs_again hR hF hkept o).trans (hover true false o)
    | plus => exact hinsert true true
    | lazyPlus => exact hinsert true false
  · cases outer with
    | optional => exact hloop false true rfl
    | lazyOptional => exact hloop false false rfl
    | star => exact Cont.star_within_star (i := false) (r := true) hR hk hk' hF hne rfl hlt hlt o
    | lazyStar => exact Cont.star_within_star (i := false) (r := false) hR hk hk' hF hne rfl hlt hlt o
    | plus => exact hinsert false true
    | lazyPlus => exact hinsert false false

theorem runs_over_plus {inner : Quantifier} (outer : Quantifier) (hinner : inner = .plus ∨ inner = .lazyPlus)
    (horder : KeepsOrder inner outer) (he : flag [] ≠ .never → flag [inner] ≠ .never) (o : Outcome) :
    Within (runs flag f R (inner.reduce outer) F o) (runs flag g R [outer, inner] F o) := by
  have hk := hkept []
  have hk' := hkept [inner]
  have hle := Nat.le_of_lt hlt
  have hover (i r : Bool) (hir : (i && r) = r) (o : Outcome) := Cont.star_over_plus (i := i) (r := r) hR hk hk' hF he hir
    (Nat.succ_pos f) hlt hlt o
  have hloop (i : Bool) : Within (Cont.star (flag []) i R F f o)
      (ordered i (R (Cont.star (flag []) i R F g) o) (F o)) :=
    (Cont.star_unfold hR hk hF o).trans
      ((hR.within fun o' _ => Cont.star_mono hR hF hle o').ordered (hF.mono o))
  have hinsert (i r : Bool) (hir : (i && r) = r) := hR.within (o := o) fun o' _ =>
    (Cont.star_mono hR hF (Nat.le_succ f) o').trans (Cont.star_insert_over hR hk hF hlt (hover i r hir) o')
  rcases hinner with rfl | rfl
  · cases outer with
    | optional => exact hloop true
    | lazyOptional => exact (carries_runs flag (.refl hR) hle [.lazyOptional, .plus]).le hF.below o
    | star => exact Cont.star_within_plus (i := true) (r := true) hR hk hk' hF he rfl hlt hlt o
    | lazyStar => exact (runs_again hR hF hkept o).trans (hover true false rfl o)
    | plus => exact hinsert true true rfl
    | lazyPlus => exact hinsert true false rfl
  · cases outer with
    | optional => exact (carries_runs flag (.refl hR) hle [.optional, .lazyPlus]).le hF.below o
    | lazyOptional => exact hloop false
    | star => exact absurd ⟨rfl, .inl rfl⟩ horder
    | lazyStar => exact Cont.star_within_plus (i := false) (r := false) hR hk hk' hF he rfl hlt hlt o
    | plus => exact absurd ⟨rfl, .inr rfl⟩ horder
    | lazyPlus => exact hinsert false false rfl

/-- 直した繰り返しで決まる答えは、重ねた二つの繰り返しでも同じに決まる。 -/
theorem runs_reduce {inner : Quantifier} (outer : Quantifier) (horder : KeepsOrder inner outer)
    (hflag : inner.toLoop.lower = 0 ∨ flag [] ≠ .never → flag [inner] ≠ .never) (o : Outcome) :
    Within (runs flag f R (inner.reduce outer) F o) (runs flag g R [outer, inner] F o) := by
  cases inner with
  | optional => exact runs_over_optional hR hF hkept hlt outer (.inl rfl) (hflag (.inl rfl)) o
  | lazyOptional => exact runs_over_optional hR hF hkept hlt outer (.inr rfl) (hflag (.inl rfl)) o
  | star => exact runs_over_star hR hF hkept hlt outer (.inl rfl) (hflag (.inl rfl)) o
  | lazyStar => exact runs_over_star hR hF hkept hlt outer (.inr rfl) (hflag (.inl rfl)) o
  | plus => exact runs_over_plus hR hF hkept hlt outer (.inl rfl) horder (fun h => hflag (.inr h)) o
  | lazyPlus => exact runs_over_plus hR hF hkept hlt outer (.inr rfl) horder (fun h => hflag (.inr h)) o

end

end Quantifier
end MultibyteRegex

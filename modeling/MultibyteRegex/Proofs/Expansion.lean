import MultibyteRegex.Proofs.Traces

/-!
# 繰り返しの開き方

同じ繰り返しを、並べた本体にも、輪にも、数える繰り返しにも開く。本体が空に合わなければ、どの開き方も同じ合い方を
同じ順に試す。本体が空に合っても、一回を求める輪なら、飛び込んでも、本体を並べてから続けても、同じ合い方を二度
試すかどうかしか違わない。
-/

namespace MultibyteRegex

/-! ## 見通しの比べ方 -/

namespace Outlook

/-- `a` で決まる答えは、`b` でも同じに決まる。 -/
def Below (a b : Outlook) : Prop := ∀ best v, a best = some v → b best = some v

variable {a b c : Outlook} {T T' U U' V : Outlook → Outlook}

theorem Below.refl (a : Outlook) : Below a a := fun _ _ h => h

theorem Below.trans (h : Below a b) (h' : Below b c) : Below a c := fun best v hv => h' best v (h best v hv)

/-- 失敗したときの見通しも広げると、`T` で決まる答えは `U` でも同じに決まる。 -/
def Within (T U : Outlook → Outlook) : Prop := ∀ ⦃res res'⦄, Below res res' → Below (T res) (U res')

theorem Within.trans (h : Within T U) (h' : Within U V) : Within T V :=
  fun res _ hres => (h (.refl res)).trans (h' hres)

theorem Within.comp (h : Within T U) (h' : Within T' U') :
    Within (fun res => T (T' res)) (fun res => U (U' res)) := fun _ _ hres => h (h' hres)

end Outlook

open Outlook (Within)

namespace Cont

/-- 二度試す意味のない続きで、失敗したときの見通しを広げると広がる。 -/
structure Steady (F : Cont Outlook) : Prop where
  once : F.Once
  mono : ∀ o, Within (F o) (F o)

/-- 失敗したときの見通しを広げれば、続きの見通しも広がる。 -/
structure Below (F G : Cont Outlook) : Prop where
  left : F.Steady
  right : G.Steady
  le : ∀ o, Within (F o) (G o)

theorem Steady.below {F : Cont Outlook} (hF : F.Steady) : F.Below F := ⟨hF, hF, hF.mono⟩

end Cont

namespace Traced

variable {kept : Prop} {R : Cont Outlook → Cont Outlook} {F G : Cont Outlook} {o : Outcome}

theorem within (hR : Traced (fun _ => none) kept R)
    (h : ∀ o', (kept → o'.caps = o.caps) → Within (F o') (G o')) : Within (R F o) (R G o) := by
  obtain ⟨t, ht, hcaps⟩ := hR o
  have hrun : ∀ H res, R H o res = t.run (fun _ => none) H res := ht
  intro res res' hres
  rw [hrun, hrun, Trace.run, Trace.run]
  have hlast : Outlook.Below (if t.done then res else fun _ => none) (if t.done then res' else fun _ => none) := by
    split
    · exact hres
    · exact .refl _
  generalize t.outcomes = os at hcaps
  induction os with
  | nil => exact hlast
  | cons o' os ih =>
    obtain ⟨ho', hos⟩ := List.forall_mem_cons.1 hcaps
    exact h o' ho' (ih hos)

theorem steady (hR : Traced (fun _ => none) kept R) (hF : F.Steady) : (R F).Steady :=
  ⟨hR.once hF.once, fun _ => hR.within fun o' _ => hF.mono o'⟩

end Traced

namespace Cont

/-- 続きの見通しを広げれば、節の見通しも広がる。`kept` なら、節は捕獲を変えない。 -/
structure Carries (kept : Prop) (R S : Cont Outlook → Cont Outlook) : Prop where
  left : Traced (fun _ => none) kept R
  right : Traced (fun _ => none) kept S
  le : ∀ ⦃F G⦄, Below F G → ∀ o, Within (R F o) (S G o)

variable {kept : Prop} {R S : Cont Outlook → Cont Outlook} {F F' G G' : Cont Outlook}

theorem Carries.refl (hR : Traced (fun _ => none) kept R) : Carries kept R R :=
  ⟨hR, hR, fun _ _ h _ => hR.within fun o' _ => h.le o'⟩

theorem Carries.trans {T : Cont Outlook → Cont Outlook} (h : Carries kept R S) (h' : Carries kept S T) :
    Carries kept R T :=
  ⟨h.left, h'.right, fun _ _ hF o => (h.le hF.left.below o).trans (h'.le hF o)⟩

theorem Carries.apply (h : Carries kept R S) (hF : Below F G) : Below (R F) (S G) :=
  ⟨h.left.steady hF.left, h.right.steady hF.right, h.le hF⟩

theorem Carries.repeat (h : Carries kept R S) (hF : Below F G) (n : Nat) :
    Below (Nat.repeat R n F) (Nat.repeat S n G) := by
  induction n with
  | zero => exact hF
  | succ n ih => exact h.apply ih

theorem Below.const {u v : Outcome → Outlook} (h : ∀ o, Outlook.Below (u o) (v o)) :
    Below (fun o _ => u o) (fun o _ => v o) :=
  ⟨⟨fun o => .const (u o), fun o _ _ _ => .refl (u o)⟩, ⟨fun o => .const (v o), fun o _ _ _ => .refl (v o)⟩,
    fun o _ _ _ => h o⟩

theorem Below.map (hF : Below F G) (u : Outcome → Outcome) : Below (fun o => F (u o)) (fun o => G (u o)) :=
  ⟨⟨fun o => hF.left.once (u o), fun o => hF.left.mono (u o)⟩, ⟨fun o => hF.right.once (u o), fun o => hF.right.mono (u o)⟩,
    fun o => hF.le (u o)⟩

theorem Steady.ite (hF : F.Steady) (hG : G.Steady) (c : Outcome → Prop) [DecidablePred c] :
    Steady fun o res => if c o then F o res else G o res := by
  refine ⟨fun o => ?_, fun o res res' hres => ?_⟩
  · by_cases hc : c o
    · simp only [hc, if_true]
      exact hF.once o
    · simp only [hc, if_false]
      exact hG.once o
  · split
    · exact hF.mono o hres
    · exact hG.mono o hres

theorem Below.ite (hF : Below F G) (hF' : Below F' G') (c : Outcome → Prop) [DecidablePred c] :
    Below (fun o res => if c o then F o res else F' o res) (fun o res => if c o then G o res else G' o res) := by
  refine ⟨hF.left.ite hF'.left c, hF.right.ite hF'.right c, fun o res res' hres => ?_⟩
  split
  · exact hF.le o hres
  · exact hF'.le o hres

end Cont

/-! ## 輪 -/

/-- 捕獲も変わらないなら、空回りした一回の後は、元の合い方である。 -/
theorem EmptyBody.isStuck_iff {e : EmptyBody} {o o' : Outcome} (hne : e ≠ .never)
    (h : e = .possible → o'.caps = o.caps) : e.isStuck o o' ↔ o' = o := by
  obtain ⟨pos, caps⟩ := o
  obtain ⟨pos', caps'⟩ := o'
  cases e with
  | never => exact absurd rfl hne
  | possible =>
    obtain rfl : caps' = caps := h rfl
    simp only [isStuck, beq_iff_eq, Outcome.mk.injEq, and_true]
    exact eq_comm
  | possibleWithCaptures =>
    simp only [isStuck, Bool.and_eq_true, beq_iff_eq, Outcome.mk.injEq]
    exact and_congr eq_comm eq_comm

namespace Loop

variable {l : Loop} {kept : Prop} {R S : Cont Outlook → Cont Outlook} {F G : Cont Outlook} {f g k n : Nat}

theorem explore_below (hR : Cont.Carries kept R S) (hF : F.Below G) (hle : f ≤ g) :
    Cont.Below (l.explore (fun _ => none) R F f k) (l.explore (fun _ => none) S G g k) := by
  refine ⟨(hR.left.explore l f k).steady hF.left, (hR.right.explore l g k).steady hF.right, ?_⟩
  induction f generalizing g k with
  | zero =>
    intro o res res' _ best v h
    cases h
  | succ f ih =>
    obtain ⟨g, rfl⟩ := Nat.exists_eq_add_of_le' hle
    have hmore : Cont.Below (l.explore (fun _ => none) R F f (k + 1))
        (l.explore (fun _ => none) S G (g + f) (k + 1)) :=
      ⟨(hR.left.explore l f _).steady hF.left, (hR.right.explore l _ _).steady hF.right, ih (Nat.le_add_left ..)⟩
    intro o res res' hres
    have hturn : ∀ {res res' : Outlook}, Outlook.Below res res' →
        Outlook.Below (Emit.Follows.turn l R F f k o res) (Emit.Follows.turn l S G (g + f) k o res') :=
      fun hres => hR.le (hF.ite hmore (fun o' => l.emptyBody.isStuck o o')) o hres
    simp only [explore]
    split
    · exact hF.le o hres
    split
    · exact hturn hres
    split
    · exact hturn (hF.le o hres)
    · exact hF.le o (hturn hres)

/-- 下限まで続けた後は、下限のない輪を残りの回数だけ続けるのと同じである。 -/
theorem explore_rest {α : Type} {bot : α} {R : Cont α → Cont α} {F : Cont α} :
    explore { l with lower := 0, upper := l.upper.map (· - l.lower) } bot R F f k =
      l.explore bot R F f (l.lower + k) := by
  induction f generalizing k with
  | zero => rfl
  | succ f ih =>
    have hupper : (l.upper.map (· - l.lower)).all (k < ·) = l.upper.all (l.lower + k < ·) := by
      cases l.upper with
      | none => rfl
      | some u => simp only [Option.map_some, Option.all_some, decide_eq_decide]; omega
    funext o res
    simp only [explore, hupper, ih, Nat.not_lt_zero, if_false, Nat.not_lt.2 (Nat.le_add_right l.lower k),
      Nat.add_assoc]

/-! ### 空に合わない本体 -/

/-- 下限に届かないうちは、本体を一つ並べるのと同じである。 -/
theorem explore_succ (he : l.emptyBody = .never) (hl : l.Ordered) (hk : k < l.lower) :
    l.explore (fun _ => none) R F (f + 1) k = R (l.explore (fun _ => none) R F f (k + 1)) := by
  funext o res
  rw [Emit.Follows.explore_of_lt (fun u hu => Nat.lt_of_lt_of_le hk (hl u hu)) hk]
  simp only [Emit.Follows.turn, he, EmptyBody.isStuck, Bool.false_eq_true, if_false]

/-- 下限まで本体を並べてから続けた答えは、輪に任せても決まる。 -/
theorem repeat_below_explore (he : l.emptyBody = .never) (hl : l.Ordered) (hR : Cont.Carries kept R S)
    (hF : F.Below G) (hk : k + n = l.lower) (hle : f + n ≤ g) :
    Cont.Below (Nat.repeat R n (l.explore (fun _ => none) R F f l.lower))
      (l.explore (fun _ => none) S G g k) := by
  induction n generalizing g k with
  | zero =>
    obtain rfl : k = l.lower := hk
    exact explore_below hR hF hle
  | succ n ih =>
    obtain ⟨g, rfl⟩ := Nat.exists_eq_succ_of_ne_zero (n := g) (by omega)
    rw [Nat.succ_eq_add_one, explore_succ he hl (by omega)]
    exact hR.apply (ih (by omega) (by omega))

/-- 輪に任せた答えは、下限まで本体を並べても決まる。 -/
theorem explore_below_repeat (he : l.emptyBody = .never) (hl : l.Ordered) (hR : Cont.Carries kept R S)
    (hF : F.Below G) (hk : k + n = l.lower) (hle : f ≤ g) :
    Cont.Below (l.explore (fun _ => none) R F f k)
      (Nat.repeat S n (l.explore (fun _ => none) S G g l.lower)) := by
  induction n generalizing f k with
  | zero =>
    obtain rfl : k = l.lower := hk
    exact explore_below hR hF hle
  | succ n ih =>
    cases f with
    | zero =>
      refine ⟨(hR.left.explore l 0 k).steady hF.left,
        (hR.repeat (explore_below hR hF hle) (n + 1)).right, fun o res res' _ best v h => ?_⟩
      cases h
    | succ f =>
      rw [explore_succ he hl (by omega)]
      exact hR.apply (ih (by omega) (by omega))

/-! ### 空に合う本体 -/

/-- 上限がなければ、下限に届いた後の輪は、続けた回数によらない。 -/
theorem explore_of_reached {j : Nat} (hu : l.upper = none) (hj : l.lower ≤ j) (hk : l.lower ≤ k) :
    l.explore (fun _ => none) R F f j = l.explore (fun _ => none) R F f k := by
  induction f generalizing j k with
  | zero => rfl
  | succ f ih =>
    funext o res
    have hmore : ∀ k, ∀ u ∈ l.upper, k < u := by simp [hu]
    rw [Emit.Follows.explore_of_le (hmore j) hj, Emit.Follows.explore_of_le (hmore k) hk]
    simp only [Emit.Follows.turn, ih (Nat.le_succ_of_le hj) (Nat.le_succ_of_le hk)]

/-- 一回は続ける輪に飛び込むのは、検査のない本体を並べてから輪を続けるのと同じである。空回りした一回の後の輪は、
もう試した合い方しか試さない。 -/
theorem explore_once (hR : Traced (fun _ => none) kept R) (hF : F.Once) (hu : l.upper = none)
    (hlower : l.lower = 1) (hne : l.emptyBody ≠ .never) (hkept : l.emptyBody = .possible → kept) (f : Nat)
    (o : Outcome) :
    l.explore (fun _ => none) R F (f + 1) 0 o =
      R (fun o' res => if o' = o then l.explore (fun _ => none) R F (f + 1) 1 o' res
        else l.explore (fun _ => none) R F f 1 o' res) o := by
  let K : Cont Outlook := fun o' res => if o' = o then F o' res else l.explore (fun _ => none) R F f 1 o' res
  have hK : K.Once := by
    intro o'
    by_cases ho' : o' = o
    · simpa only [K, ho', if_true] using hF o
    · simpa only [K, ho', if_false] using (hR.explore l f 1).once hF o'
  have hmore : ∀ k, ∀ u ∈ l.upper, k < u := by simp [hu]
  -- 届く合い方で空回りになるのは、元と同じ合い方だけである
  have hturn : ∀ k, Emit.Follows.turn l R F f k o = R K o := by
    intro k
    refine hR.congr fun o' ho' => ?_
    funext res
    have hstuck : l.emptyBody.isStuck o o' ↔ o' = o :=
      EmptyBody.isStuck_iff hne fun he => ho' (hkept he)
    simp only [K, hstuck, explore_of_reached (j := k + 1) (k := 1) hu (by omega) (by omega)]
  have hstar : ∀ res, l.explore (fun _ => none) R F (f + 1) 1 o res =
      if l.greedy then R K o (F o res) else F o (R K o res) := by
    intro res
    rw [Emit.Follows.explore_of_le (hmore 1) (by omega), hturn]
  funext res
  rw [Emit.Follows.explore_of_lt (hmore 0) (by omega), hturn]
  refine (congrFun (hR.retry hK (o := o) (fun o' ho' => ?_) ?_) res).symm
  · simp only [K, ho', if_false]
  · simp only [K, hstar, if_true]
    cases l.greedy
    · exact .inr (.inl fun _ => rfl)
    · exact .inl fun _ => rfl

end Loop

namespace LoopShape

variable {l : Loop} {body : Node} {shape shape' : LoopShape} {kept : Prop} {R S : Cont Outlook → Cont Outlook}
  {F G : Cont Outlook} {f g size size' : Nat}

theorem explore_below (shape : LoopShape) (hR : Cont.Carries kept R S) (hF : F.Below G) (hle : f ≤ g) :
    Cont.Below (shape.explore l (fun _ => none) f R F) (shape.explore l (fun _ => none) g S G) :=
  hR.repeat (Loop.explore_below hR hF hle) _

/-- 本体が空に合わなければ、輪に任せるか、下限まで本体を並べるかの違いしかない。 -/
theorem Fits.explore_eq (h : shape.Fits l body size) (hsize : size ≠ 0) (hl : l.Ordered)
    (he : l.emptyBody = .never) :
    shape.explore l (fun _ => none) f R F = l.explore (fun _ => none) R F f 0 ∨
      shape.explore l (fun _ => none) f R F = Nat.repeat R l.lower (l.explore (fun _ => none) R F f l.lower) := by
  have hrest : Loop.explore { l with lower := 0, upper := l.upper.map (· - l.lower) } (fun _ => none) R F f 0 =
      l.explore (fun _ => none) R F f l.lower := Loop.explore_rest
  obtain ⟨lower, upper, greedy, emptyBody, head, next⟩ := l
  obtain rfl : emptyBody = .never := he
  cases shape with
  | nothing =>
    obtain rfl : upper = some 0 := h.resolve_left hsize
    obtain rfl : lower = 0 := Nat.le_zero.1 (hl 0 rfl)
    exact .inl rfl
  | anyStar =>
    obtain ⟨-, -, rfl⟩ := h
    exact .inr (congrArg (Nat.repeat R lower) hrest)
  | ring copies jumpIn =>
    obtain ⟨-, rfl, hcopies⟩ := h
    cases jumpIn with
    | true => exact .inl rfl
    | false =>
      obtain rfl : copies = lower := hcopies
      exact .inr (congrArg (Nat.repeat R copies) hrest)
  | unrolled required extra =>
    obtain ⟨-, -, u, rfl, -, rfl, rfl⟩ := h
    exact .inr (congrArg (Nat.repeat R _) hrest)
  | lazyOptional => exact .inl rfl
  | counted => exact .inl rfl

/-- 本体が空に合わなければ、開き方を変えても、`fuel` を下限だけ足せば同じ答えが決まる。 -/
theorem Fits.explore_below (h : shape.Fits l body size) (h' : shape'.Fits l body size') (hsize : size ≠ 0)
    (hsize' : size' ≠ 0) (hl : l.Ordered) (he : l.emptyBody = .never) (hR : Cont.Carries kept R S)
    (hF : F.Below G) (hle : f + l.lower ≤ g) :
    Cont.Below (shape.explore l (fun _ => none) f R F) (shape'.explore l (fun _ => none) g S G) := by
  have hle' : f ≤ g := by omega
  have hs := h.explore_eq (f := f) (R := R) (F := F) hsize hl he
  have ht := h'.explore_eq (f := g) (R := S) (F := G) hsize' hl he
  rcases hs with hs | hs <;> rcases ht with ht | ht <;> rw [hs, ht]
  · exact Loop.explore_below hR hF hle'
  · exact Loop.explore_below_repeat he hl hR hF (Nat.zero_add _) hle'
  · exact Loop.repeat_below_explore he hl hR hF (Nat.zero_add _) hle
  · exact hR.repeat (Loop.explore_below hR hF hle') _

/-- 本体が空に合っても、一回は続ける輪は、飛び込んでも、本体を並べてから続けても、同じ答えが決まる。 -/
theorem ring_below (hR : Cont.Carries kept R S) (hF : F.Below G) (hu : l.upper = none) (hlower : l.lower = 1)
    (hne : l.emptyBody ≠ .never) (hkept : l.emptyBody = .possible → kept) (hle : f + 1 ≤ g) :
    Cont.Below ((ring 1 false).explore l (fun _ => none) f R F) ((ring 0 true).explore l (fun _ => none) g S G) ∧
      Cont.Below ((ring 0 true).explore l (fun _ => none) f R F)
        ((ring 1 false).explore l (fun _ => none) g S G) := by
  have hcopy : ∀ {f : Nat} {R : Cont Outlook → Cont Outlook} {F : Cont Outlook},
      (ring 1 false).explore l (fun _ => none) f R F = R (l.explore (fun _ => none) R F f 1) := by
    intro f R F
    obtain ⟨lower, upper, greedy, emptyBody, head, next⟩ := l
    obtain rfl : upper = none := hu
    obtain rfl : lower = 1 := hlower
    exact congrArg R (Loop.explore_rest (l := ⟨1, none, greedy, emptyBody, head, next⟩))
  have hjump : ∀ {f : Nat} {R : Cont Outlook → Cont Outlook} {F : Cont Outlook},
      (ring 0 true).explore l (fun _ => none) f R F = l.explore (fun _ => none) R F f 0 := rfl
  obtain ⟨g, rfl⟩ := Nat.exists_eq_add_of_le' hle
  have hstar : ∀ {f h : Nat}, f ≤ h → Cont.Below (l.explore (fun _ => none) R F f 1)
      (l.explore (fun _ => none) S G h 1) := Loop.explore_below hR hF
  simp only [hcopy, hjump]
  constructor
  · refine ⟨(hR.apply (hstar (Nat.le_refl f))).left, (hR.right.explore l _ 0).steady hF.right,
      fun o res res' hres => ?_⟩
    have hsplit := (hstar (f := f) (h := g + f + 1) (by omega)).ite (hstar (f := f) (h := g + f) (by omega)) (· = o)
    simp only [ite_self] at hsplit
    rw [← Nat.add_assoc, Loop.explore_once hR.right hF.right.once hu hlower hne hkept]
    exact hR.le hsplit o hres
  · refine ⟨(hR.left.explore l f 0).steady hF.left, (hR.apply (hstar hle)).right, fun o res res' hres => ?_⟩
    cases f with
    | zero =>
      intro best v h
      cases h
    | succ f =>
      have hsplit := (hstar (f := f + 1) (h := g + (f + 1 + 1)) (by omega)).ite
        (hstar (f := f) (h := g + (f + 1 + 1)) (by omega)) (· = o)
      simp only [ite_self] at hsplit
      rw [Loop.explore_once hR.left hF.left.once hu hlower hne hkept]
      exact hR.le hsplit o hres

end LoopShape

/-! ## 節 -/

namespace Node

/-- 続きの見通しを広げれば、`n` から `n'` へも広がる。 -/
def Carried (env env' : CodeEnv) (x : Setting) (f g : Nat) (options : Options) (n n' : Node) : Prop :=
  ∀ ⦃F G : Cont Outlook⦄, F.Below G →
    ∀ o, Within (n.explore env x (fun _ => none) f options F o) (n'.explore env' x (fun _ => none) g options G o)

namespace Carried

variable {env env' : CodeEnv} {x : Setting} {f g : Nat} {options : Options} {n n' : Node} {ns ns' : List Node}

theorem carries (h : Carried env env' x f g options n n') (hcapture : n'.hasCapture = n.hasCapture) :
    Cont.Carries (n.hasCapture = false) (n.explore env x (fun _ => none) f options)
      (n'.explore env' x (fun _ => none) g options) :=
  ⟨CodeEnv.traced_explore n, hcapture ▸ CodeEnv.traced_explore n', h⟩

theorem list (h : List.Forall₂ (Carried env env' x f g options) ns ns') :
    Carried env env' x f g options (.list ns) (.list ns') := by
  intro F G hF
  change ∀ o, Within (exploreList env x (fun _ => none) f options ns F o)
    (exploreList env' x (fun _ => none) g options ns' G o)
  induction h with
  | nil => exact hF.le
  | cons hn _ ih => exact hn ⟨(CodeEnv.traced_exploreList _).steady hF.left, (CodeEnv.traced_exploreList _).steady hF.right, ih⟩

theorem alt (h : List.Forall₂ (Carried env env' x f g options) ns ns') :
    Carried env env' x f g options (.alt ns) (.alt ns') := by
  intro F G hF
  change ∀ o, Within (exploreAlt env x (fun _ => none) f options ns F o)
    (exploreAlt env' x (fun _ => none) g options ns' G o)
  induction h with
  | nil => exact hF.le
  | cons hn hns ih =>
    cases hns with
    | nil => exact hn hF
    | cons => exact fun o => (hn hF o).comp (ih o)

theorem group (kind : GroupKind) (h : Carried env env' x f g options n n')
    (hbehind : kind = .behind ∨ kind = .notBehind → env'.behind? x n' = env.behind? x n) :
    Carried env env' x f g options (.group kind n) (.group kind n') := by
  intro F G hF o res res' hres
  cases kind with
  | capture k undo => exact h (hF.map (·.closed k)) (o.opened k) hres
  | atomic => exact h (.const fun o' => hF.le o' hres) o hres
  | ahead => exact h (.const fun o' => hF.le (o'.moveTo o.pos) hres) o hres
  | notAhead => exact h (.const fun _ => hres) o (hF.le o hres)
  | behind =>
    simp only [explore, hbehind (.inl rfl)]
    split
    · exact h hF (o.moveTo _) hres
    · exact hres
  | notBehind =>
    simp only [explore, hbehind (.inr rfl)]
    split
    · exact h (.const fun _ => hres) (o.moveTo _) (hF.le o hres)
    · exact hF.le o hres

end Carried
end Node
end MultibyteRegex

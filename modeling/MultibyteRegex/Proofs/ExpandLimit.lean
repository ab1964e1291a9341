import Mathlib.Algebra.GroupWithZero.Nat
import Mathlib.Algebra.Order.BigOperators.Group.List
import Mathlib.Algebra.Order.Group.Nat
import MultibyteRegex.Proofs.Expansion
import MultibyteRegex.Proofs.Peeking

/-!
# 開く命令数の上限

上限を変えると、繰り返しの開き方が変わる。本体が空に合う回数つきの繰り返しでは、空回りの検査のある開き方だけが、
下限に届かないうちに輪を抜けるので、答えが変わりうる。その他の繰り返しでは、どの上限でも同じ答えになる。
-/

namespace MultibyteRegex

namespace LoopShape

variable {l : Loop} {body : Node} {size size' : Nat}

/-- 上限がなく、高々一回しか求めない繰り返しの開き方は、一回を求める輪に飛び込むかどうかしか違わない。 -/
theorem of_eq_or_ring (hu : l.upper = none) (hlower : l.lower ≤ 1) (hsize : size = 0 ↔ size' = 0) (a b : Nat) :
    of a l body size = of b l body size' ∨ l.lower = 1 ∧
      (of a l body size = ring 1 false ∧ of b l body size' = ring 0 true ∨
        of a l body size = ring 0 true ∧ of b l body size' = ring 1 false) := by
  by_cases h0 : size' = 0
  · simp [of, h0, hsize]
  by_cases hany : (l.greedy && l.isInfinite && isAny body) = true
  · simp [of, h0, hsize, hu, hany]
  simp only [of, h0, hsize, hu, hany, hlower]
  by_cases h1 : l.lower = 1
  · by_cases ha : a < size <;> by_cases hb : b < size' <;> simp [h1, ha, hb]
  · simp [h1]

/-- 開き方は、本体については、任意の文字かどうかしか見ない。 -/
theorem of_congr {body' : Node} (h : isAny body' = isAny body) (limit : Nat) (l : Loop) (size : Nat) :
    of limit l body' size = of limit l body size := by
  simp only [of, h]

/-- 本体が空に合わないか、下限が高々一で上限がないか、同じ形に開く。 -/
def opensAlike (l : Loop) (shape shape' : LoopShape) : Bool :=
  l.emptyBody == .never || (l.isInfinite && decide (l.lower ≤ 1)) || shape == shape'

variable {kept : Prop} {R S : Cont Outlook → Cont Outlook} {F G : Cont Outlook} {a b f g : Nat}

/-- 二つの開き方で、本体の見通しを広げれば、繰り返しの見通しも広がる。 -/
theorem below_of_opensAlike (h : opensAlike l (of a l body size) (of b l body size')) (hl : l.Ordered)
    (hsize : size = 0 ↔ size' = 0) (hkept : l.emptyBody = .possible → kept) (hR : Cont.Carries kept R S)
    (hF : F.Below G) (hle : f + l.lower ≤ g) :
    Cont.Below ((of a l body size).explore l (fun _ => none) f R F)
      ((of b l body size').explore l (fun _ => none) g S G) := by
  have hsame (hshape : of a l body size = of b l body size') :
      Cont.Below ((of a l body size).explore l (fun _ => none) f R F)
        ((of b l body size').explore l (fun _ => none) g S G) := by
    rw [hshape]
    exact explore_below _ hR hF (by omega)
  by_cases hnever : l.emptyBody = .never
  · by_cases h0 : size = 0
    · refine hsame ?_
      rw [of, of, if_pos (.inl h0), if_pos (.inl (hsize.1 h0))]
    · exact (of_fits ..).explore_below (of_fits ..) h0 (h0 ∘ hsize.2) hl hnever hR hF hle
  simp only [opensAlike, Bool.or_eq_true, beq_iff_eq, hnever, false_or, Bool.and_eq_true, decide_eq_true_eq,
    Loop.isInfinite, Option.isNone_iff_eq_none] at h
  rcases h with ⟨hu, hlower⟩ | hshape
  · rcases of_eq_or_ring hu hlower hsize a b with hshape | ⟨hone, hshapes⟩
    · exact hsame hshape
    · obtain ⟨hcopy, hjump⟩ := ring_below hR hF hu hone hnever hkept (hone ▸ hle)
      rcases hshapes with ⟨ha, hb⟩ | ⟨ha, hb⟩ <;> rw [ha, hb]
      · exact hcopy
      · exact hjump
  · exact hsame hshape

end LoopShape

/-! ## 木の中の繰り返し -/

/-- 繰り返しと、そこで効く旗。 -/
structure Repeat where
  options : Options
  loop : Loop
  body : Node

/-- 空回りの検査が捕獲を比べないなら、本体に捕獲はない。 -/
def Repeat.IsGuarded (r : Repeat) : Prop := r.loop.emptyBody = .possible → r.body.hasCapture = false

mutual
/-- 木の中の繰り返し。 -/
def Node.repeats (options : Options) : Node → List Repeat
  | .list nodes => repeatsIn options nodes
  | .alt nodes => repeatsIn options nodes
  | .loop l body => ⟨options, l, body⟩ :: body.repeats options
  | .scoped inner body => body.repeats inner
  | .group _ body => body.repeats options
  | _ => []

def Node.repeatsIn (options : Options) : List Node → List Repeat
  | [] => []
  | n :: ns => n.repeats options ++ repeatsIn options ns
end

namespace CodeEnv

/-- 開く命令数の上限を変える。 -/
def withLimit (env : CodeEnv) (limit : Nat) : CodeEnv := { env with expandLimit := limit }

/-- 二つの上限で、本体の見通しを広げれば、繰り返しの見通しも広がる。 -/
def Widens (env : CodeEnv) (a b f g : Nat) (r : Repeat) : Prop :=
  ∀ ⦃R S : Cont Outlook → Cont Outlook⦄, Cont.Carries (r.body.hasCapture = false) R S →
    ∀ ⦃F G : Cont Outlook⦄, F.Below G →
      Cont.Below (((env.withLimit a).shape r.options r.loop r.body).explore r.loop (fun _ => none) f R F)
        (((env.withLimit b).shape r.options r.loop r.body).explore r.loop (fun _ => none) g S G)

variable {env : CodeEnv} {x : Setting} {a b f g : Nat}

theorem carried_leaf {n : Node} {options : Options}
    (h : ∀ (e : CodeEnv) (fuel : Nat) (F : Cont Outlook), n.explore e x (fun _ => none) fuel options F =
      fun o res => match n.leafEnd? x options o with
        | some s => F (o.moveTo s) res
        | none => res) :
    Node.Carried (env.withLimit a) (env.withLimit b) x f g options n n := by
  intro F G hF o res res' hres
  rw [h, h]
  dsimp only
  split
  · exact hF.le (o.moveTo _) hres
  · exact hres

mutual
/-- どの繰り返しの見通しも広がるなら、木の見通しも広がる。 -/
theorem carried_self : (n : Node) → {options : Options} → (∀ r ∈ n.repeats options, env.Widens a b f g r) →
    Node.Carried (env.withLimit a) (env.withLimit b) x f g options n n
  | .list ns, _, h => .list (allCarried_self ns h)
  | .alt ns, _, h => .alt (allCarried_self ns h)
  | .loop _ body, options, h => by
    obtain ⟨hloop, hbody⟩ := List.forall_mem_cons.1 h
    exact fun F G hF => (hloop ((carried_self body hbody).carries rfl) hF).le
  | .scoped _ body, _, h => carried_self body h
  | .group kind body, options, h => by
    have hbody : ∀ r ∈ body.repeats options, env.Widens a b f g r := h
    exact (carried_self body hbody).group kind fun _ => rfl
  | .empty, _, _ => fun _ _ hF => hF.le
  | .str _, _, _ | .raw _, _, _ | .cclass _, _, _ | .word _, _, _ | .any, _, _ | .anchor _, _, _
  | .backref _, _, _ => carried_leaf fun _ _ _ => rfl

theorem allCarried_self : (ns : List Node) → {options : Options} →
    (∀ r ∈ Node.repeatsIn options ns, env.Widens a b f g r) →
    List.Forall₂ (fun n n' => Node.Carried (env.withLimit a) (env.withLimit b) x f g options n n') ns ns
  | [], _, _ => .nil
  | n :: ns, _, h => by
    obtain ⟨hn, hns⟩ := List.forall_mem_append.1 h
    exact .cons (carried_self n hn) (allCarried_self ns hns)
end

/-! ## 命令のない節 -/

/-- 繰り返しに命令がないのは、本体に命令がないか、一回も続けないときである。 -/
theorem total_of_eq_zero (limit : Nat) (l : Loop) (body : Node) (size : Nat) :
    (LoopShape.of limit l body size).total l size = 0 ↔ size = 0 ∨ l.upper = some 0 := by
  have hfits := LoopShape.of_fits limit l body size
  constructor
  · intro h
    generalize LoopShape.of limit l body size = shape at h hfits
    cases shape with
    | nothing => exact hfits
    | unrolled required extra =>
      obtain ⟨hsize, -, u, hu, hu0, rfl, rfl⟩ := hfits
      obtain ⟨hrequired, hextra⟩ := Nat.add_eq_zero_iff.1 h
      have hlower := (Nat.mul_eq_zero.1 hrequired).resolve_left hsize
      have hrest := (Nat.mul_eq_zero.1 hextra).resolve_right (Nat.succ_ne_zero size)
      omega
    | _ => simp [LoopShape.total] at h
  · intro h
    simp only [LoopShape.of, if_pos h, LoopShape.total]

/-- 二つの命令数の、どちらも誤りか、どちらも零か、どちらも零でない。 -/
inductive EmptyAlike : Except CompileError Nat → Except CompileError Nat → Prop
  | ok {i j : Nat} (h : i = 0 ↔ j = 0) : EmptyAlike (.ok i) (.ok j)
  | error (e : CompileError) : EmptyAlike (.error e) (.error e)

namespace EmptyAlike

variable {s t : Except CompileError Nat} {u v : Nat → Except CompileError Nat}

theorem refl (s : Except CompileError Nat) : EmptyAlike s s := by
  cases s with
  | ok i => exact .ok Iff.rfl
  | error e => exact .error e

theorem trans {r : Except CompileError Nat} (h : EmptyAlike s t) (h' : EmptyAlike t r) : EmptyAlike s r := by
  cases h with
  | ok h =>
    cases h' with
    | ok h' => exact .ok (h.trans h')
  | error e => exact h'

theorem bind (h : EmptyAlike s t) (huv : ∀ {i j}, (i = 0 ↔ j = 0) → EmptyAlike (u i) (v j)) :
    EmptyAlike (s >>= u) (t >>= v) := by
  cases h with
  | ok h => exact huv h
  | error e => exact .error e

/-- 誤りのときは零とみなす。 -/
theorem getD (h : EmptyAlike s t) : s.toOption.getD 0 = 0 ↔ t.toOption.getD 0 = 0 := by
  cases h with
  | ok h => exact h
  | error e => exact Iff.rfl

end EmptyAlike

namespace EmptyAlike

variable {env' : CodeEnv} {options : Options} {ns ns' : List Node}

theorem list (h : List.Forall₂ (fun n n' => EmptyAlike (env.size options n) (env'.size options n')) ns ns') :
    EmptyAlike (env.size options (.list ns)) (env'.size options (.list ns')) := by
  change EmptyAlike (env.sizeList options ns) (env'.sizeList options ns')
  induction h with
  | nil => exact .refl _
  | cons hn _ ih => exact hn.bind fun h => ih.bind fun h' => .ok (by rw [Nat.add_eq_zero_iff, Nat.add_eq_zero_iff, h, h'])

theorem alt (h : List.Forall₂ (fun n n' => EmptyAlike (env.size options n) (env'.size options n')) ns ns') :
    EmptyAlike (env.size options (.alt ns)) (env'.size options (.alt ns')) := by
  change EmptyAlike (env.sizeAlt options ns) (env'.sizeAlt options ns')
  induction h with
  | nil => exact .refl _
  | cons hn hns ih =>
    cases hns with
    | nil => exact hn
    | cons => exact hn.bind fun _ => ih.bind fun _ => .ok (by simp)

theorem loop {l : Loop} {n n' : Node} (h : EmptyAlike (env.size options n) (env'.size options n')) :
    EmptyAlike (env.size options (.loop l n)) (env'.size options (.loop l n')) :=
  h.bind fun h => .ok (by rw [total_of_eq_zero, total_of_eq_zero, h])

theorem group {kind : GroupKind} {n n' : Node} (h : EmptyAlike (env.size options n) (env'.size options n')) :
    EmptyAlike (env.size options (.group kind n)) (env'.size options (.group kind n')) := by
  cases kind with
  | _ => exact h.bind fun _ => .ok (by simp)

end EmptyAlike

mutual
/-- 節に命令があるかどうかは、上限によらない。 -/
theorem size_emptyAlike : (n : Node) → {options : Options} →
    EmptyAlike ((env.withLimit a).size options n) ((env.withLimit b).size options n)
  | .list ns, _ => .list (allSize_emptyAlike ns)
  | .alt ns, _ => .alt (allSize_emptyAlike ns)
  | .loop _ body, _ => (size_emptyAlike body).loop
  | .scoped _ body, _ => size_emptyAlike body
  | .group _ body, _ => (size_emptyAlike body).group
  | .empty, _ | .str _, _ | .raw _, _ | .cclass _, _ | .word _, _ | .any, _ | .anchor _, _
  | .backref _, _ => .refl _

theorem allSize_emptyAlike : (ns : List Node) → {options : Options} →
    List.Forall₂ (fun n n' => EmptyAlike ((env.withLimit a).size options n) ((env.withLimit b).size options n')) ns ns
  | [], _ => .nil
  | n :: ns, _ => .cons (size_emptyAlike n) (allSize_emptyAlike ns)
end

/-! ## 上限を変えた木 -/

theorem shape_fits (env : CodeEnv) (options : Options) (l : Loop) (body : Node) :
    (env.shape options l body).Fits l body ((env.size options body).toOption.getD 0) := LoopShape.of_fits ..

/-- 命令のない本体を繰り返しても、命令は出ない。 -/
theorem shape_eq_nothing {options : Options} {l : Loop} {body : Node}
    (h : (env.size options body).toOption.getD 0 = 0) : env.shape options l body = .nothing := by
  rw [shape, LoopShape.of, if_pos (.inl h)]

/-- 繰り返しの本体に命令があるかどうかも、上限によらない。 -/
theorem size_eq_zero_iff (env : CodeEnv) (a b : Nat) (r : Repeat) :
    ((env.withLimit a).size r.options r.body).toOption.getD 0 = 0 ↔
      ((env.withLimit b).size r.options r.body).toOption.getD 0 = 0 := (size_emptyAlike r.body).getD

/-- 本体が空に合わないか、下限が高々一で上限がないか、二つの上限で同じに開く。 -/
def agrees (env : CodeEnv) (a b : Nat) (r : Repeat) : Bool :=
  r.loop.emptyBody == .never || (r.loop.isInfinite && decide (r.loop.lower ≤ 1)) ||
    (env.withLimit a).shape r.options r.loop r.body == (env.withLimit b).shape r.options r.loop r.body

theorem agrees_comm (r : Repeat) : env.agrees b a r = env.agrees a b r := by
  simp only [agrees, BEq.comm]

theorem widens_of_agrees {r : Repeat} (h : env.agrees a b r) (hl : r.loop.Ordered) (hguard : r.IsGuarded)
    (hle : f + r.loop.lower ≤ g) : env.Widens a b f g r :=
  fun _ _ hR _ _ hF => LoopShape.below_of_opensAlike h hl (size_eq_zero_iff env a b r) hguard hR hF hle

end CodeEnv

/-! ### 書き換えた木 -/

namespace Node

variable {L : Loop → Prop} {K : GroupKind → Prop} {B : Nat → Prop}

mutual
theorem Every.of_mem_repeats : (n : Node) → n.Every L K B → {options : Options} →
    ∀ r ∈ n.repeats options, L r.loop
  | .list ns, h, _ => EveryIn.of_mem_repeats ns h
  | .alt ns, h, _ => EveryIn.of_mem_repeats ns h
  | .loop _ body, h, _ => List.forall_mem_cons.2 ⟨h.1, Every.of_mem_repeats body h.2⟩
  | .scoped _ body, h, _ => Every.of_mem_repeats body h
  | .group kind body, h, options => by
    have hbody : ∀ r ∈ body.repeats options, L r.loop := Every.of_mem_repeats body h.2
    exact hbody
  | .empty, _, _ | .str _, _, _ | .raw _, _, _ | .cclass _, _, _ | .word _, _, _ | .any, _, _
  | .anchor _, _, _ | .backref _, _, _ => List.forall_mem_nil _

theorem EveryIn.of_mem_repeats : (ns : List Node) → EveryIn L K B ns → {options : Options} →
    ∀ r ∈ repeatsIn options ns, L r.loop
  | [], _, _ => List.forall_mem_nil _
  | n :: ns, h, _ =>
    List.forall_mem_append.2 ⟨Every.of_mem_repeats n h.1, EveryIn.of_mem_repeats ns h.2⟩
end

/-- どの繰り返しの検査も、捕獲を比べなければ、本体に捕獲がない。 -/
def IsGuarded (n : Node) : Prop := ∀ options, ∀ r ∈ n.repeats options, r.IsGuarded

theorem isGuarded_repeatsIn {ns : List Node} (h : ∀ n ∈ ns, n.IsGuarded) (options : Options) :
    ∀ r ∈ repeatsIn options ns, r.IsGuarded := by
  induction ns with
  | nil => exact List.forall_mem_nil _
  | cons n ns ih =>
    obtain ⟨hn, hns⟩ := List.forall_mem_cons.1 h
    exact List.forall_mem_append.2 ⟨hn options, ih hns⟩

theorem isGuarded_linkHeads {options : Options} {ns : List Node} (h : ∀ n ∈ ns, n.IsGuarded) :
    ∀ n ∈ linkHeads options ns, n.IsGuarded := by
  fun_induction linkHeads options ns with
  | case1 l body n ns next ih =>
    obtain ⟨hloop, hns⟩ := List.forall_mem_cons.1 h
    refine List.forall_mem_cons.2 ⟨fun options => ?_, ih hns⟩
    obtain ⟨hguarded, hbody⟩ := List.forall_mem_cons.1 (hloop options)
    exact List.forall_mem_cons.2 ⟨hguarded, hbody⟩
  | case2 n ns _ ih =>
    obtain ⟨hn, hns⟩ := List.forall_mem_cons.1 h
    exact List.forall_mem_cons.2 ⟨hn, ih hns⟩
  | case3 => exact h

theorem isGuarded_rebuildLoop {options : Options} {l : Loop} {body : Node} (h : body.IsGuarded) :
    (rebuildLoop options l body).IsGuarded := by
  intro options'
  rcases rebuildLoop_eq options l body with he | ⟨bytes, he⟩ | ⟨bytes, he⟩
  · rw [he]
    refine List.forall_mem_cons.2 ⟨fun hpossible => ?_, h options'⟩
    simp only [emptyBodyOf] at hpossible
    split at hpossible
    · split at hpossible
      · cases hpossible
      · rename_i hc
        exact Bool.not_eq_true _ ▸ hc
    · cases hpossible
  · rw [he]
    exact List.forall_mem_nil _
  · rw [he]
    exact List.forall_mem_nil _

variable {env : PrepareEnv}

mutual
/-- 書き換えた木の空回りの検査は、捕獲があれば、捕獲も比べる。 -/
theorem Prepares.isGuarded {options : Options} {undo : Bool} {n n' : Node} (h : Prepares env options undo n n') :
    n'.IsGuarded :=
  match h with
  | .empty | .str _ | .raw _ | .word _ | .any | .anchor _ | .backref _ | .cclass .. | .closed .. =>
    fun _ => List.forall_mem_nil _
  | .list h => isGuarded_repeatsIn (isGuarded_linkHeads h.isGuarded)
  | .alt h => isGuarded_repeatsIn h.isGuarded
  | .scoped _ h => by
    have hbody := h.isGuarded
    exact fun _ => hbody _
  | .loop _ h => isGuarded_rebuildLoop h.isGuarded
  | .capture _ _ h | .ahead h | .notAhead h | .atomic h | .behind _ _ h | .notBehind _ _ h => by
    have hbody := h.isGuarded
    exact hbody
  | .behindEach _ _ h | .notBehindEach _ _ h => isGuarded_repeatsIn (List.forall_mem_map.2 h.isGuarded)

theorem PreparesAll.isGuarded {options : Options} {undo : Bool} {ns ns' : List Node}
    (h : PreparesAll env options undo ns ns') : ∀ n' ∈ ns', n'.IsGuarded :=
  match h with
  | .nil => List.forall_mem_nil _
  | .cons h hs => List.forall_mem_cons.2 ⟨h.isGuarded, hs.isGuarded⟩
end

end Node

/-! ## 照合 -/

namespace Matcher

/-- これまでの最長を伸ばさない長さは、順位が上がっても伸ばさない。 -/
theorem not_longer_of_rank {length : Nat} {best later : Answer} (h : ¬best.all (·.1 < length))
    (hle : Answer.rank best ≤ Answer.rank later) : ¬later.all (·.1 < length) := by
  cases best with
  | none => exact absurd rfl h
  | some p =>
    cases later with
    | none => simp [Answer.rank] at hle
    | some q =>
      simp only [Answer.rank, Option.elim_some, Option.all_some, decide_eq_true_eq] at h hle ⊢
      omega

/-- 成功の命令は、一度失敗した合い方を後でまた試しても、何も変えない。 -/
theorem accepting_once (m : Matcher) (origin : Nat) : (m.accepting origin).Once := by
  intro o best
  let length := o.pos - origin
  let found : Answer := some (length, o.caps.setIfInBounds 0 ⟨some origin, some o.pos⟩)
  by_cases hlt : o.pos < origin
  · exact .inl ⟨some .aborted, fun res => if_pos hlt⟩
  by_cases hempty : (m.options.contains .findNotEmpty && length == 0) = true
  · have hskip : ∀ res best, m.accepting origin o res best = res best := by
      intro res best
      simp only [accepting]
      rw [if_neg hlt, if_pos hempty]
    exact .inr ⟨best, Nat.le_refl _, fun res => hskip res best, fun later _ res => hskip res later⟩
  by_cases hlong : m.options.contains .findLongest
  · have hrecord : ∀ {best : Answer}, best.all (·.1 < length) →
        ∀ res, m.accepting origin o res best = res found := by
      intro best hbest res
      simp only [accepting]
      rw [if_neg hlt, if_neg hempty, if_pos hlong, if_pos hbest]
    have hskip : ∀ {best : Answer}, ¬best.all (·.1 < length) → ∀ res, m.accepting origin o res best = res best := by
      intro best hbest res
      simp only [accepting]
      rw [if_neg hlt, if_neg hempty, if_pos hlong, if_neg hbest]
    by_cases hbest : best.all (·.1 < length)
    · have hfound : ¬found.all (·.1 < length) := by simp [found]
      refine .inr ⟨found, ?_, hrecord hbest, fun later hle => hskip (not_longer_of_rank hfound hle)⟩
      cases best with
      | none => exact Nat.zero_le _
      | some p =>
        simp only [Option.all_some, decide_eq_true_eq] at hbest
        exact Nat.succ_le_succ (Nat.le_of_lt hbest)
    · exact .inr ⟨best, Nat.le_refl _, hskip hbest, fun later hle => hskip (not_longer_of_rank hbest hle)⟩
  · refine .inl ⟨some (.ok found), fun res => ?_⟩
    simp only [accepting]
    rw [if_neg hlt, if_neg hempty, if_neg hlong]

theorem accepting_steady (m : Matcher) (origin : Nat) : (m.accepting origin).Steady := by
  refine ⟨m.accepting_once origin, fun o res res' hres best v h => ?_⟩
  simp only [accepting] at h ⊢
  split_ifs at h ⊢
  · exact h
  · exact hres best v h
  · exact hres _ v h
  · exact hres best v h
  · exact h

end Matcher

namespace CodeEnv

variable {env : CodeEnv} {a b : Nat} {options : Options} {groups : Nat} {root : Node}
  {program program' : Program} {m m' : Matcher} {origin : Nat}

/-- 木の見通しは、上限を変えても、`fuel` を下限の和だけ足せば同じ成り行きに決まる。 -/
theorem answer?_withLimit (hw : root.WellFormed groups) (hguard : root.IsGuarded)
    (h : ∀ r ∈ root.repeats options, env.agrees a b r) {fuel : Nat} {v : Result Answer}
    (ha : (env.withLimit a).answer? options groups root m origin fuel = some v) :
    (env.withLimit b).answer? options groups root m origin
      (fuel + ((root.repeats options).map (·.loop.lower)).sum) = some v := by
  refine carried_self root (fun r hr => ?_) (m.accepting_steady origin).below _ (fun _ _ => id) none v ha
  have hl : r.loop.Ordered := Node.Every.of_mem_repeats root hw r hr
  have hle : r.loop.lower ≤ ((root.repeats options).map (·.loop.lower)).sum :=
    List.le_sum_of_mem (List.mem_map_of_mem hr)
  exact widens_of_agrees (h r hr) hl (hguard options r hr) (by omega)

theorem answer?_withUndo {fuel : Nat} : env.answer? options groups root.withUndo m origin fuel =
    env.answer? options groups root m origin fuel := by
  simp only [answer?, (Node.alike_withUndo root).explore]

/-- どの捕獲も取り消せるようにした木では、上限を変えても、照合は同じ所で終わり、合っても合わなくても同じ捕獲を
残す。 -/
theorem returns_withLimit (h : (env.withLimit a).compile options groups root.withUndo = .ok program)
    (h' : (env.withLimit b).compile options groups root.withUndo = .ok program') (hw : root.WellFormed groups)
    (hr : root.Ready (env.fold.getD .ascii) options) (hnext : root.next? = none) (hguard : root.IsGuarded)
    (hagree : ∀ r ∈ root.repeats options, env.agrees a b r) (hm : m.limits = .unlimited)
    (hp : m.program = program) (hm' : m' = { m with program := program' }) (ho : origin ≤ m.text.size) :
    (∀ v, m'.Returns origin v ↔ m.Returns origin v) ∧ (m'.Aborts origin ↔ m.Aborts origin) := by
  subst hm'
  have hu := Node.unmarked_withUndo root
  have hwu := Node.wellFormed_withUndo root hw
  have hru := Node.ready_withUndo root hr
  have hnextu := (Node.next?_withUndo root).trans hnext
  have hsettles := compile_settles h hwu hm hp hru hnextu (Node.isOrderly_of_unmarked _ hu) ho
  have hsettles' := compile_settles (m := { m with program := program' }) h' hwu hm rfl hru hnextu
    (Node.isOrderly_of_unmarked _ hu) ho
  have hprograms : program'.encoding = program.encoding ∧ program'.fold = program.fold ∧
      program'.groups = program.groups := by
    obtain ⟨size, code, counters, -, -, rfl⟩ := compile_eq_ok h
    obtain ⟨size', code', counters', -, -, rfl⟩ := compile_eq_ok h'
    exact ⟨rfl, rfl, rfl⟩
  obtain ⟨hencoding, hfold, hgroups⟩ := hprograms
  -- 木の合い方が読むものは、プログラムを替えても変わらない
  have hsame : ∀ (e : CodeEnv) (fuel : Nat),
      e.answer? options groups root { m with program := program' } origin fuel =
        e.answer? options groups root m origin fuel := by
    intro e fuel
    simp only [answer?, Matcher.setting, Matcher.encoding, hp, hencoding, hfold]
    rfl
  have hanswers : ∀ answer, (∃ fuel, m.text.size < fuel ∧
      (env.withLimit b).answer? options groups root.withUndo { m with program := program' } origin fuel = some answer) ↔
        ∃ fuel, m.text.size < fuel ∧
          (env.withLimit a).answer? options groups root.withUndo m origin fuel = some answer := by
    intro answer
    simp only [answer?_withUndo, hsame]
    constructor
    · rintro ⟨fuel, hlt, ha⟩
      exact ⟨_, by omega, answer?_withLimit hw hguard (fun r hr => (agrees_comm r).trans (hagree r hr)) ha⟩
    · rintro ⟨fuel, hlt, ha⟩
      exact ⟨_, Nat.lt_of_lt_of_le hlt (Nat.le_add_right ..), answer?_withLimit hw hguard hagree ha⟩
  refine ⟨Matcher.returns_iff_of_answers (hp ▸ compile_undoes h hu) (compile_undoes h' hu)
    (by rw [hp]; exact hgroups) fun answer => ?_, ?_⟩
  · rw [Matcher.returns_iff hsettles ho, Matcher.returns_iff hsettles' ho]
    exact hanswers (.ok answer)
  · rw [Matcher.aborts_iff hsettles ho, Matcher.aborts_iff hsettles' ho]
    exact hanswers .aborted

end CodeEnv

/-! ## 正規表現 -/

namespace Source

/-- どの繰り返しも、二つの上限のどちらで開いても、同じ合い方を同じ順に試す。 -/
def agrees (s : Source) (a b : Nat) : Bool :=
  s.tree?.all fun root => (root.repeats s.options).all (s.env.agrees a b)

end Source

namespace Regex

/-- 開く命令数の上限を `limit` とし、どの捕獲も取り消せるようにして翻訳する。 -/
def compileWithLimit (limit : Nat) (s : Source) : Except RegexError Regex := do
  let parsed ← (Pattern.parse s.encoding s.options s.pattern).mapError .parse
  let root ← (parsed.root.prepare ⟨s.encoding, s.fold, parsed.backrefs⟩ s.options).mapError .compile
  let program ← ((s.env.withLimit limit).compile s.options parsed.groups root.withUndo).mapError .compile
  return { program, plan := .ofHints s.encoding (Hints.ofTree s.encoding s.fold s.options root) }

/-- 既定の上限では、ふだんの翻訳である。 -/
theorem compileWithLimit_default (s : Source) : compileWithLimit 50 s = compileWithUndo s := rfl

/-- 二つの上限で開き方の変わる繰り返しが、本体が空に合わないか、下限が高々一で上限がなければ、どの照合も同じ所で
終わり、同じ長さと捕獲になる。 -/
theorem matchAt_withLimit {s : Source} {a b : Nat} {re re' : Regex} (h : compileWithLimit a s = .ok re)
    (h' : compileWithLimit b s = .ok re') (hagree : s.agrees a b) (options : Options) (text : Text)
    (start origin : Nat) (result : Result Verdict) :
    (∃ fuel, (re'.matcher .unlimited options text start).matchAt fuel origin = some result) ↔
      ∃ fuel, (re.matcher .unlimited options text start).matchAt fuel origin = some result := by
  obtain ⟨parsed, hparse, h⟩ := Except.bind_eq_ok h
  obtain ⟨root, hprepare, h⟩ := Except.bind_eq_ok h
  obtain ⟨program, hcompile, h⟩ := Except.bind_eq_ok h
  obtain ⟨parsed', hparse', h'⟩ := Except.bind_eq_ok h'
  obtain ⟨root', hprepare', h'⟩ := Except.bind_eq_ok h'
  obtain ⟨program', hcompile', h'⟩ := Except.bind_eq_ok h'
  cases h
  cases h'
  cases hparse.symm.trans hparse'
  cases hprepare.symm.trans hprepare'
  have hparse := Except.mapError_eq_ok hparse
  have hprepare := Except.mapError_eq_ok hprepare
  have hcompile := Except.mapError_eq_ok hcompile
  have hcompile' := Except.mapError_eq_ok hcompile'
  have hplain := Pattern.plain_parse hparse
  have hprepared := Node.prepared_prepare hplain hprepare
  have hw := Node.wellFormed_prepare hplain.wellFormed hprepare
  have hagree : ∀ r ∈ root.repeats s.options, s.env.agrees a b r := by
    simpa [Source.agrees, Source.tree?, hparse, hprepare, Except.toOption] using hagree
  let re : Regex := ⟨program, .ofHints s.encoding (Hints.ofTree s.encoding s.fold s.options root)⟩
  let re' : Regex := ⟨program', re.plan⟩
  have hmatcher : re'.matcher .unlimited options text start =
      { re.matcher .unlimited options text start with program := program' } := by
    obtain ⟨size, code, counters, -, -, hprogram⟩ := CodeEnv.compile_eq_ok hcompile
    obtain ⟨size', code', counters', -, -, hprogram'⟩ := CodeEnv.compile_eq_ok hcompile'
    simp [re, re', matcher, hprogram, hprogram']
  have hsame := fun ho : origin ≤ text.size =>
    CodeEnv.returns_withLimit hcompile hcompile' hw hprepared.ready hprepared.next
      (Node.prepares_of_prepare hprepare).isGuarded hagree rfl rfl hmatcher ho
  exact Matcher.exists_matchAt_iff (m := re.matcher .unlimited options text start) (by rfl)
    (fun _ e ho => CodeEnv.matchAt_ne_error hcompile (Node.wellFormed_withUndo root hw) rfl rfl ho e)
    (fun _ e ho => CodeEnv.matchAt_ne_error hcompile' (Node.wellFormed_withUndo root hw) rfl rfl ho e)
    (fun ho => (hsame ho).1) (fun ho => (hsame ho).2) result

/-- 上限により、数える繰り返しにも並べた本体にもなる例。空に合う本体の輪には、飛び込むことも、並べてから入ることも
ある。 -/
theorem matchAt_withLimit_counted :
    ∃ re re' v, compileWithLimit 5 { pattern := Pattern.ascii "(?:(a|b)c)\x7b2,3\x7d(?:(d)|())+" } = .ok re ∧
      compileWithLimit 50 { pattern := Pattern.ascii "(?:(a|b)c)\x7b2,3\x7d(?:(d)|())+" } = .ok re' ∧
      Source.agrees { pattern := Pattern.ascii "(?:(a|b)c)\x7b2,3\x7d(?:(d)|())+" } 5 50 ∧
      re.program.repeats.size = 1 ∧ re'.program.repeats.size = 0 ∧ v.length = some 5 ∧
      (∃ fuel, (re'.matcher .unlimited .none #[0x61, 0x63, 0x62, 0x63, 0x64] 0).matchAt fuel 0 = some (.ok v)) ∧
      ∃ fuel, (re.matcher .unlimited .none #[0x61, 0x63, 0x62, 0x63, 0x64] 0).matchAt fuel 0 = some (.ok v) := by
  obtain ⟨re, h, hcounted⟩ := exists_ok
    (x := compileWithLimit 5 { pattern := Pattern.ascii "(?:(a|b)c)\x7b2,3\x7d(?:(d)|())+" })
    (p := fun re => re.program.repeats.size == 1) (by decide +kernel)
  obtain ⟨re', h', hok⟩ := exists_ok
    (x := compileWithLimit 50 { pattern := Pattern.ascii "(?:(a|b)c)\x7b2,3\x7d(?:(d)|())+" })
    (p := fun re => re.program.repeats.size == 0 &&
      (((re.matcher .unlimited .none #[0x61, 0x63, 0x62, 0x63, 0x64] 0).matchAt 100 0).bind Result.toOption).any
        (·.length == some 5)) (by decide +kernel)
  rw [Bool.and_eq_true] at hok
  obtain ⟨v, hv, hlength⟩ := exists_some_ok hok.2
  have hagree : Source.agrees { pattern := Pattern.ascii "(?:(a|b)c)\x7b2,3\x7d(?:(d)|())+" } 5 50 := by
    decide +kernel
  exact ⟨re, re', v, h, h', hagree, eq_of_beq hcounted, eq_of_beq hok.1, eq_of_beq hlength, ⟨100, hv⟩,
    (matchAt_withLimit h h' hagree .none _ 0 0 (.ok v)).1 ⟨100, hv⟩⟩

/-- 数える繰り返しは、空に合った一回で下限に届かないまま輪を抜けるので、並べた本体の試す合い方を試さない。 -/
theorem matchAt_withLimit_emptied :
    ∃ re re' v v', compileWithLimit 50 { pattern := Pattern.ascii "(?:|ab|a)\x7b9\x7d(?=b|$)" } = .ok re ∧
      compileWithLimit 100 { pattern := Pattern.ascii "(?:|ab|a)\x7b9\x7d(?=b|$)" } = .ok re' ∧
      (re.matcher .unlimited .none #[0x61, 0x62, 0x61, 0x62] 0).Returns 0 v ∧
      (re'.matcher .unlimited .none #[0x61, 0x62, 0x61, 0x62] 0).Returns 0 v' ∧
      v.length = some 4 ∧ v'.length = some 1 := by
  obtain ⟨re, h, hrun⟩ := exists_ok
    (x := compileWithLimit 50 { pattern := Pattern.ascii "(?:|ab|a)\x7b9\x7d(?=b|$)" })
    (p := fun re => (((re.matcher .unlimited .none #[0x61, 0x62, 0x61, 0x62] 0).matchAt 200 0).bind
      Result.toOption).any (·.length == some 4)) (by decide +kernel)
  obtain ⟨re', h', hrun'⟩ := exists_ok
    (x := compileWithLimit 100 { pattern := Pattern.ascii "(?:|ab|a)\x7b9\x7d(?=b|$)" })
    (p := fun re => (((re.matcher .unlimited .none #[0x61, 0x62, 0x61, 0x62] 0).matchAt 200 0).bind
      Result.toOption).any (·.length == some 1)) (by decide +kernel)
  obtain ⟨v, hv, hlength⟩ := exists_some_ok hrun
  obtain ⟨v', hv', hlength'⟩ := exists_some_ok hrun'
  exact ⟨re, re', v, v', h, h', ⟨200, hv⟩, ⟨200, hv'⟩, eq_of_beq hlength, eq_of_beq hlength'⟩

end Regex
end MultibyteRegex

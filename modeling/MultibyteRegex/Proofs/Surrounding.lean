import Mathlib.Order.Filter.AtTopBot.Basic
import MultibyteRegex.Proofs.ExpandLimit
import MultibyteRegex.Proofs.Peeking

/-!
# 節を囲む木

木の中の節を、同じ答えに決まる節に替えても、木の答えは変わらない。囲む繰り返しは、本体の命令数が変わると違う形に
開かれうるので、二つの開き方で同じ合い方を試すことが要る。
-/

namespace MultibyteRegex

open Outlook (Within)

/-- 穴の一つある木。 -/
inductive Context
  | hole
  | list (before : List Node) (c : Context) (after : List Node)
  | alt (before : List Node) (c : Context) (after : List Node)
  | loop (l : Loop) (c : Context)
  | under (inner : Options) (c : Context)
  | group (kind : GroupKind) (c : Context)

/-- 穴に節を入れた木。 -/
def Context.fill (n : Node) : Context → Node
  | .hole => n
  | .list before c after => .list (before ++ c.fill n :: after)
  | .alt before c after => .alt (before ++ c.fill n :: after)
  | .loop l c => .loop l (c.fill n)
  | .under inner c => .scoped inner (c.fill n)
  | .group kind c => .group kind (c.fill n)

namespace Node

variable {env : CodeEnv} {x : Setting} {options : Options} {n n' n'' : Node} {ns ns' : List Node}

/-! ## 広がる節 -/

/-- `n` で決まる答えは、`fuel` を十分に増やせば、`n'` でも同じに決まる。 -/
structure Extends (env : CodeEnv) (x : Setting) (options : Options) (n n' : Node) : Prop where
  any : LoopShape.isAny n' = LoopShape.isAny n
  minLength : n'.minLength = n.minLength
  hasCapture : n'.hasCapture = n.hasCapture
  size : CodeEnv.EmptyAlike (env.size options n) (env.size options n')
  carried : ∀ f, ∀ᶠ g in Filter.atTop, Carried env env x f g options n n'

/-- `fuel` を増やすと、節の見通しは広がる。 -/
theorem Carried.mono {f g : Nat} (hle : f ≤ g) (n : Node) : Carried env env x f g options n n := by
  have hwidens : ∀ r ∈ n.repeats options, env.Widens env.expandLimit env.expandLimit f g r :=
    fun _ _ _ _ hR _ _ hF => LoopShape.explore_below _ hR hF hle
  exact CodeEnv.carried_self n hwidens

namespace Extends

theorem of_alike (h : Alike env x n n') : Extends env x options n n' where
  any := h.any
  minLength := h.minLength
  hasCapture := h.hasCapture
  size := h.size options ▸ .refl _
  carried f := by
    filter_upwards [Filter.eventually_ge_atTop f] with g hle F G hF o
    rw [h.explore]
    exact Carried.mono hle n hF o

theorem refl (n : Node) : Extends env x options n n := of_alike (.refl n)

theorem trans (h : Extends env x options n n') (h' : Extends env x options n' n'') : Extends env x options n n'' where
  any := h'.any.trans h.any
  minLength := h'.minLength.trans h.minLength
  hasCapture := h'.hasCapture.trans h.hasCapture
  size := h.size.trans h'.size
  carried f := by
    obtain ⟨k, hk⟩ := (h.carried f).exists
    filter_upwards [h'.carried k] with g hg F G hF o
    exact (hk hF.left.below o).trans (hg hF o)

/-! ### 囲む節 -/

theorem forall₂_carried (h : List.Forall₂ (Extends env x options) ns ns') (f : Nat) :
    ∀ᶠ g in Filter.atTop, List.Forall₂ (Carried env env x f g options) ns ns' := by
  induction h with
  | nil => exact .of_forall fun _ => .nil
  | cons hn _ ih =>
    filter_upwards [hn.carried f, ih] with g hg hgs
    exact .cons hg hgs

theorem anyCapture (h : List.Forall₂ (Extends env x options) ns ns') : anyCapture ns' = anyCapture ns := by
  induction h with
  | nil => rfl
  | cons hn _ ih => simp only [Node.anyCapture, hn.hasCapture, ih]

theorem list (h : List.Forall₂ (Extends env x options) ns ns') : Extends env x options (.list ns) (.list ns') where
  any := rfl
  minLength := by
    simp only [Node.minLength]
    induction h with
    | nil => rfl
    | cons hn _ ih => simp only [sumMinLength, hn.minLength, ih]
  hasCapture := anyCapture h
  size := .list (h.imp fun _ _ hn => hn.size)
  carried f := (forall₂_carried h f).mono fun _ hg => .list hg

theorem alt (h : List.Forall₂ (Extends env x options) ns ns') : Extends env x options (.alt ns) (.alt ns') where
  any := rfl
  minLength := by
    simp only [Node.minLength]
    induction h with
    | nil => rfl
    | cons hn hns ih =>
      cases hns with
      | nil => exact hn.minLength
      | cons =>
        simp only [leastMinLength, hn.minLength] at ih ⊢
        rw [ih]
  hasCapture := anyCapture h
  size := .alt (h.imp fun _ _ hn => hn.size)
  carried f := (forall₂_carried h f).mono fun _ hg => .alt hg

theorem under (inner : Options) (h : Extends env x inner n n') :
    Extends env x options (.scoped inner n) (.scoped inner n') :=
  ⟨rfl, h.minLength, h.hasCapture, h.size, h.carried⟩

theorem group {kind : GroupKind} (hkind : ¬(kind = .behind ∨ kind = .notBehind)) (h : Extends env x options n n') :
    Extends env x options (.group kind n) (.group kind n') where
  any := rfl
  minLength := by
    cases kind with
    | capture | atomic => exact h.minLength
    | _ => rfl
  hasCapture := by
    cases kind with
    | capture => rfl
    | _ => exact h.hasCapture
  size := h.size.group
  carried f := (h.carried f).mono fun _ hg => hg.group kind fun hk => absurd hk hkind

/-- 囲む繰り返しは、本体の命令数が変わっても、同じ合い方を試す形に開かれればよい。 -/
theorem loop {l : Loop} (h : Extends env x options n n') (hl : l.Ordered)
    (hkept : l.emptyBody = .possible → n.hasCapture = false)
    (hopen : LoopShape.opensAlike l (env.shape options l n) (env.shape options l n')) :
    Extends env x options (.loop l n) (.loop l n') where
  any := rfl
  minLength := by simp only [Node.minLength, h.minLength]
  hasCapture := h.hasCapture
  size := h.size.loop
  carried f := by
    filter_upwards [h.carried f, Filter.eventually_ge_atTop (f + l.lower)] with g hg hle F G hF
    have hshape : env.shape options l n' =
        LoopShape.of env.expandLimit l n ((env.size options n').toOption.getD 0) := LoopShape.of_congr h.any ..
    rw [hshape] at hopen
    simp only [explore, hshape]
    exact (LoopShape.below_of_opensAlike hopen hl h.size.getD hkept (hg.carries h.hasCapture) hF hle).le

/-- 並びの一つだけを替える。 -/
theorem insert (h : Extends env x options n n') (before after : List Node) :
    List.Forall₂ (Extends env x options) (before ++ n :: after) (before ++ n' :: after) := by
  induction before with
  | nil => exact .cons h (List.forall₂_same.2 fun n _ => refl n)
  | cons n before ih => exact .cons (refl n) ih

end Extends

/-! ## 書き換えた木 -/

/-- 手がかりの他は同じ繰り返し。 -/
theorem Alike.rehinted {l l' : Loop} (h : l.withoutHints = l'.withoutHints) (n : Node) :
    Alike env x (.loop l n) (.loop l' n) := by
  have h' : Alike env x (.loop l n) (.loop l'.withoutHints n) := h ▸ .unhinted l n
  exact h'.trans (Alike.unhinted l' n).symm

/-- 次の要素の先頭バイトを書き足しても、合い方は変わらない。 -/
theorem alike_linkHeads (ns : List Node) : List.Forall₂ (Alike env x) ns (linkHeads options ns) := by
  fun_induction linkHeads options ns with
  | case1 l body n ns next ih => exact .cons (.rehinted (by rfl) body) ih
  | case2 n ns _ ih => exact .cons (.refl n) ih
  | case3 => exact .nil

theorem Extends.linkHeads (h : List.Forall₂ (Extends env x options) ns ns') :
    Extends env x options (.list (linkHeads options ns)) (.list (linkHeads options ns')) :=
  ((of_alike (Alike.list (alike_linkHeads ns)).symm).trans (list h)).trans (of_alike (Alike.list (alike_linkHeads ns')))

/-- 一つの文字列。 -/
def isLiteral : Node → Bool
  | .str _ | .raw _ => true
  | _ => false

/-- 書き換えた本体に付け直した繰り返し。 -/
def refit (options : Options) (l : Loop) (body : Node) : Loop := { l with
  emptyBody := emptyBodyOf l.upper body
  head := if l.greedy && l.isInfinite then body.headByte options else l.head }

/-- 文字列でない本体の繰り返しは、繰り返しのままである。 -/
theorem rebuildLoop_of_not_literal {l : Loop} {body : Node} (h : body.isLiteral = false) :
    rebuildLoop options l body = .loop (refit options l body) body := by
  unfold rebuildLoop
  dsimp only
  split
  · cases body with
    | str | raw => cases h
    | _ => rfl
  · rfl

theorem emptyBodyOf_congr (upper : Option Nat) (hlength : n'.minLength = n.minLength)
    (hcapture : n'.hasCapture = n.hasCapture) : emptyBodyOf upper n' = emptyBodyOf upper n := by
  simp only [emptyBodyOf, hlength, hcapture]

theorem hasCapture_of_possible {upper : Option Nat} (h : emptyBodyOf upper n = .possible) : n.hasCapture = false := by
  unfold emptyBodyOf at h
  split_ifs at h with _ hcapture
  exact Bool.not_eq_true _ ▸ hcapture

theorem Extends.rebuildLoop {l : Loop} (h : Extends env x options n n') (hn : n.isLiteral = false)
    (hn' : n'.isLiteral = false) (hl : l.Ordered)
    (hopen : LoopShape.opensAlike { l with emptyBody := emptyBodyOf l.upper n } (env.shape options l n)
      (env.shape options l n')) :
    Extends env x options (rebuildLoop options l n) (rebuildLoop options l n') := by
  rw [rebuildLoop_of_not_literal hn, rebuildLoop_of_not_literal hn']
  have hloop : Extends env x options (.loop { l with emptyBody := emptyBodyOf l.upper n } n)
      (.loop { l with emptyBody := emptyBodyOf l.upper n } n') := h.loop hl hasCapture_of_possible hopen
  have hhints : (refit options l n').withoutHints = { l with emptyBody := emptyBodyOf l.upper n }.withoutHints := by
    simp only [refit, emptyBodyOf_congr l.upper h.minLength h.hasCapture]
    rfl
  exact ((of_alike (.rehinted (by rfl) n)).trans hloop).trans (of_alike (.rehinted hhints.symm n'))

theorem prepareAll_insert {penv : PrepareEnv} {undo : Bool} {before after : List Node}
    (h : prepareAll penv options undo (before ++ n :: after) = .ok ns) : ∃ before' m after',
      prepareAll penv options undo before = .ok before' ∧ n.prepareAt penv options undo = .ok m ∧
      prepareAll penv options undo after = .ok after' ∧ ns = before' ++ m :: after' := by
  induction before generalizing ns with
  | nil =>
    obtain ⟨m, hm, h⟩ := Except.bind_eq_ok h
    obtain ⟨after', hafter, h⟩ := Except.bind_eq_ok h
    cases h
    exact ⟨[], m, after', rfl, hm, hafter, rfl⟩
  | cons k before ih =>
    obtain ⟨k', hk, h⟩ := Except.bind_eq_ok h
    obtain ⟨rest, hrest, h⟩ := Except.bind_eq_ok h
    cases h
    obtain ⟨before', m, after', hbefore, hm, hafter, rfl⟩ := ih hrest
    refine ⟨k' :: before', m, after', ?_, hm, hafter, rfl⟩
    rw [prepareAll, hk, hbefore]
    rfl

/-- 並びの一つだけが違えば、書き換えた並びも一つだけが違う。 -/
theorem prepareAll_swap {penv : PrepareEnv} {undo : Bool} {before after : List Node}
    (h : prepareAll penv options undo (before ++ n :: after) = .ok ns)
    (h' : prepareAll penv options undo (before ++ n' :: after) = .ok ns') : ∃ bs k k' as,
      n.prepareAt penv options undo = .ok k ∧ n'.prepareAt penv options undo = .ok k' ∧
      ns = bs ++ k :: as ∧ ns' = bs ++ k' :: as := by
  obtain ⟨bs, k, as, hbs, hk, has, rfl⟩ := prepareAll_insert h
  obtain ⟨bs', k', as', hbs', hk', has', rfl⟩ := prepareAll_insert h'
  cases hbs.symm.trans hbs'
  cases has.symm.trans has'
  exact ⟨bs, k, k', as, hk, hk', rfl, rfl⟩

end Node

/-! ## 後読みの中 -/

namespace CharCount

theorem isFixed_add (a b : CharCount) : (a.add b).isFixed = (a.isFixed && b.isFixed) := by
  cases a <;> cases b <;> rfl

theorem either_of_mem {top : Bool} {c : CharCount} {cs : List CharCount} (h : c ∈ cs) (hc : c.isFixed = false) :
    either top cs = .variable := by
  cases cs with
  | nil => cases h
  | cons d cs =>
    have hall : (d :: cs).all isFixed = false := List.all_eq_false.2 ⟨c, h, by simp [hc]⟩
    simp [either, hall]

end CharCount

namespace Node

variable {penv : PrepareEnv} {e : Encoding} {options : Options} {undo negative : Bool} {n m : Node}
  {before after ns : List Node}

theorem isFixed_sumCharCount_insert (h : (n.charCountAt e false).isFixed = false) :
    (sumCharCount e (before ++ n :: after)).isFixed = false := by
  induction before with
  | nil => simp only [List.nil_append, sumCharCount, CharCount.isFixed_add, h, Bool.false_and]
  | cons k before ih => simp only [List.cons_append, sumCharCount, CharCount.isFixed_add, ih, Bool.and_false]

theorem mem_charCounts_insert : n.charCountAt e false ∈ charCounts e (before ++ n :: after) := by
  induction before with
  | nil => exact List.mem_cons_self
  | cons k before ih => exact List.mem_cons_of_mem _ ih

theorem isAllowedBehind_of_insert (h : allAllowedBehind negative (before ++ n :: after)) :
    n.isAllowedBehind negative := by
  induction before with
  | nil => exact (Bool.and_eq_true_iff.1 h).1
  | cons k before ih => exact ih (Bool.and_eq_true_iff.1 h).2

theorem every_of_insert {L : Loop → Prop} {G : GroupKind → Prop} {B : Nat → Prop}
    (h : EveryIn L G B (before ++ n :: after)) : n.Every L G B :=
  everyIn_iff.1 h n (List.mem_append_right _ List.mem_cons_self)

theorem everyIn_insert {L : Loop → Prop} {G : GroupKind → Prop} {B : Nat → Prop}
    (h : EveryIn L G B (before ++ n :: after)) (hm : m.Every L G B) : EveryIn L G B (before ++ m :: after) := by
  rw [everyIn_iff, List.forall_mem_append, List.forall_mem_cons] at h ⊢
  exact ⟨h.1, hm, h.2.2⟩

theorem PreparesAll.of_insert (h : PreparesAll penv options undo (before ++ n :: after) ns) :
    ∃ m, Prepares penv options undo n m := by
  induction before generalizing ns with
  | nil =>
    cases h with
    | cons hn _ => exact ⟨_, hn⟩
  | cons k before ih =>
    cases h with
    | cons _ hns => exact ih hns

/-- 長さの決まらない節。選択なら、枝の長さも決まらない。 -/
def Unfixed (e : Encoding) (top : Bool) (n : Node) : Prop :=
  (n.charCountAt e top).isFixed = false ∧ ∀ ns, n = .alt ns → n.charCountAt e top = .variable

/-- 長さの決まらない節は、後読みの本体にならない。 -/
theorem Prepares.not_behind {kind : GroupKind} (h : Prepares penv options undo (.group kind n) m)
    (hn : ∀ {negative undo m}, Prepares penv options undo n m → n.isAllowedBehind negative →
      n.Unfixed penv.encoding true) : ¬(kind = .behind ∨ kind = .notBehind) := by
  have hfixed : ∀ {negative undo m k}, Prepares penv options undo n m → n.isAllowedBehind negative →
      n.charCount penv.encoding ≠ .fixed k := by
    intro negative undo m k h hallowed hcount
    have hfixed := (hn h hallowed).1
    rw [show n.charCountAt penv.encoding true = .fixed k from hcount] at hfixed
    cases hfixed
  have halt : ∀ {negative ns ns'}, n = .alt ns → PreparesAll penv options true ns ns' →
      n.isAllowedBehind negative → n.charCount penv.encoding ≠ .topAlternatives := by
    rintro negative ns ns' rfl h hallowed hcount
    have halt : Prepares penv options true (.alt ns) (.alt ns') := .alt h
    cases hcount.symm.trans ((hn halt hallowed).2 ns rfl)
  rintro (rfl | rfl)
  · cases h with
    | behind hallowed hcount h => exact hfixed h hallowed hcount
    | behindEach hallowed hcount h => exact halt rfl h hallowed hcount
  · cases h with
    | notBehind hallowed hcount h => exact hfixed h hallowed hcount
    | notBehindEach hallowed hcount h => exact halt rfl h hallowed hcount

end Node

/-! ## 穴のある木 -/

namespace Context

variable {penv : PrepareEnv} {options : Options} {undo negative : Bool} {n n' m m' : Node}

/-- 長さの決まらない節は、後読みの中に置いた木の長さも決めさせない。 -/
theorem unfixed_fill (hn : ∀ top, n.charCountAt penv.encoding top = .variable) (c : Context)
    (h : Node.Prepares penv options undo (c.fill n) m) (hallowed : (c.fill n).isAllowedBehind negative) (top : Bool) :
    (c.fill n).Unfixed penv.encoding top := by
  induction c generalizing options undo negative m top with
  | hole => exact ⟨by rw [fill, hn]; rfl, fun _ _ => hn top⟩
  | list before c after ih =>
    cases h with
    | list hs =>
      obtain ⟨m, hm⟩ := hs.of_insert
      exact ⟨Node.isFixed_sumCharCount_insert (ih hm (Node.isAllowedBehind_of_insert hallowed) false).1,
        fun _ h => by cases h⟩
  | alt before c after ih =>
    cases h with
    | alt hs =>
      obtain ⟨m, hm⟩ := hs.of_insert
      have hvariable : (fill n (.alt before c after)).charCountAt penv.encoding top = .variable :=
        CharCount.either_of_mem Node.mem_charCounts_insert
          (ih hm (Node.isAllowedBehind_of_insert hallowed) false).1
      exact ⟨by rw [hvariable]; rfl, fun _ _ => hvariable⟩
  | loop l c ih =>
    cases h with
    | loop l h =>
      have hbody := (ih h hallowed false).1
      refine ⟨?_, fun _ h => by cases h⟩
      simp only [fill, Node.charCountAt]
      split
      · split
        · rename_i hcount
          rw [hcount] at hbody
          cases hbody
        · exact hbody
      · rfl
  | under inner c ih =>
    cases h with
    | «scoped» _ h => exact ⟨(ih h hallowed false).1, fun _ h => by cases h⟩
  | group kind c ih =>
    refine ⟨?_, fun _ h => by cases h⟩
    have hkind := h.not_behind fun h hallowed => ih h hallowed true
    cases kind with
    | capture k marked =>
      cases h with
      | capture _ _ h => exact (ih h (Bool.and_eq_true_iff.1 hallowed).2 false).1
    | behind | notBehind => simp at hkind
    | _ => cases hallowed

/-- 囲む繰り返しが、二つの節のどちらを入れても、同じ合い方を試す形に開かれる。`hole` は、穴の所の旗についての条件
である。 -/
def opensAlike (env : CodeEnv) (penv : PrepareEnv) (n n' : Node) (hole : Options → Bool) :
    Options → Bool → Context → Bool
  | options, _, .hole => hole options
  | options, undo, .list _ c _ => c.opensAlike env penv n n' hole options undo
  | options, _, .alt _ c _ => c.opensAlike env penv n n' hole options true
  | options, undo, .loop l c =>
    (match (c.fill n).prepareAt penv options (undo || !l.isFixed),
        (c.fill n').prepareAt penv options (undo || !l.isFixed) with
      | .ok m, .ok m' => LoopShape.opensAlike { l with emptyBody := Node.emptyBodyOf l.upper m }
          (env.shape options l m) (env.shape options l m')
      | _, _ => true) && c.opensAlike env penv n n' hole options (undo || !l.isFixed)
  | _, undo, .under inner c => c.opensAlike env penv n n' hole inner undo
  | options, _, .group .notAhead c => c.opensAlike env penv n n' hole options true
  | options, undo, .group _ c => c.opensAlike env penv n n' hole options undo

variable {env : CodeEnv} {x : Setting} {hole : Options → Bool} {L : Loop → Prop} {G : GroupKind → Prop} {B : Nat → Prop}

theorem every_hole (c : Context) (h : (c.fill n).Every L G B) : n.Every L G B := by
  induction c with
  | hole => exact h
  | list before c after ih | alt before c after ih => exact ih (Node.every_of_insert h)
  | loop l c ih | group kind c ih => exact ih h.2
  | under inner c ih => exact ih h

theorem every_fill (c : Context) (h : (c.fill n).Every L G B) (hn' : n'.Every L G B) : (c.fill n').Every L G B := by
  induction c with
  | hole => exact hn'
  | list before c after ih | alt before c after ih => exact Node.everyIn_insert h (ih (Node.every_of_insert h))
  | loop l c ih | group kind c ih => exact ⟨h.1, ih h.2⟩
  | under inner c ih => exact ih h

/-- 穴の所で広がる節を入れた木は、広がる。 -/
theorem extends_fill (hn : ∀ top, n.charCountAt penv.encoding top = .variable)
    (hhole : ∀ {options undo m m'}, hole options → n.prepareAt penv options undo = .ok m →
      n'.prepareAt penv options undo = .ok m' →
      m.Extends env x options m' ∧ m.isLiteral = false ∧ m'.isLiteral = false)
    (c : Context) (hl : (c.fill n).Every Loop.Ordered G B) (h : (c.fill n).prepareAt penv options undo = .ok m)
    (h' : (c.fill n').prepareAt penv options undo = .ok m') (hopen : c.opensAlike env penv n n' hole options undo) :
    m.Extends env x options m' ∧ m.isLiteral = false ∧ m'.isLiteral = false := by
  induction c generalizing options undo m m' with
  | hole => exact hhole hopen h h'
  | list before c after ih =>
    obtain ⟨ns, hns, h⟩ := Except.bind_eq_ok h
    obtain ⟨ns', hns', h'⟩ := Except.bind_eq_ok h'
    cases h
    cases h'
    obtain ⟨bs, k, k', as, hk, hk', rfl, rfl⟩ := Node.prepareAll_swap hns hns'
    exact ⟨.linkHeads ((ih (Node.every_of_insert hl) hk hk' hopen).1.insert bs as), rfl, rfl⟩
  | alt before c after ih =>
    obtain ⟨ns, hns, h⟩ := Except.bind_eq_ok h
    obtain ⟨ns', hns', h'⟩ := Except.bind_eq_ok h'
    cases h
    cases h'
    obtain ⟨bs, k, k', as, hk, hk', rfl, rfl⟩ := Node.prepareAll_swap hns hns'
    exact ⟨.alt ((ih (Node.every_of_insert hl) hk hk' hopen).1.insert bs as), rfl, rfl⟩
  | loop l c ih =>
    obtain ⟨k, hk, h⟩ := Except.bind_eq_ok h
    obtain ⟨k', hk', h'⟩ := Except.bind_eq_ok h'
    cases h
    cases h'
    rw [opensAlike, hk, hk', Bool.and_eq_true] at hopen
    obtain ⟨hext, hlit, hlit'⟩ := ih hl.2 hk hk' hopen.2
    refine ⟨hext.rebuildLoop hlit hlit' hl.1 hopen.1, ?_, ?_⟩
    · rw [Node.rebuildLoop_of_not_literal hlit]
      rfl
    · rw [Node.rebuildLoop_of_not_literal hlit']
      rfl
  | under inner c ih =>
    simp only [fill, Node.prepareAt] at h h'
    split at h
    · cases h
    rename_i hfold
    rw [if_neg hfold] at h'
    obtain ⟨k, hk, h⟩ := Except.bind_eq_ok h
    obtain ⟨k', hk', h'⟩ := Except.bind_eq_ok h'
    cases h
    cases h'
    exact ⟨.under inner (ih hl hk hk' hopen).1, rfl, rfl⟩
  | group kind c ih =>
    have hkind := (Node.prepares_of_prepareAt _ h).not_behind fun h hallowed => unfixed_fill hn c h hallowed true
    cases kind with
    | behind | notBehind => simp at hkind
    | _ =>
      obtain ⟨k, hk, h⟩ := Except.bind_eq_ok h
      obtain ⟨k', hk', h'⟩ := Except.bind_eq_ok h'
      cases h
      cases h'
      exact ⟨.group (by simp) (ih hl.2 hk hk' hopen).1, rfl, rfl⟩

end Context
end MultibyteRegex

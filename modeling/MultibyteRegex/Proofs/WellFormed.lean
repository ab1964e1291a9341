import MultibyteRegex.Proofs.Advancing
import MultibyteRegex.Proofs.Derivation

/-!
# 木の整形式

読み取った木では、捕獲の番号が数えた捕獲の数を越えず、繰り返しの下限が上限を越えない。命令に直す前の
書き換えは、手がかりを書き足すだけで、この二つを保つ。
-/

namespace MultibyteRegex

namespace Node

mutual
/-- どの繰り返しも `L` を、どの括弧も `G` を、名指すどの番号も `B` を満たす。 -/
def Every (L : Loop → Prop) (G : GroupKind → Prop) (B : Nat → Prop) : Node → Prop
  | .list nodes => EveryIn L G B nodes
  | .alt nodes => EveryIn L G B nodes
  | .backref n => B n
  | .loop l body => L l ∧ body.Every L G B
  | .scoped _ body => body.Every L G B
  | .group kind body => G kind ∧ body.Every L G B
  | _ => True

def EveryIn (L : Loop → Prop) (G : GroupKind → Prop) (B : Nat → Prop) : List Node → Prop
  | [] => True
  | n :: ns => n.Every L G B ∧ EveryIn L G B ns
end

variable {L L' : Loop → Prop} {G G' : GroupKind → Prop} {B B' : Nat → Prop}

theorem everyIn_iff {L : Loop → Prop} {G : GroupKind → Prop} {B : Nat → Prop} :
    {ns : List Node} → (EveryIn L G B ns ↔ ∀ n ∈ ns, n.Every L G B)
  | [] => by simp [EveryIn]
  | n :: ns => by simp [EveryIn, @everyIn_iff L G B ns]

mutual
theorem Every.mono (hL : ∀ l, L l → L' l) (hG : ∀ k, G k → G' k) (hB : ∀ n, B n → B' n) :
    (n : Node) → n.Every L G B → n.Every L' G' B'
  | .list ns, h => EveryIn.mono hL hG hB ns h
  | .alt ns, h => EveryIn.mono hL hG hB ns h
  | .loop _ body, h => ⟨hL _ h.1, Every.mono hL hG hB body h.2⟩
  | .scoped _ body, h => Every.mono hL hG hB body h
  | .group _ body, h => ⟨hG _ h.1, Every.mono hL hG hB body h.2⟩
  | .empty, _ => trivial
  | .str _, _ => trivial
  | .raw _, _ => trivial
  | .cclass _, _ => trivial
  | .word _, _ => trivial
  | .any, _ => trivial
  | .anchor _, _ => trivial
  | .backref _, h => hB _ h

theorem EveryIn.mono (hL : ∀ l, L l → L' l) (hG : ∀ k, G k → G' k) (hB : ∀ n, B n → B' n) :
    (ns : List Node) → EveryIn L G B ns → EveryIn L' G' B' ns
  | [], _ => trivial
  | n :: ns, h => ⟨Every.mono hL hG hB n h.1, EveryIn.mono hL hG hB ns h.2⟩
end

end Node

/-- 下限は上限を越えない。 -/
def Loop.Ordered (l : Loop) : Prop := ∀ u ∈ l.upper, l.lower ≤ u

/-- 捕獲の番号は `groups` を越えない。 -/
def GroupKind.Within (groups : Nat) : GroupKind → Prop
  | .capture n _ => n ≤ groups
  | _ => True

/-- 捕獲の番号と繰り返しの回数が正しい。 -/
abbrev Node.WellFormed (groups : Nat) (n : Node) : Prop :=
  n.Every Loop.Ordered (GroupKind.Within groups) fun _ => True

abbrev Node.AllWellFormed (groups : Nat) (ns : List Node) : Prop :=
  Node.EveryIn Loop.Ordered (GroupKind.Within groups) (fun _ => True) ns

/-- 読み取ったばかりの繰り返し。手がかりはまだない。 -/
structure Loop.Plain (l : Loop) : Prop where
  ordered : l.Ordered
  emptyBody : l.emptyBody = .never
  head : l.head = none
  next : l.next = none

/-- 読み取ったばかりの括弧。捕獲は一番から数え、取り消しはまだない。 -/
def GroupKind.Plain (groups : Nat) : GroupKind → Prop
  | .capture n undo => 1 ≤ n ∧ n ≤ groups ∧ undo = false
  | _ => True

theorem GroupKind.Plain.mono {g g' : Nat} (h : g ≤ g') {k : GroupKind} (hk : k.Plain g) :
    k.Plain g' := by
  cases k with
  | capture n undo => exact ⟨hk.1, Nat.le_trans hk.2.1 h, hk.2.2⟩
  | _ => trivial

theorem GroupKind.Plain.within {g : Nat} {k : GroupKind} (hk : k.Plain g) : k.Within g := by
  cases k with
  | capture n undo => exact hk.2.1
  | _ => trivial

namespace Node

/-- 読み取ったばかりの木。名指す番号は `backrefs` の中にある。 -/
abbrev Plain (groups : Nat) (backrefs : List Nat) (n : Node) : Prop :=
  n.Every Loop.Plain (GroupKind.Plain groups) (· ∈ backrefs)

theorem Plain.wellFormed {groups : Nat} {backrefs : List Nat} {n : Node}
    (h : n.Plain groups backrefs) : n.WellFormed groups :=
  Every.mono (fun _ hl => hl.ordered) (fun _ hk => hk.within) (fun _ _ => trivial) n h

variable {L : Loop → Prop} {G : GroupKind → Prop} {B : Nat → Prop}

theorem every_seq {ns : List Node} (h : ∀ n ∈ ns, n.Every L G B) : (seq ns).Every L G B := by
  unfold seq
  split
  · trivial
  · exact h _ List.mem_cons_self
  · exact everyIn_iff.2 h

theorem every_choice {ns : List Node} (h : ∀ n ∈ ns, n.Every L G B) : (choice ns).Every L G B := by
  unfold choice
  split
  · trivial
  · exact h _ List.mem_cons_self
  · exact everyIn_iff.2 h

theorem every_joinLiterals {ns : List Node} (h : ∀ n ∈ ns, n.Every L G B) :
    ∀ n ∈ joinLiterals ns, n.Every L G B := by
  fun_induction joinLiterals ns with
  | case1 a b ns ih =>
    refine ih fun n hn => ?_
    rcases List.mem_cons.1 hn with rfl | hn
    · trivial
    · exact h n (List.mem_cons_of_mem _ (List.mem_cons_of_mem _ hn))
  | case2 a b ns ih =>
    refine ih fun n hn => ?_
    rcases List.mem_cons.1 hn with rfl | hn
    · trivial
    · exact h n (List.mem_cons_of_mem _ (List.mem_cons_of_mem _ hn))
  | case3 n ns _ _ ih =>
    obtain ⟨hn, h⟩ := List.forall_mem_cons.1 h
    exact List.forall_mem_cons.2 ⟨hn, ih h⟩
  | case4 => simp

theorem every_spliceLists {ns : List Node} (h : ∀ n ∈ ns, n.Every L G B) :
    ∀ n ∈ spliceLists ns, n.Every L G B := by
  intro n hn
  obtain ⟨k, hk, hn⟩ := List.mem_flatMap.1 hn
  split at hn
  · exact everyIn_iff.1 (h _ hk) n hn
  · cases List.mem_singleton.1 hn
    exact h _ hk

theorem Quantifier.plain_toLoop (q : Quantifier) : q.toLoop.Plain := by
  cases q <;> exact ⟨by simp [Quantifier.toLoop, Loop.Ordered], rfl, rfl, rfl⟩

/-- 繰り返しを付けても、読み取ったばかりの木のままである。 -/
theorem plain_iterate {body : Node} {groups : Nat} {backrefs : List Nat} {l : Loop}
    (h : body.Plain groups backrefs) (hl : l.Plain) : (body.iterate l).Plain groups backrefs := by
  unfold iterate
  split
  · rename_i inner target
    split
    · rename_i q p _ _
      induction q.reduce p with
      | nil => exact h.2
      | cons k ks ih => exact ⟨Quantifier.plain_toLoop k, ih⟩
    · split
      · refine ⟨⟨fun u hu => ?_, hl.emptyBody, hl.head, hl.next⟩, h⟩
        cases hu
        exact Nat.le_max_left ..
      · exact ⟨hl, h⟩
    · exact ⟨hl, h⟩
  · exact ⟨hl, h⟩

end Node

/-! ## 読み取り -/

namespace Pattern

theorem plain_letterEscape? {e : Encoding} {b : UInt8} {node : Node}
    (h : letterEscape? e b = some node) (g : Nat) (bs : List Nat) : node.Plain g bs := by
  unfold letterEscape? at h
  dsimp only at h
  split at h <;> cases h <;> trivial

theorem plain_escape {e : Encoding} {groups : Nat} {input after : Input} {node : Node}
    (h : escape e groups input = .ok (node, after)) (g : Nat) {bs : List Nat}
    (hb : ∀ n, node = .backref n → n ∈ bs) : node.Plain g bs := by
  unfold escape hexEscape backrefOrOctal at h
  split at h
  · cases h
  · split at h
    · rename_i hl
      cases h
      exact plain_letterEscape? hl g bs
    · dsimp only at h
      repeat' split at h
      all_goals cases h
      all_goals first | trivial | exact hb _ rfl

/-- 括弧でない要素は、繰り返しも括弧も含まない。 -/
theorem plain_atom {e : Encoding} {groups : Nat} {b : UInt8} {rest after : Input} {node : Node}
    {ws : List Warning} (h : atom e groups b rest = .ok (node, ws, after)) (g : Nat) {bs : List Nat}
    (hb : ∀ n, node = .backref n → n ∈ bs) : node.Plain g bs := by
  unfold atom at h
  repeat' split at h
  all_goals cases h
  all_goals first | trivial | exact plain_escape ‹_› g hb

/-- 読みかけの段の要素と枝は、どれも読み取ったばかりの木である。 -/
structure Level.Plain (l : Level) (groups : Nat) (backrefs : List Nat) : Prop where
  branches : ∀ n ∈ l.branches, n.Plain groups backrefs
  items : ∀ n ∈ l.items, n.Plain groups backrefs

/-- 開いている括弧の種類と、その外側の段。 -/
def OuterPlain (groups : Nat) (backrefs : List Nat) (outer : List (Opening × Level)) : Prop :=
  ∀ o ∈ outer, (∀ k, o.1 = .group k → k.Plain groups) ∧ o.2.Plain groups backrefs

namespace Level.Plain

variable {l : Level} {g g' : Nat} {bs bs' : List Nat}

theorem mono (hg : g ≤ g') (hbs : bs ⊆ bs') (h : l.Plain g bs) : l.Plain g' bs' :=
  ⟨fun n hn => Node.Every.mono (fun _ h => h) (fun _ => .mono hg) (fun _ hb => hbs hb) n
      (h.branches n hn),
    fun n hn => Node.Every.mono (fun _ h => h) (fun _ => .mono hg) (fun _ hb => hbs hb) n
      (h.items n hn)⟩

theorem push (h : l.Plain g bs) {n : Node} (hn : n.Plain g bs) : (l.push n).Plain g bs :=
  ⟨h.branches, List.forall_mem_cons.2 ⟨hn, h.items⟩⟩

theorem branch (h : l.Plain g bs) : l.branch.Plain g bs :=
  Node.every_seq (Node.every_joinLiterals (Node.every_spliceLists fun n hn =>
    h.items n (List.mem_reverse.1 hn)))

theorem nextBranch (h : l.Plain g bs) : l.nextBranch.Plain g bs :=
  ⟨List.forall_mem_cons.2 ⟨h.branch, h.branches⟩, fun _ hn => by cases hn⟩

theorem node (h : l.Plain g bs) : l.node.Plain g bs := by
  refine Node.every_choice fun n hn => ?_
  rcases List.mem_cons.1 (List.mem_reverse.1 hn) with rfl | hn
  · exact h.branch
  · exact h.branches n hn

theorem close (h : l.Plain g bs) {o : Opening} (ho : ∀ k, o = .group k → k.Plain g) :
    (l.close o).Plain g bs := by
  match o with
  | .plain => exact h.node
  | .group kind => exact ⟨ho kind rfl, h.node⟩
  | .scoped => exact h.node
  | .tail => exact h.node

end Level.Plain

theorem OuterPlain.mono {g g' : Nat} {bs bs' : List Nat} (hg : g ≤ g') (hbs : bs ⊆ bs')
    {outer : List (Opening × Level)} (h : OuterPlain g bs outer) : OuterPlain g' bs' outer :=
  fun o ho => ⟨fun k hk => ((h o ho).1 k hk).mono hg, (h o ho).2.mono hg hbs⟩

theorem plain_closeTails {l l' : Level} {outer outer' : List (Opening × Level)} {g : Nat}
    {bs : List Nat} (h : closeTails l outer = (l', outer')) (hl : l.Plain g bs)
    (ho : OuterPlain g bs outer) : l'.Plain g bs ∧ OuterPlain g bs outer' := by
  fun_induction closeTails l outer with
  | case1 l parent outer ih =>
    obtain ⟨hp, ho⟩ := List.forall_mem_cons.1 ho
    exact ih h (hp.2.push (hl.close fun _ hk => by cases hk)) ho
  | case2 l outer =>
    cases h
    exact ⟨hl, ho⟩

/-- 読み取った回数の下限は、上限を越えない。 -/
theorem ordered_repetition {input after : Input} {lower : Nat} {upper : Option Nat}
    (h : repetition input = .ok (some ((lower, upper), after))) : ∀ u ∈ upper, lower ≤ u := by
  unfold repetition at h
  split at h
  · cases h
  · split at h
    · cases h
      simp
    · cases h
      simp
    · cases h
      simp
    · unfold interval at h
      split at h
      · split at h
        · cases h
        · split at h
          · cases h
          · split at h
            · cases h
            · rename_i hu
              cases h
              intro u hmem
              cases hmem
              simpa using hu
      · cases h
    · cases h

theorem plain_groupOpening {options options' : Options} {input rest : Input} {k : GroupKind}
    {o : Opening} (h : groupOpening options input = .ok (options', o, rest)) (hk : o = .group k)
    {g : Nat} : k.Plain g := by
  have hl : ∀ {options options' : Options} {negative : Bool} {input rest : Input},
      optionLetters options negative input = .ok (options', .group k, rest) → False := by
    intro options options' negative input rest h
    fun_induction optionLetters options negative input with
    | case2 _ _ _ _ _ ih => exact ih h
    | case3 _ _ _ _ _ ih => exact ih h
    | case4 _ _ _ _ _ ih => exact ih h
    | case5 _ _ _ _ _ ih => exact ih h
    | _ => cases h
  subst hk
  unfold groupOpening at h
  split at h
  · cases h
  · split at h
    · cases h
    · cases h
      trivial
    · cases h
      trivial
    · cases h
      trivial
    · split at h
      · cases h
      · split at h
        · cases h
          trivial
        · split at h <;> cases h
          trivial
    all_goals first | exact (hl h).elim | cases h

theorem mem_insertSorted (n : Nat) (ns : List Nat) : n ∈ insertSorted n ns := by
  fun_induction insertSorted n ns with
  | case1 => simp
  | case2 => simp
  | case3 => simp_all
  | case4 m ms _ _ ih => exact List.mem_cons_of_mem _ ih

theorem subset_insertSorted (n : Nat) (ns : List Nat) : ns ⊆ insertSorted n ns := by
  fun_induction insertSorted n ns with
  | case1 => simp
  | case2 m ms _ => exact List.subset_cons_self _ _
  | case3 => exact List.Subset.refl _
  | case4 m ms _ _ ih => exact List.cons_subset_cons _ ih

namespace Reading

/-- 読み取りの途中の木は、どれも読み取ったばかりの木である。 -/
structure Plain (r : Reading) : Prop where
  level : r.level.Plain r.groups r.backrefs
  outer : OuterPlain r.groups r.backrefs r.outer

variable {e : Encoding} {r r' : Reading} {b : UInt8} {rest : Input}

theorem Plain.push {node : Node} (h : r.Plain) (hn : node.Plain r.groups r.backrefs)
    (rest : Input) : (r.push node rest).Plain := ⟨h.level.push hn, h.outer⟩

theorem Plain.attached {node : Node} (h : r.Plain) (hn : node.Plain r.groups r.backrefs)
    (ha : r.Attached node r') : r'.Plain := by
  cases ha with
  | plain rest => exact h.push hn rest
  | loop _ hrepeat greedy rest => exact h.push (Node.plain_iterate hn ⟨ordered_repetition hrepeat, rfl, rfl, rfl⟩) rest

theorem Plain.enter {o : Opening} (h : r.Plain) (ho : ∀ k, o = .group k → k.Plain r.groups)
    (options : Options) (rest : Input) : (r.enter o options rest).Plain :=
  ⟨⟨fun _ hn => (by cases hn), fun _ hn => (by cases hn)⟩,
    List.forall_mem_cons.2 ⟨⟨ho, h.level⟩, h.outer⟩⟩

theorem Plain.advanced (h : r.Plain) (ha : r.Advanced e r') : r'.Plain := by
  cases ha with
  | bar rest => exact ⟨h.level.nextBranch, h.outer⟩
  | @close level opening parent outer _ hclose ha =>
    obtain ⟨hlevel, houter⟩ := plain_closeTails hclose h.level h.outer
    obtain ⟨hp, houter⟩ := List.forall_mem_cons.1 houter
    exact Plain.attached (r := { r with level := parent, outer }) ⟨hp.2, houter⟩ (hlevel.close hp.1) ha
  | enter hopening => exact h.enter (fun k hk => plain_groupOpening hopening hk) _ _
  | capture rest =>
    have h' : { r with groups := r.groups + 1 }.Plain :=
      ⟨h.level.mono (Nat.le_succ _) (List.Subset.refl _),
        h.outer.mono (Nat.le_succ _) (List.Subset.refl _)⟩
    exact h'.enter (fun k hk => by cases hk; exact ⟨Nat.succ_pos _, Nat.le_refl _, rfl⟩) _ _
  | backref _ ha =>
    -- 名指す番号は、要素を加える前に控える。
    refine Plain.attached ?_ (mem_insertSorted _ _) ha
    exact ⟨h.level.mono (Nat.le_refl _) (subset_insertSorted _ _),
      h.outer.mono (Nat.le_refl _) (subset_insertSorted _ _)⟩
  | @atom _ _ _ ws _ _ hatom hnode ha =>
    exact Plain.attached (r := { r with warnings := r.warnings ++ ws }) ⟨h.level, h.outer⟩
      (plain_atom hatom _ fun n hn => absurd hn (hnode n)) ha

theorem Plain.finish {p : Parsed} (h : r.Plain) (hf : r.finish = .ok p) :
    p.root.Plain p.groups p.backrefs := by
  obtain ⟨level, hclose, rfl⟩ := finish_eq_ok hf
  exact (plain_closeTails hclose h.level h.outer).1.node

end Reading

/-- 読み取った木の捕獲と繰り返しは正しく、手がかりはまだない。名指す番号は、どれも控えてある。 -/
theorem plain_parse {e : Encoding} {options : Options} {pattern : Input} {p : Parsed}
    (h : parse e options pattern = .ok p) : p.root.Plain p.groups p.backrefs := by
  have hstart : Reading.Plain { rest := pattern, level := { options } } :=
    ⟨⟨fun _ hn => (by cases hn), fun _ hn => (by cases hn)⟩, fun _ ho => by cases ho⟩
  obtain ⟨r, hr, hfinish⟩ := readAll_invariant (fun _ _ => Reading.Plain.advanced) hstart (parse_eq_ok h).1
  exact hr.finish hfinish

end Pattern

/-! ## 書き換え -/

namespace Node

variable {groups : Nat}

theorem wellFormed_linkHeads {options : Options} {ns : List Node}
    (h : AllWellFormed groups ns) :
    AllWellFormed groups (linkHeads options ns) := by
  fun_induction linkHeads options ns with
  | case1 l body n ns next ih => exact ⟨⟨h.1.1, h.1.2⟩, ih h.2⟩
  | case2 n ns _ ih => exact ⟨h.1, ih h.2⟩
  | case3 => trivial

theorem wellFormed_rebuildLoop {options : Options} {l : Loop} {body : Node} (hl : l.Ordered)
    (h : body.WellFormed groups) : (rebuildLoop options l body).WellFormed groups := by
  rcases rebuildLoop_eq options l body with he | ⟨bytes, he⟩ | ⟨bytes, he⟩
  · rw [he]
    exact ⟨hl, h⟩
  · rw [he]
    trivial
  · rw [he]
    trivial

theorem wellFormed_map_group (kind : GroupKind) (hk : kind.Within groups) {ns : List Node}
    (h : AllWellFormed groups ns) :
    AllWellFormed groups (ns.map (.group kind)) := by
  refine everyIn_iff.2 fun n hn => ?_
  obtain ⟨k, hmem, rfl⟩ := List.mem_map.1 hn
  exact ⟨hk, everyIn_iff.1 h k hmem⟩

variable {env : PrepareEnv}

mutual
/-- 書き換えは、捕獲の番号と繰り返しの回数を変えない。 -/
theorem Prepares.wellFormed {options : Options} {undo : Bool} {n n' : Node} (h : Prepares env options undo n n')
    (hw : n.WellFormed groups) : n'.WellFormed groups :=
  match h, hw with
  | .empty, _ | .str _, _ | .raw _, _ | .word _, _ | .any, _ | .anchor _, _ | .backref _, _ | .cclass .., _
  | .closed .., _ => trivial
  | .list h, hw => wellFormed_linkHeads (h.wellFormed hw)
  | .alt h, hw => h.wellFormed hw
  | .scoped _ h, hw => by
    have hbody := h.wellFormed hw
    exact hbody
  | .loop _ h, hw => wellFormed_rebuildLoop hw.1 (h.wellFormed hw.2)
  | .capture _ _ h, hw => ⟨hw.1, h.wellFormed hw.2⟩
  | .ahead h, hw | .notAhead h, hw | .atomic h, hw | .behind _ _ h, hw | .notBehind _ _ h, hw =>
    ⟨trivial, h.wellFormed hw.2⟩
  | .behindEach _ _ h, hw => wellFormed_map_group .behind trivial (h.wellFormed hw.2)
  | .notBehindEach _ _ h, hw => wellFormed_map_group .notBehind trivial (h.wellFormed hw.2)

theorem PreparesAll.wellFormed {options : Options} {undo : Bool} {ns ns' : List Node}
    (h : PreparesAll env options undo ns ns') (hw : AllWellFormed groups ns) : AllWellFormed groups ns' :=
  match h, hw with
  | .nil, _ => trivial
  | .cons h hs, hw => ⟨h.wellFormed hw.1, hs.wellFormed hw.2⟩
end

theorem wellFormed_prepare {options : Options} {n n' : Node} (hw : n.WellFormed groups)
    (h : n.prepare env options = .ok n') : n'.WellFormed groups := (prepares_of_prepare h).wellFormed hw

end Node
end MultibyteRegex

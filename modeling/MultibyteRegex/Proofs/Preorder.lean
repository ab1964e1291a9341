import MultibyteRegex.Proofs.Merging
import MultibyteRegex.Proofs.WellFormed

/-!
# 木を左から順にたどる

節を、親を先に、左から順に並べると、捕獲の番号と名指す番号の順が決まる。並びや選択の組み立て、文字列の連結、繰り返しの
付け直し、命令に直す前の書き換えは、どれもこの順を変えず、節ごとの決まりも壊さない。
-/

namespace MultibyteRegex

/-- 下限は上限を越えず、どちらも回数の上限を越えない。 -/
structure Loop.InBounds (l : Loop) : Prop where
  ordered : l.Ordered
  lower : l.lower ≤ Pattern.maxRepeatNumber
  upper : ∀ u ∈ l.upper, u ≤ Pattern.maxRepeatNumber

theorem Quantifier.inBounds_toLoop (q : Quantifier) : q.toLoop.InBounds := by
  cases q <;> exact ⟨by simp [Quantifier.toLoop, Loop.Ordered], by decide, by decide⟩

/-- 捕獲が付ける番号か、後方参照が名指す番号。 -/
inductive Label
  | capture (n : Nat)
  | backref (n : Nat)
  deriving DecidableEq

def Label.capture? : Label → Option Nat
  | .capture n => some n
  | .backref _ => none

def Label.backref? : Label → Option Nat
  | .capture _ => none
  | .backref n => some n

namespace Node

mutual
/-- 節とその中の節。親を先に、左から順に並べる。 -/
def preorder : Node → List Node
  | .list nodes => .list nodes :: preorderAll nodes
  | .alt nodes => .alt nodes :: preorderAll nodes
  | .loop l body => .loop l body :: body.preorder
  | .scoped options body => .scoped options body :: body.preorder
  | .group kind body => .group kind body :: body.preorder
  | n => [n]

def preorderAll : List Node → List Node
  | [] => []
  | n :: ns => n.preorder ++ preorderAll ns
end

def label? : Node → Option Label
  | .group (.capture n _) _ => some (.capture n)
  | .backref n => some (.backref n)
  | _ => none

/-- 一つの節の決まり。中の節は問わない。 -/
def Legal : Node → Prop
  | .loop l _ => l.InBounds
  | .cclass c => CodeRange.Spaced c.ranges
  | .str bytes => bytes ≠ []
  | .raw bytes => bytes ≠ []
  | .backref n => 1 ≤ n
  | _ => True

/-- すぐ下の節。 -/
def children : Node → List Node
  | .list nodes => nodes
  | .alt nodes => nodes
  | .loop _ body => [body]
  | .scoped _ body => [body]
  | .group _ body => [body]
  | _ => []

/-- 並びの捕獲と後方参照。 -/
def labels (ns : List Node) : List Label := (preorderAll ns).filterMap label?

/-- 捕獲の番号を、左から順に並べる。 -/
def captures (n : Node) : List Nat := (n.preorder.filterMap label?).filterMap Label.capture?

/-- 名指す番号を、左から順に並べる。 -/
def references (n : Node) : List Nat := (n.preorder.filterMap label?).filterMap Label.backref?

variable {n n' : Node} {ns ns' ms ms' : List Node} {l : Loop} {options : Options}

theorem preorder_eq (n : Node) : n.preorder = n :: preorderAll n.children := by
  cases n <;> simp [preorder, children, preorderAll]

theorem preorderAll_self (n : Node) : preorderAll [n] = n.preorder := by
  rw [preorderAll, preorderAll, List.append_nil]

theorem preorderAll_singleton (n : Node) : preorderAll [n] = n :: preorderAll n.children := by
  rw [preorderAll_self, preorder_eq]

theorem preorderAll_append (ns ms : List Node) : preorderAll (ns ++ ms) = preorderAll ns ++ preorderAll ms := by
  induction ns with
  | nil => rfl
  | cons n ns ih => rw [List.cons_append, preorderAll, preorderAll, ih, List.append_assoc]

theorem labels_append (ns ms : List Node) : labels (ns ++ ms) = labels ns ++ labels ms := by
  rw [labels, preorderAll_append, List.filterMap_append, labels, labels]

theorem labels_singleton (n : Node) : labels [n] = n.label?.toList ++ labels n.children := by
  rw [labels, preorderAll_singleton, List.filterMap_cons]
  cases n.label? <;> rfl

theorem captures_capture (k : Nat) (undo : Bool) (n : Node) :
    (Node.group (.capture k undo) n).captures = k :: n.captures := rfl

theorem captures_cons (n : Node) (ns : List Node) :
    (labels (n :: ns)).filterMap Label.capture? = n.captures ++ (labels ns).filterMap Label.capture? := by
  rw [labels, preorderAll, List.filterMap_append, List.filterMap_append]
  rfl

/-- `ns` を `ns'` に組み直しても、捕獲と後方参照の順は変わらず、節ごとの決まりも保たれる。 -/
structure Keeps (ns ns' : List Node) : Prop where
  labels : labels ns' = labels ns
  legal : (∀ m ∈ preorderAll ns, m.Legal) → ∀ m ∈ preorderAll ns', m.Legal

namespace Keeps

theorem refl (ns : List Node) : Keeps ns ns := ⟨rfl, fun h => h⟩

theorem trans (h : Keeps ns ms) (h' : Keeps ms ms') : Keeps ns ms' :=
  ⟨h'.labels.trans h.labels, fun hns => h'.legal (h.legal hns)⟩

theorem append (h : Keeps ns ns') (h' : Keeps ms ms') : Keeps (ns ++ ms) (ns' ++ ms') := by
  refine ⟨by rw [labels_append, labels_append, h.labels, h'.labels], fun hlegal => ?_⟩
  rw [preorderAll_append] at hlegal ⊢
  obtain ⟨hns, hms⟩ := List.forall_mem_append.1 hlegal
  exact List.forall_mem_append.2 ⟨h.legal hns, h'.legal hms⟩

theorem cons (h : Keeps [n] [n']) (h' : Keeps ns ns') : Keeps (n :: ns) (n' :: ns') := h.append h'

/-- 番号を持たない節は、開いてすぐ下の節を並べてよい。 -/
theorem unwrap (h : n.label? = none) : Keeps [n] n.children := by
  refine ⟨?_, fun hlegal => ?_⟩
  · rw [labels_singleton, h]
    rfl
  · rw [preorderAll_singleton] at hlegal
    exact (List.forall_mem_cons.1 hlegal).2

/-- 番号を持たない節に包んでもよい。 -/
theorem wrap (h : n.label? = none) (hlegal : n.Legal) : Keeps n.children [n] := by
  refine ⟨?_, fun hns => ?_⟩
  · rw [labels_singleton, h]
    rfl
  · rw [preorderAll_singleton]
    exact List.forall_mem_cons.2 ⟨hlegal, hns⟩

/-- 同じ番号を持つ節に置き換え、中も組み直す。 -/
theorem under (n n' : Node) (hlabel : n'.label? = n.label?) (hlegal : n.Legal → n'.Legal) (h : Keeps n.children n'.children) :
    Keeps [n] [n'] := by
  refine ⟨by rw [labels_singleton, labels_singleton, hlabel, h.labels], fun hns => ?_⟩
  rw [preorderAll_singleton] at hns ⊢
  obtain ⟨hn, hns⟩ := List.forall_mem_cons.1 hns
  exact List.forall_mem_cons.2 ⟨hlegal hn, h.legal hns⟩

end Keeps

/-! ## 木の組み立て -/

theorem keeps_seq (ns : List Node) : Keeps ns [seq ns] := by
  unfold seq
  split
  · exact .wrap (n := .empty) rfl trivial
  · exact .refl _
  · exact .wrap (n := .list ns) rfl trivial

theorem keeps_choice (ns : List Node) : Keeps ns [choice ns] := by
  unfold choice
  split
  · exact .wrap (n := .empty) rfl trivial
  · exact .refl _
  · exact .wrap (n := .alt ns) rfl trivial

theorem keeps_spliceLists (ns : List Node) : Keeps ns (spliceLists ns) := by
  induction ns with
  | nil => exact .refl _
  | cons n ns ih =>
    unfold spliceLists at ih ⊢
    rw [List.flatMap_cons, ← List.singleton_append]
    refine .append ?_ ih
    split
    · exact .unwrap rfl
    · exact .refl _

theorem keeps_joinLiterals (ns : List Node) : Keeps ns (joinLiterals ns) := by
  fun_induction joinLiterals ns with
  | case1 a b ns ih =>
    have hjoin : Keeps [.str a, .str b] [.str (a ++ b)] :=
      ⟨rfl, fun h => by simp_all [preorderAll, preorder, Legal]⟩
    exact (hjoin.append (.refl ns)).trans ih
  | case2 a b ns ih =>
    have hjoin : Keeps [.raw a, .raw b] [.raw (a ++ b)] :=
      ⟨rfl, fun h => by simp_all [preorderAll, preorder, Legal]⟩
    exact (hjoin.append (.refl ns)).trans ih
  | case3 n ns _ _ ih => exact (Keeps.refl [n]).append ih
  | case4 => exact .refl _

theorem keeps_iterate (hl : l.InBounds) (body : Node) : Keeps [body] [body.iterate l] := by
  have hplain : Keeps [body] [.loop l body] := .wrap (n := .loop l body) rfl hl
  unfold iterate
  split
  · rename_i inner target
    split
    · rename_i q p _ _
      refine (Keeps.unwrap rfl).trans ?_
      change Keeps [target] _
      induction q.reduce p with
      | nil => exact .refl _
      | cons k ks ih => exact ih.trans (.wrap (n := .loop k.toLoop _) rfl (Quantifier.inBounds_toLoop k))
    · split
      · rename_i hnarrow
        refine .wrap (n := .loop { l with upper := some (max l.lower 1) } (.loop inner target)) rfl
          ⟨fun u hu => ?_, hl.lower, fun u hu => ?_⟩
        · cases hu
          exact Nat.le_max_left ..
        · cases hu
          exact Nat.max_le.2 ⟨hl.lower, by decide⟩
      · exact hplain
    · exact hplain
  · exact hplain

/-! ## 書き換え -/

theorem keeps_linkHeads (options : Options) (ns : List Node) : Keeps ns (linkHeads options ns) := by
  fun_induction linkHeads options ns with
  | case1 l body n ns next ih =>
    have hnext : Keeps [.loop l body] [.loop { l with next } body] :=
      .under _ _ rfl (fun hl => ⟨hl.ordered, hl.lower, hl.upper⟩) (.refl _)
    exact hnext.append ih
  | case2 n ns _ ih => exact (Keeps.refl [n]).append ih
  | case3 => exact .refl _

theorem flatten_replicate_ne_nil {k : Nat} {bytes : List UInt8} (hk : 1 < k) (hne : bytes ≠ []) :
    (List.replicate k bytes).flatten ≠ [] := by
  obtain ⟨k, rfl⟩ : ∃ i, k = i + 1 := ⟨k - 1, by omega⟩
  simp [List.replicate_succ, hne]

theorem keeps_rebuildLoop (options : Options) (l : Loop) (body : Node) :
    Keeps [.loop l body] [rebuildLoop options l body] := by
  have hhint (emptyBody : EmptyBody) (head : Option UInt8) :
      Keeps [.loop l body] [.loop { l with emptyBody, head } body] :=
    .under _ _ rfl (fun hl => ⟨hl.ordered, hl.lower, hl.upper⟩) (.refl _)
  unfold rebuildLoop
  dsimp only
  split
  · rename_i hfixed
    have hlower : 1 < l.lower := of_decide_eq_true (Bool.and_eq_true_iff.1 hfixed).2
    split
    · rename_i bytes
      split
      · refine ⟨rfl, fun h => List.forall_mem_singleton.2 (flatten_replicate_ne_nil hlower ?_)⟩
        exact h (.str bytes) (.tail _ (.head _))
      · exact hhint ..
    · rename_i bytes
      split
      · refine ⟨rfl, fun h => List.forall_mem_singleton.2 (flatten_replicate_ne_nil hlower ?_)⟩
        exact h (.raw bytes) (.tail _ (.head _))
      · exact hhint ..
    · exact hhint ..
  · exact hhint ..

/-- 開いたときの括弧の後に並べた節を、括弧の中に入れる。 -/
theorem keeps_enclose (kind : GroupKind) (body : Node) : Keeps [.group kind .empty, body] [.group kind body] := by
  refine ⟨by cases kind <;> rfl, fun h => ?_⟩
  rw [preorderAll_singleton]
  exact List.forall_mem_cons.2 ⟨trivial, fun m hm => h m (.tail _ (.tail _ hm))⟩

/-- 番号を持たない同じ括弧で、それぞれを包む。 -/
theorem keeps_map_group {kind : GroupKind} (hkind : ∀ body, (Node.group kind body).label? = none) (ns : List Node) :
    Keeps ns (ns.map (.group kind)) := by
  induction ns with
  | nil => exact .refl _
  | cons n ns ih => exact .cons (.wrap (n := .group kind n) (hkind n) trivial) ih

theorem Keeps.cclass {c c' : CharClass} (h : CodeRange.Spaced c.ranges → CodeRange.Spaced c'.ranges) :
    Keeps [.cclass c] [.cclass c'] :=
  .under (.cclass c) (.cclass c') rfl h (.refl _)

theorem Keeps.list (h : Keeps ns ns') : Keeps [.list ns] [.list ns'] :=
  .under (.list ns) (.list ns') rfl (fun _ => trivial) h

theorem Keeps.alt (h : Keeps ns ns') : Keeps [.alt ns] [.alt ns'] :=
  .under (.alt ns) (.alt ns') rfl (fun _ => trivial) h

theorem Keeps.loop (l : Loop) (h : Keeps [n] [n']) : Keeps [.loop l n] [.loop l n'] :=
  .under (.loop l n) (.loop l n') rfl (fun hl => hl) h

theorem Keeps.scoped (options : Options) (h : Keeps [n] [n']) : Keeps [.scoped options n] [.scoped options n'] :=
  .under (.scoped options n) (.scoped options n') rfl (fun _ => trivial) h

theorem Keeps.group {kind kind' : GroupKind} (hkind : (Node.group kind' n').label? = (Node.group kind n).label?)
    (h : Keeps [n] [n']) : Keeps [.group kind n] [.group kind' n'] :=
  .under (.group kind n) (.group kind' n') hkind (fun _ => trivial) h

/-- 選択を本体とする括弧を、枝ごとの括弧に分ける。 -/
theorem Keeps.divide {kind : GroupKind} (hkind : ∀ body, (Node.group kind body).label? = none) (h : Keeps ns ns') :
    Keeps [.group kind (.alt ns)] (ns'.map (.group kind)) :=
  (Keeps.unwrap (hkind _)).trans ((Keeps.unwrap (n := .alt ns) rfl).trans (h.trans (keeps_map_group hkind ns')))

variable {env : PrepareEnv}

mutual
/-- 書き換えは、捕獲と後方参照の順を変えず、節ごとの決まりも壊さない。 -/
theorem Prepares.keeps {options : Options} {undo : Bool} {n n' : Node} (h : Prepares env options undo n n') :
    Keeps [n] [n'] :=
  match h with
  | .empty | .str _ | .raw _ | .word _ | .any | .anchor _ | .backref _ | .cclass .. => .refl _
  | .closed table _ _ _ => .cclass fun hc => CharClass.spaced_apply (e := env.encoding) hc (.fold table)
  | .list h => .list (h.keeps.trans (keeps_linkHeads ..))
  | .alt h => h.keeps.alt
  | .scoped _ h => h.keeps.scoped _
  | .loop l h => (h.keeps.loop l).trans (keeps_rebuildLoop ..)
  | .capture _ _ h | .ahead h | .notAhead h | .atomic h | .behind _ _ h | .notBehind _ _ h => .group rfl h.keeps
  | .behindEach _ _ h => (h.keeps.divide fun _ => rfl).trans (.wrap (n := .alt _) rfl trivial)
  | .notBehindEach _ _ h => (h.keeps.divide fun _ => rfl).trans (.wrap (n := .list _) rfl trivial)

theorem PreparesAll.keeps {options : Options} {undo : Bool} {ns ns' : List Node}
    (h : PreparesAll env options undo ns ns') : Keeps ns ns' :=
  match h with
  | .nil => .refl _
  | .cons h hs => h.keeps.cons hs.keeps
end

end Node
end MultibyteRegex

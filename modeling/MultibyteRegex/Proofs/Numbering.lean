import MultibyteRegex.Proofs.Atoms
import MultibyteRegex.Proofs.Safety

/-!
# 受け付けたパターンの木

受け付けたパターンの木では、捕獲の番号が左から順に一から並び、名指す番号は控えた番号とちょうど一致して、どれも捕獲の数を
越えない。読みかけの段を一列に並べた節の列が、読み取りの一歩ごとに同じことを保つ。
-/

namespace MultibyteRegex

/-! ## 控えた番号 -/

namespace Pattern

variable {n k : Nat} {ns : List Nat}

theorem mem_insertSorted_iff : k ∈ insertSorted n ns ↔ k = n ∨ k ∈ ns := by
  fun_induction insertSorted n ns with
  | case1 => simp
  | case2 => simp
  | case3 => simp
  | case4 m ms _ _ ih => simp [ih, or_left_comm]

theorem sorted_insertSorted (n : Nat) (h : ns.Pairwise (· < ·)) : (insertSorted n ns).Pairwise (· < ·) := by
  fun_induction insertSorted n ns with
  | case1 => exact List.pairwise_singleton _ _
  | case2 m ms hlt =>
    refine List.pairwise_cons.2 ⟨List.forall_mem_cons.2 ⟨hlt, fun k hk => ?_⟩, h⟩
    exact Nat.lt_trans hlt ((List.pairwise_cons.1 h).1 k hk)
  | case3 => exact h
  | case4 m ms hle hne ih =>
    obtain ⟨hm, hms⟩ := List.pairwise_cons.1 h
    refine List.pairwise_cons.2 ⟨fun k hk => ?_, ih hms⟩
    rcases mem_insertSorted_iff.1 hk with rfl | hk
    · omega
    · exact hm k hk

end Pattern

/-! ## 節の列 -/

namespace Node

/-- 捕獲の番号は左から順に一から並び、名指す番号は控えた番号とちょうど一致し、捕獲の数を越えず、どの節も決まりに合う。 -/
structure Numbered (n : Node) (groups : Nat) (backrefs : List Nat) : Prop where
  captures : n.captures = List.range' 1 groups
  references : ∀ k, k ∈ n.references ↔ k ∈ backrefs
  within : ∀ k ∈ backrefs, 1 ≤ k ∧ k ≤ groups
  legal : ∀ m ∈ n.preorder, m.Legal

/-- 読みかけの節の列。名指す番号は小さい順に控えてあるが、捕獲の数を越えることはまだありうる。 -/
structure NumberedAll (ns : List Node) (groups : Nat) (backrefs : List Nat) : Prop where
  captures : (labels ns).filterMap Label.capture? = List.range' 1 groups
  references : ∀ k, k ∈ (labels ns).filterMap Label.backref? ↔ k ∈ backrefs
  sorted : backrefs.Pairwise (· < ·)
  legal : ∀ m ∈ preorderAll ns, m.Legal

variable {n : Node} {ns ns' : List Node} {groups k : Nat} {backrefs : List Nat}

theorem exists_of_mem_references (h : k ∈ (labels ns).filterMap Label.backref?) : .backref k ∈ preorderAll ns := by
  obtain ⟨label, hlabel, hk⟩ := List.mem_filterMap.1 h
  obtain ⟨m, hm, hl⟩ := List.mem_filterMap.1 hlabel
  cases label with
  | capture i => cases hk
  | backref i =>
    cases hk
    cases m with
    | backref i =>
      cases hl
      exact hm
    | group kind body => cases kind <;> cases hl
    | _ => cases hl

namespace NumberedAll

theorem nil : NumberedAll [] 0 [] := ⟨rfl, fun k => by simp [labels, preorderAll], .nil, fun _ hm => by cases hm⟩

theorem keeps (hns : NumberedAll ns groups backrefs) (h : Keeps ns ns') : NumberedAll ns' groups backrefs :=
  ⟨h.labels ▸ hns.captures, h.labels ▸ hns.references, hns.sorted, h.legal hns.legal⟩

theorem append_legal (h : NumberedAll ns groups backrefs) (hn : n.Legal) (hchildren : n.children = []) :
    ∀ m ∈ preorderAll (ns ++ [n]), m.Legal := by
  rw [preorderAll_append, preorderAll_singleton, hchildren]
  exact List.forall_mem_append.2 ⟨h.legal, List.forall_mem_singleton.2 hn⟩

theorem labels_leaf (hchildren : n.children = []) : labels [n] = n.label?.toList := by
  rw [labels_singleton, hchildren]
  exact List.append_nil _

/-- 番号を持たない要素を加える。 -/
theorem leaf (h : NumberedAll ns groups backrefs) (hn : n.Legal) (hchildren : n.children = []) (hlabel : n.label? = none) :
    NumberedAll (ns ++ [n]) groups backrefs := by
  have hlabels : labels (ns ++ [n]) = labels ns := by
    rw [labels_append, labels_leaf hchildren, hlabel]
    exact List.append_nil _
  exact ⟨hlabels ▸ h.captures, hlabels ▸ h.references, h.sorted, h.append_legal hn hchildren⟩

/-- 次の番号の捕獲を開く。 -/
theorem capture (h : NumberedAll ns groups backrefs) (marked : Bool) :
    NumberedAll (ns ++ [.group (.capture (groups + 1) marked) .empty]) (groups + 1) backrefs := by
  have hlabels : labels (ns ++ [.group (.capture (groups + 1) marked) .empty]) = labels ns ++ [.capture (groups + 1)] := by
    rw [labels_append, labels_singleton]
    rfl
  refine ⟨?_, fun k => ?_, h.sorted, ?_⟩
  · rw [hlabels, List.filterMap_append, h.captures, List.range'_1_concat, Nat.add_comm 1]
    rfl
  · rw [hlabels, List.filterMap_append, ← h.references]
    simp [Label.backref?]
  · rw [preorderAll_append]
    refine List.forall_mem_append.2 ⟨h.legal, ?_⟩
    rw [preorderAll_singleton]
    exact List.forall_mem_cons.2 ⟨trivial, List.forall_mem_singleton.2 trivial⟩

/-- 後方参照を加え、その番号を控える。 -/
theorem backref (h : NumberedAll ns groups backrefs) (hk : 1 ≤ k) :
    NumberedAll (ns ++ [.backref k]) groups (Pattern.insertSorted k backrefs) := by
  have hlabels : labels (ns ++ [.backref k]) = labels ns ++ [.backref k] := by
    rw [labels_append, labels_leaf rfl]
    rfl
  refine ⟨?_, fun i => ?_, Pattern.sorted_insertSorted k h.sorted, h.append_legal hk rfl⟩
  · rw [hlabels, List.filterMap_append, h.captures]
    exact List.append_nil _
  · rw [hlabels, List.filterMap_append, List.mem_append, h.references, Pattern.mem_insertSorted_iff]
    simp [Label.backref?, or_comm]

theorem numbered (h : NumberedAll [n] groups backrefs) (hmax : ∀ k ∈ backrefs.getLast?, k ≤ groups) :
    n.Numbered groups backrefs := by
  obtain ⟨hcaptures, hreferences, hsorted, hlegal⟩ := h
  have hwithin : ∀ k ∈ backrefs, 1 ≤ k ∧ k ≤ groups := by
    intro k hk
    refine ⟨hlegal _ (exists_of_mem_references ((hreferences k).2 hk)), ?_⟩
    obtain ⟨last, hlast⟩ := Option.isSome_iff_exists.1 (List.getLast?_isSome.2 (List.ne_nil_of_mem hk))
    have hle := hmax last hlast
    obtain ⟨init, rfl⟩ := List.getLast?_eq_some_iff.1 hlast
    rcases List.mem_append.1 hk with hk | hk
    · have hlt := (List.pairwise_append.1 hsorted).2.2 k hk last (List.mem_singleton_self last)
      exact Nat.le_of_lt (Nat.lt_of_lt_of_le hlt hle)
    · rw [List.mem_singleton.1 hk]
      exact hle
  rw [labels, preorderAll_self] at hcaptures
  rw [preorderAll_self] at hlegal
  simp only [labels, preorderAll_self] at hreferences
  exact ⟨hcaptures, hreferences, hwithin, hlegal⟩

end NumberedAll

theorem Numbered.keeps {n' : Node} (h : n.Numbered groups backrefs) (hkeeps : Keeps [n] [n']) :
    n'.Numbered groups backrefs := by
  obtain ⟨hlabels, hlegal⟩ := hkeeps
  rw [labels, labels, preorderAll_self, preorderAll_self] at hlabels
  rw [preorderAll_self, preorderAll_self] at hlegal
  refine ⟨?_, fun k => ?_, h.within, hlegal h.legal⟩
  · rw [Node.captures, hlabels]
    exact h.captures
  · rw [Node.references, hlabels]
    exact h.references k

end Node

/-! ## 読み取り -/

namespace Pattern

variable {e : Encoding} {b : UInt8} {input rest : Input} {node : Node} {groups : Nat} {backrefs : List Nat}

open Node (Keeps NumberedAll)

/-- 開いた括弧の番号だけを持つ節。 -/
def Opening.nodes : Opening → List Node
  | .group kind => [.group kind .empty]
  | _ => []

namespace Level

/-- 読みかけの枝と要素を、読んだ順に並べる。 -/
def nodes (l : Level) : List Node := l.branches.reverse ++ l.items.reverse

theorem nodes_push (l : Level) (n : Node) : (l.push n).nodes = l.nodes ++ [n] := by simp [nodes, push]

theorem keeps_branch (l : Level) : Keeps l.items.reverse [l.branch] :=
  (Node.keeps_spliceLists _).trans ((Node.keeps_joinLiterals _).trans (Node.keeps_seq _))

theorem keeps_nextBranch (l : Level) : Keeps l.nodes l.nextBranch.nodes := by
  have hnodes : l.nextBranch.nodes = l.branches.reverse ++ [l.branch] := by simp [nodes, nextBranch]
  rw [hnodes]
  exact (Keeps.refl _).append l.keeps_branch

theorem keeps_node (l : Level) : Keeps l.nodes [l.node] := by
  have hbranches : (l.branch :: l.branches).reverse = l.branches.reverse ++ [l.branch] := List.reverse_cons
  rw [node, hbranches]
  exact ((Keeps.refl _).append l.keeps_branch).trans (Node.keeps_choice _)

/-- 括弧を閉じると、開いたときの番号と中の節が一つの節になる。 -/
theorem keeps_close (l : Level) (o : Opening) : Keeps (o.nodes ++ l.nodes) [l.close o] := by
  match o with
  | .plain => exact l.keeps_node
  | .scoped | .tail => exact l.keeps_node.trans (.wrap (n := .scoped l.options l.node) rfl trivial)
  | .group kind => exact ((Keeps.refl _).append l.keeps_node).trans (Node.keeps_enclose kind l.node)

end Level

/-- 開いている括弧とその外側の段を、外から順に並べる。 -/
def outerNodes : List (Opening × Level) → List Node
  | [] => []
  | (o, l) :: outer => outerNodes outer ++ (l.nodes ++ o.nodes)

theorem keeps_closeTails {l l' : Level} {outer outer' : List (Opening × Level)}
    (h : closeTails l outer = (l', outer')) : Keeps (outerNodes outer ++ l.nodes) (outerNodes outer' ++ l'.nodes) := by
  fun_induction closeTails l outer with
  | case1 l parent outer ih =>
    refine Keeps.trans ?_ (ih h)
    rw [Level.nodes_push, outerNodes, List.append_assoc, List.append_assoc]
    exact (Keeps.refl _).append ((Keeps.refl _).append (l.keeps_close .tail))
  | case2 l outer =>
    cases h
    exact .refl _

namespace Reading

variable {r r' : Reading}

/-- 読みかけの節を、読んだ順に並べる。 -/
def nodes (r : Reading) : List Node := outerNodes r.outer ++ r.level.nodes

/-- 読みかけの節の列は、番号の決まりに合う。 -/
def Numbered (r : Reading) : Prop := NumberedAll r.nodes r.groups r.backrefs

theorem nodes_push (r : Reading) (n : Node) (rest : Input) : (r.push n rest).nodes = r.nodes ++ [n] := by
  rw [nodes, nodes, List.append_assoc, ← Level.nodes_push]
  rfl

/-- 要素に繰り返しを付けて加えても、番号の順は変わらない。 -/
theorem Attached.numbered (ha : r.Attached node r') (h : NumberedAll (r.nodes ++ [node]) r.groups r.backrefs) :
    r'.Numbered := by
  cases ha with
  | plain rest =>
    rw [Numbered, nodes_push]
    exact h
  | loop _ hrepeat greedy rest =>
    rw [Numbered, nodes_push]
    exact h.keeps ((Keeps.refl _).append (Node.keeps_iterate (inBounds_repetition hrepeat greedy) node))

namespace Numbered

theorem enter {o : Opening} {options : Options} (h : NumberedAll (r.nodes ++ o.nodes) r.groups r.backrefs) :
    (r.enter o options rest).Numbered := by
  have hnodes : (r.enter o options rest).nodes = r.nodes ++ o.nodes := by
    simp [nodes, Reading.enter, outerNodes, Level.nodes]
  rw [Numbered, hnodes]
  exact h

/-- 疑問符を伴う括弧は捕獲ではないので、開いても番号は増えない。 -/
theorem open_unnumbered {options options' : Options} {opening : Opening} (h : r.Numbered)
    (hopening : groupOpening options input = .ok (options', opening, rest)) :
    NumberedAll (r.nodes ++ opening.nodes) r.groups r.backrefs := by
  unfold Opening.nodes
  split
  · rename_i kind
    have hkind : kind.Plain 0 := plain_groupOpening hopening rfl
    have hlabel : (Node.group kind .empty).label? = none := by
      cases kind with
      | capture n undo =>
        obtain ⟨hpos, hle, -⟩ := hkind
        omega
      | _ => rfl
    have hkeeps : Keeps [] [.group kind .empty] :=
      .trans (.wrap (n := .empty) rfl trivial) (.wrap (n := .group kind .empty) hlabel trivial)
    have hnodes := (Keeps.refl r.nodes).append hkeeps
    rw [List.append_nil] at hnodes
    exact NumberedAll.keeps h hnodes
  · rw [List.append_nil]
    exact h

/-- 読み取りの一歩。 -/
theorem advanced (h : r.Numbered) (ha : r.Advanced e r') : r'.Numbered := by
  cases ha with
  | bar rest => exact NumberedAll.keeps h ((Keeps.refl _).append r.level.keeps_nextBranch)
  | @close level opening parent outer _ hclose ha =>
    refine ha.numbered ?_
    have hnodes := NumberedAll.keeps h (keeps_closeTails hclose)
    rw [outerNodes, List.append_assoc, List.append_assoc] at hnodes
    rw [nodes, List.append_assoc]
    exact hnodes.keeps ((Keeps.refl _).append ((Keeps.refl _).append (level.keeps_close opening)))
  | enter hopening => exact enter (h.open_unnumbered hopening)
  | capture rest => exact enter (r := { r with groups := r.groups + 1 }) (NumberedAll.capture h false)
  | backref hatom ha => exact ha.numbered (NumberedAll.backref h (isLeaf_atom hatom).legal)
  | atom hatom hnode ha =>
    have hleaf := isLeaf_atom hatom
    exact ha.numbered (NumberedAll.leaf h hleaf.legal hleaf.children (hleaf.label?_eq_none hnode))

theorem finish {p : Parsed} (h : r.Numbered) (hf : r.finish = .ok p) : NumberedAll [p.root] p.groups p.backrefs := by
  obtain ⟨level, hclose, rfl⟩ := finish_eq_ok hf
  exact NumberedAll.keeps h ((keeps_closeTails hclose).trans level.keeps_node)

end Numbered
end Reading

/-- 受け付けたパターンの木は、捕獲の番号が左から順に一から並ぶ。 -/
theorem numbered_parse {options : Options} {pattern : Input} {p : Parsed} (h : parse e options pattern = .ok p) :
    p.root.Numbered p.groups p.backrefs := by
  obtain ⟨hread, hmax⟩ := parse_eq_ok h
  have hstart : Reading.Numbered { rest := pattern, level := { options } } := NumberedAll.nil
  obtain ⟨r, hr, hfinish⟩ := readAll_invariant (fun _ _ => Reading.Numbered.advanced) hstart hread
  exact (hr.finish hfinish).numbered hmax

/-- 受け付けたパターンの木では、捕獲の番号が左から順に一から並び、名指す番号は控えた番号とちょうど一致して捕獲の数を
越えず、繰り返しの回数、文字の集まりの区間、文字列はどれも決まりに合う。命令に直す前の書き換えの後も、同じである。 -/
theorem parse_numbered {options : Options} {pattern : Input} {p : Parsed} (h : parse e options pattern = .ok p) :
    p.root.Numbered p.groups p.backrefs ∧
      ∀ env options' root, p.root.prepare env options' = .ok root → root.Numbered p.groups p.backrefs := by
  have hnumbered := numbered_parse h
  exact ⟨hnumbered, fun env options' root hprepare => hnumbered.keeps (Node.prepares_of_prepare hprepare).keeps⟩

/-- 繰り返しと後読みの中に捕獲があり、後読みが枝ごとに分かれる例。 -/
theorem parse_numbered_divided :
    ∃ p root, parse .utf8 .none (ascii "(?:(a)|b){2}(?<=(c)|(d)e)\\2*") = .ok p ∧
      p.root.prepare { encoding := .utf8, fold := none, backrefs := p.backrefs } .none = .ok root ∧
      p.root.Numbered 3 [2] ∧ root.Numbered 3 [2] := by
  obtain ⟨p, hparse, hp⟩ := exists_ok (x := parse .utf8 .none (ascii "(?:(a)|b){2}(?<=(c)|(d)e)\\2*"))
    (p := fun p => p.groups == 3 && p.backrefs == [2] &&
      (p.root.prepare { encoding := .utf8, fold := none, backrefs := p.backrefs } .none).toOption.any fun _ => true)
    (by decide +kernel)
  simp only [Bool.and_eq_true, beq_iff_eq] at hp
  obtain ⟨⟨hgroups, hbackrefs⟩, hprepare⟩ := hp
  obtain ⟨root, hroot, -⟩ := exists_ok hprepare
  obtain ⟨htree, hprepared⟩ := parse_numbered hparse
  rw [hgroups, hbackrefs] at htree
  have hrewritten := hprepared _ _ _ hroot
  rw [hgroups, hbackrefs] at hrewritten
  exact ⟨p, root, hparse, hroot, htree, hrewritten⟩

end Pattern
end MultibyteRegex

import MultibyteRegex.Proofs.WellFormed

/-!
# 書き換えた木の手がかり

命令に直す前の書き換えは、繰り返しの前後の始まりのバイトと、取り消しの要る捕獲とを書き足す。書き足した
手がかりは、どれも正しい。
-/

namespace MultibyteRegex

theorem mem_allBytes (b : UInt8) : b ∈ allBytes :=
  List.mem_map.2 ⟨b.toNat, by simpa using b.toNat_lt, by simp⟩

/-- 全部のバイトで成り立つことは、一つずつ計算して確かめられる。 -/
theorem forall_byte {p : UInt8 → Prop} [DecidablePred p] (h : allBytes.all (p ·)) (b : UInt8) : p b :=
  of_decide_eq_true (List.all_eq_true.1 h b (mem_allBytes b))

namespace CharClass

theorem contains_closeFold (c : CharClass) (t : FoldTable) (b : UInt8) :
    (c.closeFold t).bytes.contains b = true ↔
      ∃ d, c.bytes.contains d = true ∧ (d = b ∨ t.fold d = t.fold b) := by
  simp [closeFold, ByteSet.toList, mem_allBytes]

/-- 同じとみなす文字について閉じた集まりは、もう一度閉じても変わらない。 -/
theorem closeFold_closeFold (c : CharClass) (t : FoldTable) :
    (c.closeFold t).closeFold t = c.closeFold t := by
  have hb : ((c.closeFold t).closeFold t).bytes = (c.closeFold t).bytes := by
    refine ByteSet.ext fun b => Bool.eq_iff_iff.2 ?_
    rw [contains_closeFold, contains_closeFold]
    constructor
    · rintro ⟨d, hd, hdb⟩
      obtain ⟨a, ha, had⟩ := (contains_closeFold c t d).1 hd
      refine ⟨a, ha, ?_⟩
      rcases had with rfl | had
      · exact hdb
      · rcases hdb with rfl | hdb
        · exact .inr had
        · exact .inr (had.trans hdb)
    · rintro ⟨d, hd, hdb⟩
      exact ⟨d, (contains_closeFold c t d).2 ⟨d, hd, .inl rfl⟩, hdb⟩
  generalize c.closeFold t = d at hb
  unfold closeFold at hb ⊢
  dsimp only at hb ⊢
  rw [hb]

end CharClass

namespace Node

mutual
/-- 節を過ぎると、`k` 番の捕獲の端 `b` が必ず、取り消しなしに書き換わる。`b` が真なら始まりである。 -/
def Writes : Node → Nat → Bool → Prop
  | .list nodes => WritesIn nodes
  | .loop l body => fun k b => 0 < l.lower ∧ body.Writes k b
  | .scoped _ body => body.Writes
  | .group (.capture n undo) body => fun k b => (undo = false ∧ k = n) ∨ body.Writes k b
  | .group .atomic body => body.Writes
  | .group .ahead body => body.Writes
  | .group .behind body => body.Writes
  | _ => fun _ _ => False

def WritesIn : List Node → Nat → Bool → Prop
  | [] => fun _ _ => False
  | n :: ns => fun k b => n.Writes k b ∨ WritesIn ns k b
end

/-- 取り消しのない書き換えをしない。 -/
def Silent (n : Node) : Prop := ∀ k b, ¬n.Writes k b

/-- 繰り返しの後が始まるバイト。 -/
def next? : Node → Option UInt8
  | .loop l _ => l.next
  | _ => none

mutual
/-- 命令の生成が頼る手がかりが正しい。 -/
def Ready (t : FoldTable) (options : Options) : Node → Prop
  | .list nodes => ReadyList t options nodes
  | .alt nodes => ReadyAlt t options nodes
  | .cclass c => options.contains .ignoreCase → c.closeFold t = c
  | .loop l body => (l.isFixed ∨ body.Silent) ∧ (∀ b ∈ l.head, body.headByte options = some b) ∧
      (l.upper = none → l.emptyBody = .never → 0 < body.minLength) ∧
      body.next? = none ∧ body.Ready t options
  | .scoped inner body => body.next? = none ∧ body.Ready t inner
  | .group .notAhead body => body.Silent ∧ body.next? = none ∧ body.Ready t options
  | .group .notBehind body => body.Silent ∧ body.next? = none ∧ body.Ready t options
  | .group _ body => body.next? = none ∧ body.Ready t options
  | _ => True

/-- 並びでは、繰り返しの後のバイトは、次の要素の先頭バイトである。 -/
def ReadyList (t : FoldTable) (options : Options) : List Node → Prop
  | [] => True
  | n :: ns => (∀ b ∈ n.next?, ns.head?.bind (·.headByte options) = some b) ∧
      n.Ready t options ∧ ReadyList t options ns

def ReadyAlt (t : FoldTable) (options : Options) : List Node → Prop
  | [] => True
  | n :: ns => n.Silent ∧ n.next? = none ∧ n.Ready t options ∧ ReadyAlt t options ns
end

/-- 書き換えた節の手がかりは正しく、捨てられうる所では、どの書き換えも取り消せる。 -/
structure Prepared (t : FoldTable) (options : Options) (undo : Bool) (n : Node) : Prop where
  ready : n.Ready t options
  silent : undo = true → n.Silent
  next : n.next? = none

variable {t : FoldTable} {options : Options} {undo : Bool}

/-- 空回りに備えない、上限のない繰り返しの本体は、必ず進む。 -/
theorem minLength_pos_of_emptyBodyOf {upper : Option Nat} {body : Node} (hu : upper = none)
    (h : emptyBodyOf upper body = .never) : 0 < body.minLength := by
  subst hu
  by_cases h0 : body.minLength = 0
  · cases hc : body.hasCapture <;> simp [emptyBodyOf, h0, hc] at h
  · exact Nat.pos_of_ne_zero h0

theorem Prepared.loop {l : Loop} {body : Node} (h : body.Prepared t options (undo || !l.isFixed))
    (hhead : l.head = none) (hnext : l.next = none) :
    (rebuildLoop options l body).Prepared t options undo := by
  rcases rebuildLoop_eq options l body with he | ⟨bytes, he⟩ | ⟨bytes, he⟩
  · rw [he]
    have hsilent : l.isFixed ∨ body.Silent := by
      by_cases hf : l.isFixed
      · exact .inl hf
      · exact .inr (h.silent (by simp [hf]))
    refine ⟨⟨hsilent, fun b hb => ?_, minLength_pos_of_emptyBodyOf, h.next, h.ready⟩,
      fun hu k b hw => ?_, hnext⟩
    · dsimp only at hb
      split at hb
      · exact hb
      · rw [hhead] at hb
        cases hb
    · exact h.silent (by simp [hu]) k b hw.2
  · rw [he]
    exact ⟨trivial, fun _ _ _ hw => hw, rfl⟩
  · rw [he]
    exact ⟨trivial, fun _ _ _ hw => hw, rfl⟩

theorem Prepared.notBehind {n : Node} (h : n.Prepared t options true) :
    (Node.group .notBehind n).Prepared t options undo :=
  ⟨⟨h.silent rfl, h.next, h.ready⟩, fun _ _ _ hw => hw, rfl⟩

theorem headByte_linkHeads (ns : List Node) :
    (linkHeads options ns).head?.bind (·.headByte options) =
      ns.head?.bind (·.headByte options) := by
  fun_induction linkHeads options ns with
  | case1 => rfl
  | case2 => rfl
  | case3 => rfl

theorem writesIn_linkHeads (ns : List Node) : WritesIn (linkHeads options ns) = WritesIn ns := by
  fun_induction linkHeads options ns with
  | case1 l body n ns next ih =>
    rw [WritesIn, ih]
    rfl
  | case2 n ns _ ih => simp only [WritesIn, ih]
  | case3 => rfl

/-- 次の要素の先頭バイトを書き足す。 -/
theorem readyList_linkHeads {ns : List Node} (h : ∀ n ∈ ns, n.Prepared t options undo) :
    ReadyList t options (linkHeads options ns) := by
  fun_induction linkHeads options ns with
  | case1 l body n ns next ih =>
    obtain ⟨hn, h⟩ := List.forall_mem_cons.1 h
    refine ⟨fun b hb => ?_, hn.ready, ih h⟩
    rw [headByte_linkHeads]
    change next = some b at hb
    unfold next at hb
    split at hb
    · exact hb
    · exact absurd (hn.next.symm.trans hb) (by simp)
  | case2 n ns _ ih =>
    obtain ⟨hn, h⟩ := List.forall_mem_cons.1 h
    refine ⟨fun b hb => ?_, hn.ready, ih h⟩
    rw [hn.next] at hb
    cases hb
  | case3 => trivial

theorem readyList_of_forall {ns : List Node} (h : ∀ n ∈ ns, n.Prepared t options undo) :
    ReadyList t options ns := by
  induction ns with
  | nil => trivial
  | cons n ns ih =>
    obtain ⟨hn, h⟩ := List.forall_mem_cons.1 h
    refine ⟨fun b hb => ?_, hn.ready, ih h⟩
    rw [hn.next] at hb
    cases hb

theorem readyAlt_of_forall {ns : List Node} (h : ∀ n ∈ ns, n.Prepared t options true) :
    ReadyAlt t options ns := by
  induction ns with
  | nil => trivial
  | cons n ns ih =>
    obtain ⟨hn, h⟩ := List.forall_mem_cons.1 h
    exact ⟨hn.silent rfl, hn.next, hn.ready, ih h⟩

theorem not_writesIn {ns : List Node} (h : ∀ n ∈ ns, n.Silent) (k : Nat) (b : Bool) :
    ¬WritesIn ns k b := by
  induction ns with
  | nil => exact id
  | cons n ns ih =>
    obtain ⟨hn, h⟩ := List.forall_mem_cons.1 h
    rintro (hw | hw)
    · exact hn k b hw
    · exact ih h hw

variable {env : PrepareEnv}

variable {groups : Nat} {backrefs : List Nat}

mutual
/-- 読み取ったばかりの木を書き換えると、手がかりは正しい。 -/
theorem Prepares.prepared {options : Options} {undo : Bool} {n n' : Node} (h : Prepares env options undo n n')
    (hf : ∀ t', env.fold = some t' → t' = t) (hn : n.Plain groups backrefs) : n'.Prepared t options undo :=
  match h, hn with
  | .empty, _ | .str _, _ | .raw _, _ | .word _, _ | .any, _ | .anchor _, _ | .backref _, _ =>
    ⟨trivial, fun _ _ _ hw => hw, rfl⟩
  | .cclass _ hcase, _ => ⟨fun h => absurd h hcase, fun _ _ _ hw => hw, rfl⟩
  | .closed t' c _ hfold, _ => by
    obtain rfl := hf t' hfold
    exact ⟨fun _ => CharClass.closeFold_closeFold c t', fun _ _ _ hw => hw, rfl⟩
  | .list h, hn => by
    have ih := h.prepared hf hn
    refine ⟨readyList_linkHeads ih, fun hu k b => ?_, rfl⟩
    change ¬WritesIn (linkHeads _ _) k b
    rw [writesIn_linkHeads]
    exact not_writesIn (fun n hn => (ih n hn).silent hu) k b
  | .alt h, hn => ⟨readyAlt_of_forall (h.prepared hf hn), fun _ _ _ hw => hw, rfl⟩
  | .scoped _ h, hn => by
    have ih := h.prepared hf hn
    exact ⟨⟨ih.next, ih.ready⟩, ih.silent, rfl⟩
  | .loop _ h, hn => (h.prepared hf hn.2).loop hn.1.head hn.1.next
  | .capture _ _ h, hn => by
    have ih := h.prepared hf hn.2
    refine ⟨⟨ih.next, ih.ready⟩, ?_, rfl⟩
    rintro rfl k b (⟨hu, -⟩ | hw)
    · simp at hu
    · exact ih.silent rfl k b hw
  | .ahead h, hn | .atomic h, hn | .behind _ _ h, hn => by
    have ih := h.prepared hf hn.2
    exact ⟨⟨ih.next, ih.ready⟩, ih.silent, rfl⟩
  | .notAhead h, hn => by
    have ih := h.prepared hf hn.2
    exact ⟨⟨ih.silent rfl, ih.next, ih.ready⟩, fun _ _ _ hw => hw, rfl⟩
  | .notBehind _ _ h, hn => (h.prepared hf hn.2).notBehind
  | .behindEach _ _ h, hn => by
    have ih := h.prepared hf hn.2
    refine ⟨readyAlt_of_forall (List.forall_mem_map.2 fun n hn => ?_), fun _ _ _ hw => hw, rfl⟩
    exact ⟨⟨(ih n hn).next, (ih n hn).ready⟩, (ih n hn).silent, rfl⟩
  | .notBehindEach _ _ h, hn => by
    have ih := h.prepared hf hn.2
    have hall : ∀ n ∈ List.map (Node.group .notBehind) _, n.Prepared t _ true :=
      List.forall_mem_map.2 fun n hn => (ih n hn).notBehind
    exact ⟨readyList_of_forall hall, fun _ => not_writesIn fun n hn => (hall n hn).silent rfl, rfl⟩

theorem PreparesAll.prepared {options : Options} {undo : Bool} {ns ns' : List Node}
    (h : PreparesAll env options undo ns ns') (hf : ∀ t', env.fold = some t' → t' = t)
    (hn : EveryIn Loop.Plain (GroupKind.Plain groups) (· ∈ backrefs) ns) : ∀ n' ∈ ns', n'.Prepared t options undo :=
  match h, hn with
  | .nil, _ => List.forall_mem_nil _
  | .cons h hs, hn => List.forall_mem_cons.2 ⟨h.prepared hf hn.1, hs.prepared hf hn.2⟩
end

/-- 木の全体を書き換えた後の手がかりは正しい。 -/
theorem prepared_prepare {options : Options} {n n' : Node} (hn : n.Plain groups backrefs)
    (h : n.prepare env options = .ok n') : n'.Prepared (env.fold.getD .ascii) options false := by
  refine (prepares_of_prepare h).prepared (fun t ht => ?_) hn
  rw [ht]
  rfl

end Node
end MultibyteRegex

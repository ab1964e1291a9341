import MultibyteRegex.Proofs.Comparing

/-!
# 書き換えと合い方

命令に直す前の書き換えは、節の合い方とその順を変えない。
-/

namespace MultibyteRegex

namespace Encoding

/-- 先頭バイトが求める長さを満たす一文字。 -/
def isWholeChar (e : Encoding) (c : List UInt8) : Bool := c.head?.any (e.width · == c.length)

/-- 途中で切れた文字を含まない。 -/
def isWhole (e : Encoding) (bytes : List UInt8) : Bool := (e.chars bytes).all e.isWholeChar

end Encoding

namespace Node

mutual
/-- 文字列が途中で切れず、後読みを含まず、二回以上続けられる本体が必ず進む。 -/
def isSupported (e : Encoding) : Node → Bool
  | .list nodes => allSupported e nodes
  | .alt nodes => allSupported e nodes
  | .str bytes => e.isWhole bytes
  | .loop l body => (!l.upper.all (1 < ·) || 0 < body.minLength) && body.isSupported e
  | .scoped _ body => body.isSupported e
  | .group .behind _ => false
  | .group .notBehind _ => false
  | .group _ body => body.isSupported e
  | _ => true

def allSupported (e : Encoding) : List Node → Bool
  | [] => true
  | n :: ns => n.isSupported e && allSupported e ns
end

mutual
/-- 空回りの検査も後読みもなく、名指す捕獲はどれも取り消せる。`B` は名指す番号である。 -/
def Tame (e : Encoding) (B : List Nat) : Node → Prop
  | .list nodes => AllTame e B nodes
  | .alt nodes => AllTame e B nodes
  | .str bytes => e.isWhole bytes
  | .backref n => n ∈ B
  | .loop l body =>
    l.emptyBody = .never ∧ ((∀ u ∈ l.upper, 1 < u) → 0 < body.minLength) ∧ body.Tame e B
  | .scoped _ body => body.Tame e B
  | .group (.capture n undo) body => (n ∈ B → undo = true) ∧ body.Tame e B
  | .group .behind _ => False
  | .group .notBehind _ => False
  | .group _ body => body.Tame e B
  | _ => True

def AllTame (e : Encoding) (B : List Nat) : List Node → Prop
  | [] => True
  | n :: ns => n.Tame e B ∧ AllTame e B ns
end

/-- 書き換えた `n'` は、もとの `n` と同じ合い方をする。 -/
structure Rewritten (x : Setting) (B : List Nat) (options : Options) (n n' : Node) : Prop where
  outcomes : n'.outcomes x options = n.outcomes x options
  minLength : n'.minLength = n.minLength
  tame : n'.Tame x.encoding B

end Node

/-! ## 文字列の繰り返し -/

namespace Encoding

variable {e : Encoding} {a b : List UInt8}

theorem chars_append (h : e.isWhole a) : e.chars (a ++ b) = e.chars a ++ e.chars b := by
  fun_induction chars e a with
  | case1 => rfl
  | case2 c rest ih =>
    rw [isWhole, chars, List.all_cons, Bool.and_eq_true] at h
    obtain ⟨hc, h⟩ := h
    have hlen : e.width c - 1 ≤ rest.length := by
      have hw := e.width_pos c
      simp only [isWholeChar, takeChar, List.head?_cons, Option.any_some, beq_iff_eq,
        List.length_cons, List.length_take] at hc
      omega
    have hd := ih h
    simp only [takeChar] at hd ⊢
    rw [List.cons_append, chars, takeChar, List.take_append_of_le_length hlen,
      List.drop_append_of_le_length hlen, hd, List.cons_append]

theorem isWhole_append (ha : e.isWhole a) (hb : e.isWhole b) : e.isWhole (a ++ b) := by
  unfold isWhole
  rw [chars_append ha, List.all_append, Bool.and_eq_true]
  exact ⟨ha, hb⟩

theorem isWhole_replicate (h : e.isWhole a) (k : Nat) : e.isWhole (List.replicate k a).flatten := by
  induction k with
  | zero => simp [isWhole, chars]
  | succ k ih =>
    rw [List.replicate_succ, List.flatten_cons]
    exact isWhole_append h ih

end Encoding

namespace Node

variable {x : Setting} {B : List Nat} {options : Options} {bytes : List UInt8}

/-- 切れない文字列を続けるのは、つないだ文字列に合うのと同じである。 -/
theorem times_str (h : x.encoding.isWhole bytes) (k : Nat) (o : Outcome) :
    times ((Node.str bytes).outcomes x options) k o =
      (Node.str (List.replicate k bytes).flatten).outcomes x options o := by
  induction k generalizing o with
  | zero => simp [times, outcomes, leafEnd?, Encoding.chars, Setting.charsEnd?, Outcome.moveTo]
  | succ k ih =>
    rw [times, flatMap_congr fun o' _ => ih o']
    simp only [outcomes, leafEnd?, List.replicate_succ, List.flatten_cons, Encoding.chars_append h,
      Setting.charsEnd?_append]
    cases x.charsEnd? (options.contains .ignoreCase) (x.encoding.chars bytes) o.pos with
    | none => rfl
    | some t => simp [Outcome.moveTo]

theorem times_raw (k : Nat) (o : Outcome) : times ((Node.raw bytes).outcomes x options) k o =
    (Node.raw (List.replicate k bytes).flatten).outcomes x options o := by
  induction k generalizing o with
  | zero => simp [times, outcomes, leafEnd?, Setting.charsEnd?, Outcome.moveTo]
  | succ k ih =>
    rw [times, flatMap_congr fun o' _ => ih o']
    simp only [outcomes, leafEnd?, List.replicate_succ, List.flatten_cons, List.map_append,
      Setting.charsEnd?_append]
    cases x.charsEnd? false (bytes.map ([·])) o.pos with
    | none => rfl
    | some t => simp [Outcome.moveTo]

/-- 回数の決まった繰り返しは、ちょうどその回数だけ続ける。 -/
theorem outcomes_fixed {l : Loop} {size : Nat} {f : Outcome → List Outcome} (h : l.isFixed) :
    l.outcomes size f = times f l.lower := by
  have hu : l.upper = some l.lower := by simpa [Loop.isFixed] using h
  funext o
  have hstay : upTo l.greedy f 0 = fun o => [o] := by
    funext o
    rfl
  simp [Loop.outcomes, hu, hstay]

/-! ## 部品ごとの書き換え -/

/-- 本体を書き換えた後で繰り返しを付け直しても、同じ合い方をする。 -/
theorem Rewritten.loop {l : Loop} {body body' : Node} (h : Rewritten x B options body body')
    (hp : (∀ u ∈ l.upper, 1 < u) → 0 < body.minLength) :
    Rewritten x B options (.loop l body) (rebuildLoop options l body') := by
  have hout : l.outcomes x.text.size (body'.outcomes x options) =
      l.outcomes x.text.size (body.outcomes x options) := by rw [h.outcomes]
  have hnever : emptyBodyOf l.upper body' = .never := by
    unfold emptyBodyOf
    split
    · rename_i hc
      simp only [Bool.and_eq_true, beq_iff_eq, h.minLength] at hc
      have hpos := hp fun u hu => by
        have := hc.1
        rw [hu] at this
        simpa using this
      omega
    · rfl
  have hnode : Rewritten x B options (.loop l body) (.loop { l with
      emptyBody := emptyBodyOf l.upper body'
      head := if l.greedy && l.isInfinite then body'.headByte options else l.head } body') :=
    ⟨hout, by simp only [Node.minLength, h.minLength], hnever, fun hu => h.minLength ▸ hp hu, h.tame⟩
  have hmerge : ∀ bytes : List UInt8, bytes.length * l.lower ≤ maxUnrolledLiteral →
      (List.replicate l.lower bytes).flatten.length = satMul bytes.length l.lower := by
    intro bytes hle
    have : maxUnrolledLiteral ≤ maxSize := by decide
    simp only [List.length_flatten, List.map_replicate, List.sum_replicate_nat, satMul]
    rw [Nat.mul_comm l.lower]
    omega
  unfold rebuildLoop
  dsimp only
  split
  · rename_i hc
    simp only [Bool.and_eq_true, decide_eq_true_eq] at hc
    split
    · rename_i bytes
      split
      · rename_i hle
        refine ⟨?_, ?_, Encoding.isWhole_replicate h.tame l.lower⟩
        · funext o
          rw [← times_str h.tame, h.outcomes, Node.outcomes, outcomes_fixed hc.1]
        · simp only [Node.minLength, ← h.minLength]
          exact hmerge bytes hle
      · exact hnode
    · rename_i bytes
      split
      · rename_i hle
        refine ⟨?_, ?_, trivial⟩
        · funext o
          rw [← times_raw, h.outcomes, Node.outcomes, outcomes_fixed hc.1]
        · simp only [Node.minLength, ← h.minLength]
          exact hmerge bytes hle
      · exact hnode
    · exact hnode
  · exact hnode

/-- 次の要素の先頭バイトを書き足しても、並びの合い方は変わらない。 -/
theorem linkHeads_eq (ns : List Node) :
    outcomesList x options (linkHeads options ns) = outcomesList x options ns ∧
    sumMinLength (linkHeads options ns) = sumMinLength ns ∧
    (AllTame x.encoding B ns → AllTame x.encoding B (linkHeads options ns)) := by
  fun_induction linkHeads options ns with
  | case1 l body n ns next ih =>
    obtain ⟨ho, hm, ht⟩ := ih
    refine ⟨?_, ?_, fun h => ⟨h.1, ht h.2⟩⟩
    · funext o
      simp only [outcomesList] at ho ⊢
      rw [ho]
      rfl
    · rw [sumMinLength, hm]
      rfl
  | case2 n ns _ ih =>
    obtain ⟨ho, hm, ht⟩ := ih
    exact ⟨by simp only [outcomesList, ho], by simp only [sumMinLength, hm], fun h => ⟨h.1, ht h.2⟩⟩
  | case3 => exact ⟨rfl, rfl, id⟩

end Node

/-! ## 木の全体 -/

namespace Node

variable {x : Setting} {env : PrepareEnv}

/-- 並びの要素が、順に一つずつ書き換わる。 -/
def RewrittenAll (x : Setting) (B : List Nat) (options : Options) : List Node → List Node → Prop
  | [], [] => True
  | n :: ns, n' :: ns' => Rewritten x B options n n' ∧ RewrittenAll x B options ns ns'
  | _, _ => False

namespace RewrittenAll

variable {B : List Nat} {options : Options}

theorem tame : {ns ns' : List Node} → RewrittenAll x B options ns ns' → AllTame x.encoding B ns'
  | [], [], _ => trivial
  | _ :: _, _ :: _, h => ⟨h.1.tame, tame h.2⟩

theorem outcomesList : {ns ns' : List Node} → RewrittenAll x B options ns ns' →
    Node.outcomesList x options ns' = Node.outcomesList x options ns
  | [], [], _ => rfl
  | _ :: _, _ :: _, h => by simp only [Node.outcomesList, h.1.outcomes, outcomesList h.2]

theorem outcomesAlt : {ns ns' : List Node} → RewrittenAll x B options ns ns' →
    Node.outcomesAlt x options ns' = Node.outcomesAlt x options ns
  | [], [], _ => rfl
  | [_], [_], h => h.1.outcomes
  | _ :: _ :: _, _ :: _ :: _, h => by
    have := outcomesAlt h.2
    simp only [Node.outcomesAlt, h.1.outcomes] at this ⊢
    rw [this]

theorem sumMinLength : {ns ns' : List Node} → RewrittenAll x B options ns ns' →
    Node.sumMinLength ns' = Node.sumMinLength ns
  | [], [], _ => rfl
  | _ :: _, _ :: _, h => by simp only [Node.sumMinLength, h.1.minLength, sumMinLength h.2]

theorem leastMinLength : {ns ns' : List Node} → RewrittenAll x B options ns ns' →
    Node.leastMinLength ns' = Node.leastMinLength ns
  | [], [], _ => rfl
  | [_], [_], h => h.1.minLength
  | _ :: _ :: _, _ :: _ :: _, h => by
    have := leastMinLength h.2
    simp only [Node.leastMinLength, h.1.minLength] at this ⊢
    rw [this]

end RewrittenAll

variable {groups : Nat}

mutual
/-- 書き換えは、合い方とその順を変えない。 -/
theorem Prepares.rewritten {options : Options} {undo : Bool} {n n' : Node} (h : Prepares env options undo n n')
    (hf : ∀ t, env.fold = some t → x.fold = t) (hn : n.Plain groups env.backrefs) (hs : n.isSupported x.encoding) :
    Rewritten x env.backrefs options n n' :=
  match h, hn, hs with
  | .empty, _, _ | .raw _, _, _ | .word _, _, _ | .any, _, _ | .anchor _, _, _ | .cclass .., _, _ =>
    ⟨rfl, rfl, trivial⟩
  | .str _, _, hs => ⟨rfl, rfl, hs⟩
  | .backref _, hn, _ => ⟨rfl, rfl, hn⟩
  | .closed t c hcase hfold, _, _ => by
    refine ⟨?_, by rw [minLength, minLength], trivial⟩
    funext o
    simp [outcomes, leafEnd?, Setting.classEnd?_eq, hcase, hf t hfold, CharClass.closeFold_closeFold]
  | .list h, hn, hs => by
    have ih := h.rewritten hf hn hs
    obtain ⟨ho, hm, ht⟩ := @linkHeads_eq x env.backrefs options _
    exact ⟨ho.trans ih.outcomesList, hm.trans ih.sumMinLength, ht ih.tame⟩
  | .alt h, hn, hs => by
    have ih := h.rewritten hf hn hs
    exact ⟨ih.outcomesAlt, ih.leastMinLength, ih.tame⟩
  | .scoped _ h, hn, hs => by
    have ih := h.rewritten hf hn hs
    exact ⟨ih.outcomes, ih.minLength, ih.tame⟩
  | .loop l h, hn, hs => by
    simp only [isSupported, Bool.and_eq_true, Bool.or_eq_true, Bool.not_eq_true',
      decide_eq_true_eq] at hs
    refine (h.rewritten hf hn.2 hs.2).loop fun hu => ?_
    rcases hs.1 with hall | hpos
    · cases hup : l.upper with
      | none => simp [hup] at hall
      | some u =>
        have := hu u hup
        simp [hup] at hall
        omega
    · exact hpos
  | .capture _ _ h, hn, hs => by
    have ih := h.rewritten hf hn.2 hs
    exact ⟨by simp only [outcomes, ih.outcomes], ih.minLength, fun hmem => by simp [hmem], ih.tame⟩
  | .ahead h, hn, hs | .notAhead h, hn, hs => by
    have ih := h.rewritten hf hn.2 hs
    exact ⟨by simp only [outcomes, ih.outcomes], rfl, ih.tame⟩
  | .atomic h, hn, hs => by
    have ih := h.rewritten hf hn.2 hs
    exact ⟨by simp only [outcomes, ih.outcomes], ih.minLength, ih.tame⟩
  | .behind .., _, hs | .notBehind .., _, hs
  | .behindEach .., _, hs | .notBehindEach .., _, hs => by cases hs

theorem PreparesAll.rewritten {options : Options} {undo : Bool} {ns ns' : List Node}
    (h : PreparesAll env options undo ns ns') (hf : ∀ t, env.fold = some t → x.fold = t)
    (hn : EveryIn Loop.Plain (GroupKind.Plain groups) (· ∈ env.backrefs) ns) (hs : allSupported x.encoding ns) :
    RewrittenAll x env.backrefs options ns ns' :=
  match h, hn, hs with
  | .nil, _, _ => trivial
  | .cons h hs, hn, hsupported => by
    simp only [allSupported, Bool.and_eq_true] at hsupported
    exact ⟨h.rewritten hf hn.1 hsupported.1, hs.rewritten hf hn.2 hsupported.2⟩
end

theorem rewritten_prepareAt (hf : ∀ t, env.fold = some t → x.fold = t) (n : Node) {options : Options} {undo : Bool}
    {n' : Node} (hn : n.Plain groups env.backrefs) (hs : n.isSupported x.encoding)
    (h : n.prepareAt env options undo = .ok n') : Rewritten x env.backrefs options n n' :=
  (prepares_of_prepareAt n h).rewritten hf hn hs

end Node
end MultibyteRegex

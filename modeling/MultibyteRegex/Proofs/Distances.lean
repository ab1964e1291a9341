import MultibyteRegex.Proofs.Intervals
import MultibyteRegex.Proofs.Joining
import MultibyteRegex.Proofs.Planning

/-!
# 手がかりの文字列までの距離

どの手がかりの文字列も、節の長さの下端より先には始まらない。長さも距離も頭打ちになりうるが、同じ所で止まるので、
頭打ちになっても、この順は崩れない。
-/

namespace MultibyteRegex

/-! ## 文字列 -/

namespace Key

variable {k a b : Key} {n n' : Nat}

/-- 始まりの下端が `n` も 64 ビットも越えない。 -/
def Within (n : Nat) (k : Key) : Prop := k.distance.min ≤ n ∧ k.distance.min ≤ maxSize

theorem Within.mono (h : k.Within n) (hn : min n maxSize ≤ n') : k.Within n' := by
  have := h.1
  have := h.2
  exact ⟨by omega, h.2⟩

/-- 前に長さ `pos` のものが並ぶと、始まりも長さも同じだけ増える。 -/
theorem Within.shift (h : k.Within n) (pos : Interval) : (k.shift pos).Within (satAdd pos.min n) := by
  have := h.1
  simp only [Within, Key.shift, Interval.add, satAdd]
  omega

theorem distance_clip (k : Key) (e : Encoding) (limit : Nat) : (k.clip e limit).distance = k.distance := by
  unfold clip
  dsimp only
  split <;> rfl

theorem Within.clip (h : k.Within n) (e : Encoding) (limit : Nat) : (k.clip e limit).Within n := by
  rwa [Within, distance_clip]

theorem Within.concat (h : a.Within n) (b : Key) (e : Encoding) : (a.concat b e).Within n := by
  rw [Key.concat, Within, distance_clip]
  exact h

theorem within_zero (h : k.distance = .zero) : k.Within n := by
  simp [Within, h, Interval.zero, Interval.fixed]

end Key

/-! ## 節 -/

namespace Facts

variable {f g : Facts} {e : Encoding}

/-- 長さは逆転せず、どの文字列もその下端より先には始まらない。 -/
structure Placed (f : Facts) : Prop where
  ordered : f.length.Ordered
  leading : ∀ k ∈ f.leading, k.Within f.length.min
  best : ∀ k ∈ f.best, k.Within f.length.min
  trailing : ∀ k ∈ f.trailing, k.Within f.length.min

namespace Placed

theorem of_none (hordered : f.length.Ordered) (hleading : f.leading = none) (hbest : f.best = none)
    (htrailing : f.trailing = none) : f.Placed := by
  refine ⟨hordered, ?_, ?_, ?_⟩ <;> simp [hleading, hbest, htrailing]

theorem empty : Placed {} := .of_none (by simp [Interval.Ordered, Interval.zero, Interval.fixed]) rfl rfl rfl

end Placed

/-! ### 並び -/

/-- 途中までの文字列は、どれも `n` より先には始まらない。 -/
structure Running.Within (n : Nat) (r : Running) : Prop where
  leading : ∀ k ∈ r.facts.leading, k.Within n
  opened : ∀ k ∈ r.open_, k.Within n
  kept : ∀ k ∈ r.best, k.Within n

namespace Running

variable {r : Running} {n n' : Nat} {k : Key} {leading trailing o : Option Key}

namespace Within

theorem mono (h : r.Within n) (hn : min n maxSize ≤ n') : r.Within n' :=
  ⟨fun k hk => (h.leading k hk).mono hn, fun k hk => (h.opened k hk).mono hn, fun k hk => (h.kept k hk).mono hn⟩

theorem reopen (h : r.Within n) (ho : ∀ k ∈ o, k.Within n) : Running.Within n { r with open_ := o } :=
  ⟨h.leading, ho, h.kept⟩

theorem finish (h : r.Within n) (hk : k.Within n) : (r.finish k).Within n := by
  refine ⟨fun k' hk' => ?_, h.opened, fun k' hk' => ?_⟩
  · dsimp only [Running.finish] at hk'
    split at hk'
    · cases hk'
      exact hk
    · exact h.leading k' hk'
  · rcases Key.eq_or_eq_of_better hk' with hb | hb
    · exact h.kept k' hb
    · cases hb
      exact hk

theorem finish? (h : r.Within n) (ho : ∀ k ∈ o, k.Within n) : (r.finish? o).Within n := by
  cases o with
  | none => exact h
  | some k => exact h.finish (ho k rfl)

theorem switch (h : r.Within n) (hlead : ∀ k ∈ leading, k.Within n) (htrail : ∀ k ∈ trailing, k.Within n) :
    (r.switch leading trailing).Within n := by
  unfold Running.switch
  split
  · rename_i k
    split
    · exact h.reopen hlead
    · exact (h.finish (hlead k rfl)).reopen htrail
  · exact h.reopen htrail

theorem extend (h : r.Within n) (hlead : ∀ k ∈ leading, k.Within n) (htrail : ∀ k ∈ trailing, k.Within n) :
    (r.extend e leading trailing).Within n := by
  rw [extend_eq]
  split
  · rename_i a b ha
    have hconcat := (h.opened a ha).concat b e
    split
    · split
      · exact h.reopen (by simpa using hconcat)
      · exact (h.finish hconcat).reopen htrail
    · exact (h.finish (h.opened a ha)).switch hlead htrail
  · exact (h.finish? h.opened).switch hlead htrail

end Within

/-- 読み終えた所までの長さは逆転せず、途中までの文字列はその下端より先には始まらない。 -/
structure Placed (r : Running) : Prop where
  ordered : r.facts.length.Ordered
  within : r.Within r.facts.length.min
  trailing : r.facts.trailing = none

/-- 要素を一つ読むと、長さも始まりも同じだけ増える。 -/
theorem Placed.add (h : r.Placed) (hf : f.Placed) : (Running.add e r f).Placed := by
  have hgrow : (r.Within (satAdd r.facts.length.min f.length.min)) :=
    h.within.mono (by simp only [satAdd]; omega)
  have hshift {x : Option Key} (hx : ∀ k ∈ x, k.Within f.length.min) :
      ∀ k ∈ x.map (·.shift r.facts.length), k.Within (satAdd r.facts.length.min f.length.min) := by
    intro k hk
    obtain ⟨k', hk', rfl⟩ := Option.map_eq_some_iff.1 hk
    exact (hx k' hk').shift _
  have hread : Running.Within (satAdd r.facts.length.min f.length.min) { r with
      facts := { r.facts with
        left := if r.atStart then r.facts.left.union f.left else r.facts.left
        first := if r.atStart ∧ r.facts.first.isNone ∧ r.facts.length.isZero then f.first else r.facts.first
        right := if f.length.isZero then r.facts.right.union f.right else f.right }
      atStart := r.atStart && f.length.isZero
      best := Key.better r.best (f.best.map (·.shift r.facts.length)) } := by
    refine ⟨hgrow.leading, hgrow.opened, fun k hk => ?_⟩
    rcases Key.eq_or_eq_of_better hk with hk | hk
    · exact hgrow.kept k hk
    · exact hshift hf.best k hk
  unfold Running.add
  dsimp only
  split
  · rename_i hzero
    -- 幅のない要素は長さを変えない。逆転しないので、下端も零である。
    have hmin : f.length.min = 0 := by
      have hmax : f.length.max = some 0 := by simpa [Interval.isZero] using hzero.1
      exact Nat.le_zero.1 (hf.ordered 0 hmax)
    rw [hmin] at hread
    exact ⟨h.ordered, hread.mono (by simp only [satAdd]; omega), h.trailing⟩
  · have hext := hread.extend (e := e) (hshift hf.leading) (hshift hf.trailing)
    obtain ⟨k, hfacts⟩ := extend_facts _ e (f.leading.map (·.shift r.facts.length))
      (f.trailing.map (·.shift r.facts.length))
    exact ⟨h.ordered.add hf.ordered, ⟨hext.leading, hext.opened, hext.kept⟩,
      (congrArg Facts.trailing hfacts).trans h.trailing⟩

theorem Placed.done (h : r.Placed) : r.done.Placed := by
  unfold Running.done
  split
  · exact ⟨h.ordered, h.within.leading, h.within.kept, by simp [h.trailing]⟩
  · rename_i k hk
    have hk := h.within.opened k hk
    refine ⟨h.ordered, fun k' hk' => ?_, fun k' hk' => ?_, fun k' hk' => ?_⟩
    · dsimp only at hk'
      split at hk'
      · cases hk'
        exact hk
      · exact h.within.leading k' hk'
    · rcases Key.eq_or_eq_of_better hk' with hb | hb
      · exact h.within.kept k' hb
      · cases hb
        exact hk
    · cases hk'
      exact hk

end Running

theorem placed_seq {fs : List Facts} (h : ∀ f ∈ fs, f.Placed) : (seq e fs).Placed := by
  have hfold : ∀ {r : Running}, r.Placed → (fs.foldl (Running.add e) r).Placed := by
    induction fs with
    | nil => exact id
    | cons f fs ih =>
      obtain ⟨hf, hfs⟩ := List.forall_mem_cons.1 h
      exact fun hr => ih hfs (hr.add hf)
  exact (hfold ⟨Placed.empty.ordered, ⟨by simp, by simp, by simp⟩, rfl⟩).done

/-! ### 選択 -/

theorem distance_commonKey {a b : Option Key} : ∀ k ∈ commonKey a b, k.distance = .zero := by
  intro k hk
  unfold commonKey at hk
  split at hk
  · dsimp only at hk
    split at hk
    · cases hk
    · split at hk <;> cases hk
      rfl
  · cases hk

theorem placed_alt {fs : List Facts} (h : ∀ f ∈ fs, f.Placed) : (alt e fs).Placed := by
  cases fs with
  | nil => exact .empty
  | cons f fs =>
    have hf := (List.forall_mem_cons.1 h).1
    have hall : ∀ {acc : Facts}, acc.Placed → (fs.foldl either acc).Placed := by
      clear h
      induction fs with
      | nil => exact id
      | cons g fs ih =>
        intro acc hacc
        exact ih ⟨hacc.ordered.hull g.length, fun k hk => Key.within_zero (distance_commonKey k hk),
          by simp [either], by simp [either]⟩
    have hall : (fs.foldl either { f with best := none, trailing := none }).Placed :=
      hall ⟨hf.ordered, hf.leading, by simp, by simp⟩
    have hlead : ∀ k ∈ (Facts.alt e (f :: fs)).leading, k.Within (Facts.alt e (f :: fs)).length.min := by
      intro k hk
      obtain ⟨k', hk', rfl⟩ := Option.map_eq_some_iff.1 (Option.filter_eq_some_iff.1 hk).1
      exact (hall.leading k' hk').clip e _
    exact ⟨hall.ordered, hlead, hlead, fun k hk => hlead k (Option.filter_eq_some_iff.1 hk).1⟩

/-! ### 節 -/

theorem placed_ofLiteral (fold : Option FoldTable) (ignoreCase : Bool) (bytes : List UInt8) :
    (ofLiteral e fold ignoreCase bytes).Placed := by
  have hordered : ∀ n, (Interval.fixed n).Ordered := fun n => by simp [Interval.Ordered, Interval.fixed]
  have hkey (w : List UInt8) (folded : Bool) (n : Nat) : (Key.clip ⟨.zero, w, folded, true⟩ e maxKeyLength).Within n :=
    (Key.within_zero rfl).clip e _
  unfold ofLiteral
  dsimp only
  repeat' split
  all_goals first
    | exact .of_none (hordered _) rfl rfl rfl
    | exact ⟨hordered _, by simpa using hkey _ _ _, by simpa using hkey _ _ _, by simpa using hkey _ _ _⟩

theorem placed_ofChar (set : ByteSet) : (ofChar e set).Placed := by
  refine .of_none ?_ rfl rfl rfl
  have hpos : 1 ≤ e.maxWidth := by cases e <;> decide
  simpa [Interval.Ordered, ofChar] using hpos

theorem placed_loop (options : Options) {l : Loop} (hl : l.Ordered) (isAny : Bool) (h : f.Placed) :
    (loop options l isAny f).Placed := by
  unfold loop
  dsimp only
  split
  · exact ⟨h.ordered, h.leading, h.best, h.trailing⟩
  · split
    · rename_i hone
      -- 一回でも回れば、長さの下端は本体の下端より短くならない。
      have hgrow : min f.length.min maxSize ≤ (f.length.times l.lower l.upper).min := by
        have := Nat.le_mul_of_pos_right f.length.min hone.1
        simp only [Interval.times, satMul]
        omega
      refine ⟨h.ordered.times hl, fun k hk => ?_, fun k hk => (h.best k hk).mono hgrow, by simp⟩
      obtain ⟨k', hk', rfl⟩ := Option.map_eq_some_iff.1 hk
      exact (h.leading k' hk').mono hgrow
    · exact .of_none (h.ordered.times hl) rfl rfl rfl

end Facts

namespace Node

mutual
/-- 繰り返しの下限が上限を越えない節では、どの手がかりの文字列も長さの下端より先には始まらない。 -/
theorem facts_placed (e : Encoding) (fold : Option FoldTable) {groups : Nat} : (n : Node) → (options : Options) →
    n.WellFormed groups → (Facts.ofNode e fold options n).Placed
  | .empty, _, _ => .empty
  | .list ns, options, h => Facts.placed_seq (factsIn_placed e fold ns options h)
  | .alt ns, options, h => Facts.placed_alt (factsIn_placed e fold ns options h)
  | .str bytes, _, _ => Facts.placed_ofLiteral fold _ bytes
  | .raw bytes, _, _ => Facts.placed_ofLiteral fold false bytes
  | .cclass _, _, _ | .word _, _, _ | .any, _, _ => Facts.placed_ofChar _
  | .anchor a, options, _ => by
    have hzero : Interval.zero.Ordered := Facts.Placed.empty.ordered
    cases a <;> simp only [Facts.ofNode, Facts.ofAnchor] <;> (try split) <;> exact .of_none hzero rfl rfl rfl
  | .backref _, _, _ => .of_none (by simp [Facts.ofNode, Interval.Ordered]) rfl rfl rfl
  | .scoped inner body, _, h => facts_placed e fold body inner h
  | .loop l body, options, h => by
    obtain ⟨isAny, hloop⟩ := facts_loop e fold options l body
    rw [hloop]
    exact Facts.placed_loop options h.1 isAny (facts_placed e fold body options h.2)
  | .group kind body, options, h => by
    cases kind with
    | capture n undo => exact facts_placed e fold body options h.2
    | atomic => exact facts_placed e fold body options h.2
    | _ => exact .empty

theorem factsIn_placed (e : Encoding) (fold : Option FoldTable) {groups : Nat} : (ns : List Node) →
    (options : Options) → AllWellFormed groups ns → ∀ f ∈ Facts.ofNodes e fold options ns, f.Placed
  | [], _, _ => by simp [Facts.ofNodes]
  | n :: ns, options, h =>
    List.forall_mem_cons.2 ⟨facts_placed e fold n options h.1, factsIn_placed e fold ns options h.2⟩
end

end Node

/-! ## 手順 -/

namespace Plan

/-- 探すものは、照合の長さの下限より先にはなく、飛ばしながら探す文字列は空でない。 -/
structure Placed (p : Plan) : Prop where
  distance : p.distance.min ≤ p.threshold
  leaping : ∀ key, p.finder = .leaping key → key ≠ []

theorem placed_ofHints (e : Encoding) {h : Hints} (hkey : ∀ k ∈ h.key, k.distance.min ≤ h.threshold) :
    (ofHints e h).Placed := by
  unfold ofHints
  dsimp only
  split
  · rename_i _ k hk
    refine ⟨hkey k hk, fun key hf => ?_⟩
    simp only [finderOf] at hf
    split at hf
    · cases hf
    · split at hf
      · rename_i hlength
        rintro rfl
        have hpos : 0 < leapLength e := by unfold leapLength; split <;> decide
        rw [Finder.leaping.inj hf] at hlength
        exact absurd hlength (Nat.not_le_of_lt hpos)
      · cases hf
  · exact ⟨Nat.zero_le _, by simp⟩
  · exact ⟨Nat.zero_le _, by simp⟩

end Plan

/-- 翻訳したどのパターンの手順でも、探すものは、照合の長さの下限より先にはない。 -/
theorem Regex.placed_plan {s : Source} {re : Regex} (h : Regex.compile s = .ok re) : re.plan.Placed := by
  obtain ⟨parsed, root, hparse, hprepare, -, hplan⟩ := compile_eq_ok h
  have hw : root.WellFormed parsed.groups :=
    Node.wellFormed_prepare (Pattern.plain_parse hparse).wellFormed hprepare
  have hplaced := Node.facts_placed s.encoding s.fold root s.options hw
  obtain ⟨edges, key, first, htree, -, -, hkey, -⟩ := Hints.ofTree_eq s.encoding s.fold s.options root
  rw [hplan, htree]
  exact Plan.placed_ofHints s.encoding fun k hk => (hplaced.best k (hkey k hk)).1

end MultibyteRegex

import MultibyteRegex.Proofs.Reading
import MultibyteRegex.Search.Hints

/-!
# 長さと両端の手がかりの正しさ

手がかりが言う長さの区間、両端の検査、始まりのバイトは、節が合うどの範囲でも成り立つ。並びでは、読んだ
ところまでの範囲について同じことが保たれる。
-/

namespace MultibyteRegex

namespace Interval

/-- `n` が区間に入る。 -/
def Contains (i : Interval) (n : Nat) : Prop := i.min ≤ n ∧ ∀ u ∈ i.max, n ≤ u

variable {a b : Interval} {x y k : Nat}

theorem contains_fixed : (fixed x).Contains x := ⟨Nat.le_refl _, by simp [fixed]⟩

theorem contains_unknown : unknown.Contains x := ⟨Nat.zero_le _, by simp [unknown]⟩

theorem contains_zero : zero.Contains 0 := contains_fixed

theorem eq_of_bounded? {n u : Nat} (h : bounded? n = some u) : u = n := by
  simp only [bounded?, Option.ite_none_right_eq_some, Option.some.injEq] at h
  exact h.2.symm

namespace Contains

theorem eq_zero (h : a.Contains x) (hz : a.isZero) : x = 0 := by
  have := h.2 0 (by simpa [isZero] using hz)
  omega

/-- 下端は頭打ちになっても下端のままで、上端は越えれば消える。 -/
theorem add (ha : a.Contains x) (hb : b.Contains y) : (a.add b).Contains (x + y) := by
  have := ha.1
  have := hb.1
  refine ⟨by simp only [Interval.add, satAdd]; omega, fun u hu => ?_⟩
  simp only [Interval.add] at hu
  split at hu
  · rename_i ua ub hua hub
    have := ha.2 ua hua
    have := hb.2 ub hub
    have := eq_of_bounded? hu
    omega
  · cases hu

theorem hull_left (h : a.Contains x) : (a.hull b).Contains x := by
  have := h.1
  refine ⟨by simp only [Interval.hull]; omega, fun u hu => ?_⟩
  simp only [Interval.hull] at hu
  split at hu
  · rename_i ua ub hua hub
    have := h.2 ua hua
    cases hu
    omega
  · cases hu

theorem hull_right (h : b.Contains x) : (a.hull b).Contains x := by
  have := h.1
  refine ⟨by simp only [Interval.hull]; omega, fun u hu => ?_⟩
  simp only [Interval.hull] at hu
  split at hu
  · rename_i ua ub hua hub
    have := h.2 ub hub
    cases hu
    omega
  · cases hu

end Contains

/-- 区間に入る `k` 個の和が `x` になる。 -/
structure Totals (a : Interval) (k x : Nat) : Prop where
  zero : k = 0 → x = 0
  min : a.min * k ≤ x
  max : ∀ u ∈ a.max, x ≤ u * k

namespace Totals

theorem nil : a.Totals 0 0 := ⟨fun _ => rfl, by simp, by simp⟩

theorem cons (hx : a.Contains x) (h : a.Totals k y) : a.Totals (k + 1) (x + y) := by
  have := hx.1
  have := h.min
  refine ⟨by simp, by rw [Nat.mul_succ]; omega, fun u hu => ?_⟩
  have := hx.2 u hu
  have := h.max u hu
  rw [Nat.mul_succ]
  omega

/-- `lower` 個から `upper` 個までの和は、掛けた区間に入る。 -/
theorem times {lower : Nat} {upper : Option Nat} (h : a.Totals k x) (hl : lower ≤ k)
    (hu : ∀ u ∈ upper, k ≤ u) : (a.times lower upper).Contains x := by
  have := h.min
  have hlow := Nat.mul_le_mul_left a.min hl
  refine ⟨by simp only [Interval.times, satMul]; omega, fun u hs => ?_⟩
  simp only [Interval.times] at hs
  split at hs
  · rename_i h0
    have := h.max 0 h0
    omega
  · have := h.zero (Nat.le_zero.1 (hu 0 rfl))
    omega
  · rename_i v n _ _ hv
    have := h.max v hv
    have := Nat.mul_le_mul_left v (hu n rfl)
    have := eq_of_bounded? hs
    omega
  · cases hs

end Totals
end Interval

/-! ## 両端の検査 -/

namespace Edges

/-- 始まりの検査が `s` で成り立つ。 -/
structure Begin (e : Edges) (m : Matcher) (s : Nat) : Prop where
  buf : e.beginBuf → s = 0
  position : e.beginPosition → s = m.searchStart

/-- 終わりの検査が `t` で成り立つ。 -/
structure End (e : Edges) (m : Matcher) (t : Nat) : Prop where
  buf : e.endBuf → t = m.text.size
  semiBuf : e.semiEndBuf → t = m.text.size ∨ t + 1 = m.text.size ∧ m.text[t]? = some 0x0a

variable {a b : Edges} {m : Matcher} {s t : Nat}

theorem Begin.none : Begin {} m s := ⟨by simp, by simp⟩

theorem End.none : End {} m t := ⟨by simp, by simp⟩

theorem Begin.union (ha : a.Begin m s) (hb : b.Begin m s) : (a.union b).Begin m s :=
  ⟨fun h => (Bool.or_eq_true_iff.1 h).elim ha.buf hb.buf,
    fun h => (Bool.or_eq_true_iff.1 h).elim ha.position hb.position⟩

theorem End.union (ha : a.End m t) (hb : b.End m t) : (a.union b).End m t :=
  ⟨fun h => (Bool.or_eq_true_iff.1 h).elim ha.buf hb.buf,
    fun h => (Bool.or_eq_true_iff.1 h).elim ha.semiBuf hb.semiBuf⟩

theorem Begin.inter_left (h : a.Begin m s) : (a.inter b).Begin m s :=
  ⟨fun hab => h.buf (Bool.and_eq_true_iff.1 hab).1, fun hab => h.position (Bool.and_eq_true_iff.1 hab).1⟩

theorem Begin.inter_right (h : b.Begin m s) : (a.inter b).Begin m s :=
  ⟨fun hab => h.buf (Bool.and_eq_true_iff.1 hab).2, fun hab => h.position (Bool.and_eq_true_iff.1 hab).2⟩

theorem End.inter_left (h : a.End m t) : (a.inter b).End m t :=
  ⟨fun hab => h.buf (Bool.and_eq_true_iff.1 hab).1, fun hab => h.semiBuf (Bool.and_eq_true_iff.1 hab).1⟩

theorem End.inter_right (h : b.End m t) : (a.inter b).End m t :=
  ⟨fun hab => h.buf (Bool.and_eq_true_iff.1 hab).2, fun hab => h.semiBuf (Bool.and_eq_true_iff.1 hab).2⟩

end Edges

namespace Facts

/-- 長さ、両端の検査、始まりのバイトが、`s` から `t` までの範囲で成り立つ。 -/
structure Bounds (f : Facts) (m : Matcher) (s t : Nat) : Prop where
  length : f.length.Contains (t - s)
  left : f.left.Begin m s
  right : f.right.End m t
  first : ∀ set ∈ f.first, m.encoding.StartsIn m.text set s

variable {m : Matcher} {s t u : Nat} {f g : Facts}

theorem Bounds.empty : Bounds {} m s s :=
  ⟨by simpa using Interval.contains_zero, .none, .none, by simp⟩

theorem Bounds.withLeft (h : f.Bounds m s t) {left : Edges} (hl : left.Begin m s) :
    Bounds { f with left } m s t :=
  ⟨h.length, hl, h.right, h.first⟩

theorem Bounds.withRight (h : f.Bounds m s t) {right : Edges} (hr : right.End m t) :
    Bounds { f with right } m s t :=
  ⟨h.length, h.left, hr, h.first⟩

/-! ## 選択 -/

theorem Bounds.either_left (h : f.Bounds m s t) : (f.either g).Bounds m s t := by
  refine ⟨h.length.hull_left, h.left.inter_left, h.right.inter_left, fun set hset => ?_⟩
  simp only [either] at hset
  split at hset
  · rename_i a b ha hb
    rw [← Option.some.inj hset]
    exact (h.first a ha).mono fun c hc => by simp [hc]
  · cases hset

theorem Bounds.either_right (h : g.Bounds m s t) : (f.either g).Bounds m s t := by
  refine ⟨h.length.hull_right, h.left.inter_right, h.right.inter_right, fun set hset => ?_⟩
  simp only [either] at hset
  split at hset
  · rename_i a b ha hb
    rw [← Option.some.inj hset]
    exact (h.first b hb).mono fun c hc => by simp [hc]
  · cases hset

/-- どちらの枝からも共通の手がかりへ移る性質は、枝のどれかで成り立てば全体で成り立つ。 -/
theorem foldl_either {P : Facts → Prop} (hleft : ∀ {f g : Facts}, P f → P (f.either g))
    (hright : ∀ {f g : Facts}, P g → P (f.either g)) {acc : Facts} {fs : List Facts}
    (h : P acc ∨ ∃ f ∈ fs, P f) : P (fs.foldl either acc) := by
  induction fs generalizing acc with
  | nil => simpa using h
  | cons f fs ih =>
    apply ih
    rcases h with h | ⟨g, hg, h⟩
    · exact .inl (hleft h)
    · rcases List.mem_cons.1 hg with rfl | hg
      · exact .inl (hright h)
      · exact .inr ⟨g, hg, h⟩

theorem Bounds.alt {e : Encoding} {fs : List Facts} (hf : f ∈ fs) (h : f.Bounds m s t) :
    (alt e fs).Bounds m s t := by
  cases fs with
  | nil => cases hf
  | cons c fs =>
    have hall : (fs.foldl either { c with best := none, trailing := none }).Bounds m s t := by
      refine foldl_either (P := (·.Bounds m s t)) Bounds.either_left Bounds.either_right ?_
      rcases List.mem_cons.1 hf with rfl | hf
      · exact .inl ⟨h.length, h.left, h.right, h.first⟩
      · exact .inr ⟨f, hf, h⟩
    exact ⟨hall.length, hall.left, hall.right, hall.first⟩

/-! ## 並び -/

namespace Running

variable {r : Running} {e : Encoding}

theorem extend_facts (r : Running) (e : Encoding) (leading trailing : Option Key) :
    ∃ k, (r.extend e leading trailing).facts = { r.facts with leading := k } := by
  unfold extend finish?
  dsimp only
  repeat' split
  all_goals exact ⟨_, rfl⟩

theorem extend_atStart (r : Running) (e : Encoding) (leading trailing : Option Key) :
    (r.extend e leading trailing).atStart = r.atStart := by
  unfold extend finish?
  dsimp only
  repeat' split
  all_goals rfl

/-- 途中までの手がかりが、読んだ範囲 `s` から `u` で成り立つ。 -/
structure Bounds (r : Running) (m : Matcher) (s u : Nat) : Prop where
  facts : r.facts.Bounds m s u
  start : r.atStart → u = s

theorem extend_bounds {leading trailing : Option Key} {n : Interval}
    (h : Facts.Bounds { r.facts with length := n } m s t) :
    Facts.Bounds { (r.extend e leading trailing).facts with length := n } m s t := by
  obtain ⟨k, hk⟩ := extend_facts r e leading trailing
  rw [hk]
  exact ⟨h.length, h.left, h.right, h.first⟩

/-- 要素を一つ読んでも、読んだ範囲で成り立つ。 -/
theorem Bounds.add (h : r.Bounds m s u) (hf : f.Bounds m u t) (hsu : s ≤ u) (hut : u ≤ t) :
    (Running.add e r f).Bounds m s t := by
  have hzero : f.length.isZero → t = u := fun hz => by
    have := hf.length.eq_zero hz
    omega
  have hlength : (r.facts.length.add f.length).Contains (t - s) := by
    have := h.facts.length.add hf.length
    rwa [show u - s + (t - u) = t - s by omega] at this
  have hleft : (if r.atStart then r.facts.left.union f.left else r.facts.left).Begin m s := by
    split
    · rename_i hstart
      exact h.facts.left.union (h.start hstart ▸ hf.left)
    · exact h.facts.left
  have hright : (if f.length.isZero then r.facts.right.union f.right else f.right).End m t := by
    split
    · rename_i hz
      exact (hzero hz ▸ h.facts.right).union hf.right
    · exact hf.right
  have hfirst : ∀ set ∈ (if r.atStart ∧ r.facts.first.isNone ∧ r.facts.length.isZero then f.first
      else r.facts.first), m.encoding.StartsIn m.text set s := by
    split
    · rename_i hstart
      exact h.start hstart.1 ▸ hf.first
    · exact h.facts.first
  have hstart : (r.atStart && f.length.isZero) → t = s := fun hs => by
    obtain ⟨hs, hz⟩ := Bool.and_eq_true_iff.1 hs
    rw [hzero hz, h.start hs]
  unfold Running.add
  dsimp only
  split
  · rename_i hskip
    refine ⟨⟨?_, hleft, hright, hfirst⟩, hstart⟩
    rw [hzero hskip.1]
    exact h.facts.length
  · refine ⟨extend_bounds ⟨hlength, hleft, hright, hfirst⟩, ?_⟩
    rw [extend_atStart]
    exact hstart

theorem done_bounds (h : r.Bounds m s u) : r.done.Bounds m s u := by
  have := h.facts
  unfold done
  split <;> exact ⟨this.length, this.left, this.right, this.first⟩

end Running

/-! ## 節 -/

/-- 文字列の現れる所では、文字列の手がかりが成り立つ。 -/
theorem ofLiteral_bounds {fold : Option FoldTable} (ignoreCase : Bool) {bytes : List UInt8}
    (hfold : ∀ t ∈ fold, m.program.fold = t)
    (h : (ignoreCase → ∀ b ∈ bytes, m.encoding.width b = 1) →
      m.occurs ignoreCase (if ignoreCase then m.program.fold.foldAll bytes else bytes) s) :
    (ofLiteral m.encoding fold ignoreCase bytes).Bounds m s (s + bytes.length) := by
  have hplain : Facts.Bounds { length := .fixed bytes.length } m s (s + bytes.length) :=
    ⟨by simpa using Interval.contains_fixed, .none, .none, by simp⟩
  unfold ofLiteral
  split
  · exact hplain
  · rename_i b bytes
    split
    · rename_i hi
      split
      · exact hplain
      · rename_i t
        split
        · exact hplain
        · rename_i hwidth
          refine ⟨hplain.length, .none, .none, fun set hset => ?_⟩
          rw [← Option.some.inj hset]
          have hb : (m.text[s]?).map m.program.fold.fold = some (m.program.fold.fold b) := by
            have h := h fun _ => Encoding.width_eq_one_of_any hwidth
            simp only [hi, if_true, Matcher.occurs, FoldTable.foldAll, List.map_cons, Text.hasFoldedAt,
              Bool.and_eq_true, beq_iff_eq] at h
            exact h.1
          obtain ⟨c, hc, hcb⟩ := Option.map_eq_some_iff.1 hb
          exact ⟨c, hc, .inl (by simp [← hfold t rfl, hcb])⟩
    · rename_i hi
      refine ⟨hplain.length, .none, .none, fun set hset => ?_⟩
      rw [← Option.some.inj hset]
      have hb : m.text[s]? = some b := by
        have h := h fun h => absurd h hi
        simp only [hi, Bool.false_eq_true, if_false, Matcher.occurs, Text.hasAt, Bool.and_eq_true,
          beq_iff_eq] at h
        exact h.1
      exact ⟨b, hb, .inl (by simp)⟩

theorem ofChar_bounds {set : ByteSet} (h : m.Reads set s t) : (ofChar m.encoding set).Bounds m s t := by
  obtain ⟨hlt, rfl, hstart⟩ := h
  have hnext : m.encoding.nextHead m.text s - s ≤ m.encoding.maxWidth := by
    have hwidth := m.encoding.width_le_maxWidth m.text[s]
    rw [Encoding.nextHead_eq _ hlt, Encoding.lengthAt, Array.getElem?_eq_getElem hlt]
    dsimp only
    omega
  have hpos := Encoding.lt_nextHead m.encoding m.text s
  refine ⟨⟨?_, fun u hu => ?_⟩, .none, .none, fun set' hset => ?_⟩
  · simp only [ofChar]
    omega
  · cases hu
    exact hnext
  · rw [← Option.some.inj hset]
    exact hstart

theorem ofAnchor_bounds {options : Options} {a : Anchor}
    (h : m.setting.holds options s a) : (ofAnchor options.perLine a).Bounds m s s := by
  have hnone : Facts.Bounds {} m s s := .empty
  cases a with
  | beginBuf =>
    have hs : s = 0 := by simpa [Setting.holds] using h
    exact hnone.withLeft ⟨by simp [hs], by simp⟩
  | beginPosition =>
    have hs : s = m.searchStart := by simpa [Setting.holds, Matcher.setting] using h
    exact hnone.withLeft ⟨by simp, by simp [hs]⟩
  | beginLine =>
    simp only [ofAnchor]
    split
    · exact hnone
    · rename_i hp
      simp only [Setting.holds, hp, Bool.false_and] at h
      split at h
      · rename_i hs
        exact hnone.withLeft ⟨by simp [hs], by simp⟩
      · cases h
  | endBuf =>
    have ht : s = m.text.size := by simpa [Setting.holds, Matcher.setting] using h
    exact hnone.withRight ⟨by simp [ht], by simp⟩
  | endLine =>
    simp only [ofAnchor]
    split
    · exact hnone
    · rename_i hp
      simp only [Setting.holds, hp, Bool.false_and] at h
      split at h
      · rename_i ht
        exact hnone.withRight ⟨by simp [ht, Matcher.setting], by simp⟩
      · cases h
  | semiEndBuf =>
    refine hnone.withRight ⟨by simp, fun _ => ?_⟩
    simp only [Setting.holds] at h
    split at h
    · exact .inl ‹_›
    · exact .inr (by simpa [Matcher.setting] using h)
  | _ => exact hnone

theorem anyStarEdges_begin {options : Options} {l : Loop} {isAny : Bool} :
    (anyStarEdges options l isAny).Begin m s := by
  unfold anyStarEdges
  split
  · split <;> exact ⟨by simp, by simp⟩
  · exact .none

end Facts

/-! ## 繰り返し -/

namespace Iterated

variable {R : Nat → Nat → Prop} {size k s t : Nat} {a : Interval}

theorem last (h : Iterated R (k + 1) s t) : ∃ u, Iterated R k s u ∧ R u t := by
  induction k generalizing s with
  | zero =>
    obtain ⟨u, hu, rfl⟩ := h
    exact ⟨s, rfl, hu⟩
  | succ k ih =>
    obtain ⟨u, hu, h⟩ := h
    obtain ⟨v, hv, ht⟩ := ih h
    exact ⟨v, ⟨u, hu, hv⟩, ht⟩

/-- 回ごとの長さを足すと、全体の長さになる。 -/
theorem totals (hR : ∀ {u v}, R u v → u ≤ size → u ≤ v ∧ v ≤ size)
    (hlen : ∀ {u v}, R u v → u ≤ size → a.Contains (v - u)) (h : Iterated R k s t) (hs : s ≤ size) :
    a.Totals k (t - s) := by
  induction k generalizing s with
  | zero =>
    cases h
    simpa using Interval.Totals.nil
  | succ k ih =>
    obtain ⟨u, hu, h⟩ := h
    obtain ⟨hle, hin⟩ := hR hu hs
    have hrest := (within hR h hin).1
    have := (ih h hin).cons (hlen hu hs)
    rwa [show u - s + (t - u) = t - s by omega] at this

end Iterated

namespace Facts

variable {m : Matcher} {s t : Nat} {f : Facts} {l : Loop} {R : Nat → Nat → Prop}

theorem loop_bounds (options : Options) (isAny : Bool)
    (hR : ∀ {u v}, R u v → u ≤ m.text.size → u ≤ v ∧ v ≤ m.text.size)
    (hf : ∀ {u v}, R u v → u ≤ m.text.size → f.Bounds m u v)
    (h : l.Turns R s t) (hs : s ≤ m.text.size) : (loop options l isAny f).Bounds m s t := by
  obtain ⟨k, hl, hu, h⟩ := h
  have htimes : (f.length.times l.lower l.upper).Contains (t - s) :=
    (h.totals hR (fun huv hle => (hf huv hle).length) hs).times hl hu
  have hstar : (anyStarEdges options l isAny).Begin m s := anyStarEdges_begin
  unfold loop
  dsimp only
  split
  · rename_i hone
    obtain rfl : k = 1 := by
      have := hu 1 hone.2
      omega
    obtain ⟨u, hsu, rfl⟩ := h
    have hb := hf hsu hs
    exact ⟨hb.length, hstar.union hb.left, hb.right, hb.first⟩
  · split
    · obtain ⟨k, rfl⟩ : ∃ j, k = j + 1 := ⟨k - 1, by omega⟩
      obtain ⟨v, hv, hvt⟩ := h.last
      obtain ⟨u, hsu, -⟩ := h
      have hhead := hf hsu hs
      have htail := hf hvt (hv.within hR hs).2
      exact ⟨htimes, hstar.union hhead.left, htail.right, hhead.first⟩
    · exact ⟨htimes, hstar, .none, by simp⟩

end Facts

namespace Node

variable {env : CodeEnv} {m : Matcher} {bodies : List Node}

theorem facts_loop (e : Encoding) (fold : Option FoldTable) (options : Options) (l : Loop) (body : Node) :
    ∃ isAny, Facts.ofNode e fold options (.loop l body) =
      .loop options l isAny (Facts.ofNode e fold options body) := by
  cases body with
  | any => exact ⟨true, rfl⟩
  | _ => exact ⟨false, rfl⟩

mutual
/-- 節の手がかりは、節が合うどの範囲でも成り立つ。 -/
theorem spans_bounds (hx : Readable env m bodies) : (n : Node) → {options : Options} → {s t : Nat} →
    (∀ b ∈ n.behinds, b ∈ bodies) → n.Spans env m options s t → s ≤ m.text.size →
    (Facts.ofNode m.encoding env.fold options n).Bounds m s t
  | .empty, _, _, _, _, h, _ => by
    cases h
    exact .empty
  | .list ns, _, _, _, hn, h, hs =>
    Facts.Running.done_bounds (spansList_bounds hx ns hn h ⟨.empty, fun _ => rfl⟩ (Nat.le_refl _) hs)
  | .alt [], _, _, _, _, h, _ => by
    cases h
    exact .empty
  | .alt (n :: ns), _, _, _, hn, h, hs => by
    obtain ⟨f, hf, hb⟩ := spansAlt_bounds hx (n :: ns) (by simp) hn h hs
    exact .alt hf hb
  | .str bytes, options, _, _, _, h, hs => by
    obtain ⟨rfl, hocc⟩ := spans_str hx.code hx.fold h hs
    exact Facts.ofLiteral_bounds _ (fun t ht => by rw [hx.fold, ht]; rfl) hocc
  | .raw bytes, _, _, _, _, h, hs => by
    obtain ⟨rfl, hocc⟩ := spans_raw hx.code h hs
    exact Facts.ofLiteral_bounds false (fun t ht => by rw [hx.fold, ht]; rfl) fun _ => hocc
  | .cclass c, _, _, _, _, h, _ => by
    change m.Passes (classInstruction env.encoding c) _ _ at h
    rw [← hx.code] at h
    exact Facts.ofChar_bounds (Matcher.reads_class h)
  | .word _, _, _, _, _, h, _ => Facts.ofChar_bounds (Matcher.reads_word h)
  | .any, _, _, _, _, h, _ => Facts.ofChar_bounds (Matcher.reads_any h)
  | .anchor _, _, _, _, _, h, _ => by
    obtain ⟨rfl, hold⟩ := Matcher.passes_anchor h
    exact Facts.ofAnchor_bounds hold
  | .backref _, _, _, _, _, _, _ =>
    ⟨Interval.contains_unknown, .none, .none, by simp [Facts.ofNode]⟩
  | .scoped _ body, _, _, _, hn, h, hs => spans_bounds hx body hn h hs
  | .loop l body, options, _, _, hn, h, hs => by
    obtain ⟨isAny, hloop⟩ := facts_loop m.encoding env.fold options l body
    rw [hloop]
    have hbody : ∀ b ∈ body.behinds, b ∈ bodies := hn
    exact Facts.loop_bounds options isAny (fun huv hle => hx.le hbody huv hle) (spans_bounds hx body hbody) h hs
  | .group kind body, _, s, t, hn, h, hs => by
    cases kind with
    | capture n undo => exact spans_bounds hx body hn h hs
    | atomic => exact spans_bounds hx body hn h hs
    | behind =>
      obtain rfl := hx.rests body (hn body List.mem_cons_self) h hs
      exact .empty
    | ahead | notAhead | notBehind =>
      cases h
      exact .empty

theorem spansList_bounds (hx : Readable env m bodies) : (ns : List Node) → {options : Options} →
    {r : Facts.Running} → {s u t : Nat} → (∀ b ∈ behindsIn ns, b ∈ bodies) →
    SpansList env m options ns u t → r.Bounds m s u → s ≤ u → u ≤ m.text.size →
    ((Facts.ofNodes m.encoding env.fold options ns).foldl (Facts.Running.add m.encoding) r).Bounds m s t
  | [], _, _, _, _, _, _, h, hr, _, _ => by
    cases h
    exact hr
  | n :: ns, _, _, _, _, _, hb, ⟨_, hn, h⟩, hr, hsu, hu => by
    obtain ⟨hbn, hbns⟩ := List.forall_mem_append.1 hb
    obtain ⟨hle, hin⟩ := hx.le hbn hn hu
    exact spansList_bounds hx ns hbns h (hr.add (spans_bounds hx n hbn hn hu) hsu hle)
      (Nat.le_trans hsu hle) hin

theorem spansAlt_bounds (hx : Readable env m bodies) : (ns : List Node) → ns ≠ [] →
    {options : Options} → {s t : Nat} → (∀ b ∈ behindsIn ns, b ∈ bodies) →
    SpansAlt env m options ns s t → s ≤ m.text.size →
    ∃ f ∈ Facts.ofNodes m.encoding env.fold options ns, f.Bounds m s t
  | [], hne, _, _, _, _, _, _ => absurd rfl hne
  | [n], _, _, _, _, hb, h, hs =>
    ⟨_, List.mem_cons_self, spans_bounds hx n (List.forall_mem_append.1 hb).1 h hs⟩
  | n :: n' :: ns, _, _, _, _, hb, h, hs => by
    obtain ⟨hbn, hbns⟩ := List.forall_mem_append.1 hb
    rcases h with h | h
    · exact ⟨_, List.mem_cons_self, spans_bounds hx n hbn h hs⟩
    · obtain ⟨f, hf, hb⟩ := spansAlt_bounds hx (n' :: ns) (by simp) hbns h hs
      exact ⟨f, List.mem_cons_of_mem _ hf, hb⟩
end

end Node
end MultibyteRegex

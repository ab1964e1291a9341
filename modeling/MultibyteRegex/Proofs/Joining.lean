import MultibyteRegex.Proofs.Keys

/-!
# 文字列をつなぐ所

どの文字列も切って短くなりすぎない符号化では、終わりで終わると言う文字列は、終わりまで届くか上限まで埋まっている。
だから並びの中で、上限より短く切れた文字列につなぐ所はない。
-/

namespace MultibyteRegex

namespace Encoding

variable {e : Encoding} {bytes : List UInt8}

/-- 手がかりの長さの上限で切っても、何も落とさないか、ちょうど上限の長さになる。 -/
def cutsEvenly (e : Encoding) (bytes : List UInt8) : Bool :=
  (e.wholeChars maxKeyLength bytes).length == min bytes.length maxKeyLength

theorem cutsEvenly_of_width_one (h : ∀ b ∈ bytes, e.width b = 1) : e.cutsEvenly bytes := by
  rw [cutsEvenly, wholeChars_of_width_one h, List.length_take, Nat.min_comm, beq_self_eq_true]

end Encoding

namespace Key

variable {k : Key} {e : Encoding}

theorem canGrow_clip (hr : k.reachesEnd) (hk : e.cutsEvenly k.bytes) : (k.clip e maxKeyLength).canGrow := by
  simp only [Encoding.cutsEvenly, beq_iff_eq] at hk
  unfold clip
  dsimp only
  split
  · have hfull : (e.wholeChars maxKeyLength k.bytes).length = maxKeyLength := by omega
    simp [canGrow, hfull]
  · simp [canGrow, hr]

theorem joinsEvenly_of_canGrow {opened : Option Key} (h : ∀ k ∈ opened, k.canGrow) (leading : Option Key) :
    joinsEvenly opened leading := by
  unfold joinsEvenly
  split
  · rename_i a b
    simp [h a rfl]
  · rfl

end Key

namespace Facts

variable {f : Facts}

/-- 終わりで終わる文字列は、後ろにつないでよい。 -/
def Grows (f : Facts) : Prop := ∀ k ∈ f.trailing, k.canGrow

theorem Grows.of_none (h : f.trailing = none) : f.Grows := by simp [Grows, h]

namespace Running

variable {r : Running} {e : Encoding} {leading trailing : Option Key}

/-- 届いている文字列は、後ろにつないでよい。 -/
def Grows (r : Running) : Prop := ∀ k ∈ r.open_, k.canGrow

theorem Grows.switch (htrail : ∀ k ∈ trailing, k.canGrow) : (r.switch leading trailing).Grows := by
  unfold Running.switch
  split
  · split
    · rename_i hr
      intro k hk
      cases hk
      simp [Key.canGrow, hr]
    · exact htrail
  · exact htrail

theorem Grows.extend (htrail : ∀ k ∈ trailing, k.canGrow) : (r.extend e leading trailing).Grows := by
  rw [extend_eq]
  split
  · split
    · split
      · rename_i hr
        intro k hk
        cases hk
        simp [Key.canGrow, hr]
      · exact htrail
    · exact .switch htrail
  · exact .switch htrail

theorem Grows.add (h : r.Grows) (hf : f.Grows) : (Running.add e r f).Grows := by
  unfold Running.add
  dsimp only
  split
  · exact h
  · refine Grows.extend fun k hk => ?_
    obtain ⟨k', hk', rfl⟩ := Option.map_eq_some_iff.1 hk
    exact hf k' hk'

theorem Grows.done (h : r.Grows) (hnone : r.facts.trailing = none) : r.done.Grows := by
  unfold Running.done
  split
  · exact .of_none hnone
  · rename_i k hk
    intro k' hk'
    cases hk'
    exact h k hk

theorem trailing_add (r : Running) (e : Encoding) (f : Facts) :
    (Running.add e r f).facts.trailing = r.facts.trailing := by
  unfold Running.add
  dsimp only
  split
  · rfl
  · obtain ⟨k, hk⟩ := extend_facts _ e (f.leading.map (·.shift r.facts.length))
      (f.trailing.map (·.shift r.facts.length))
    rw [hk]

theorem grows_foldl {fs : List Facts} (hr : r.Grows)
    (hnone : r.facts.trailing = none) (hfs : ∀ f ∈ fs, f.Grows) :
    r.joinsAll e fs ∧ (fs.foldl (Running.add e) r).done.Grows := by
  induction fs generalizing r with
  | nil => exact ⟨rfl, hr.done hnone⟩
  | cons f fs ih =>
    obtain ⟨hf, hfs⟩ := List.forall_mem_cons.1 hfs
    obtain ⟨hjoins, hgrows⟩ := ih (hr.add hf) ((Running.trailing_add r e f).trans hnone) hfs
    exact ⟨by simp [joinsAll, Key.joinsEvenly_of_canGrow hr, hjoins], hgrows⟩

end Running

variable {e : Encoding} {fs : List Facts}

theorem Grows.ofLiteral (he : ∀ bytes, e.cutsEvenly bytes) (fold : Option FoldTable) (ignoreCase : Bool)
    (bytes : List UInt8) : (ofLiteral e fold ignoreCase bytes).Grows := by
  have hclip : ∀ (folded : Bool) (w : List UInt8),
      (Key.clip ⟨.zero, w, folded, true⟩ e maxKeyLength).canGrow := fun _ w => Key.canGrow_clip rfl (he w)
  unfold Facts.ofLiteral
  repeat' split
  all_goals
    intro k hk
    first
    | cases hk; exact hclip _ _
    | cases hk

theorem Grows.alt : (alt e fs).Grows := by
  cases fs with
  | nil => exact .of_none rfl
  | cons f fs =>
    intro k hk
    simp [Key.canGrow, (Option.filter_eq_some_iff.1 hk).2]

theorem Grows.loop (h : f.Grows) (options : Options) (l : Loop) (isAny : Bool) :
    (loop options l isAny f).Grows := by
  unfold Facts.loop
  dsimp only
  split
  · exact h
  · split <;> exact .of_none rfl

end Facts

namespace Node

variable {e : Encoding}

mutual
/-- どの文字列も切って短くなりすぎない符号化では、つなぐ所が短く切れていることはない。 -/
theorem joinsEvenly_of_cutsEvenly (he : ∀ bytes, e.cutsEvenly bytes) (fold : Option FoldTable) :
    (n : Node) → (options : Options) →
      n.joinsEvenly e fold options ∧ (Facts.ofNode e fold options n).Grows
  | .empty, _ => ⟨rfl, .of_none rfl⟩
  | .list ns, options => by
    obtain ⟨hjn, hgrows⟩ := joinsEvenlyIn_of_cutsEvenly he fold ns options
    obtain ⟨hjoins, hdone⟩ := Facts.Running.grows_foldl (e := e) (r := {}) nofun rfl hgrows
    exact ⟨Bool.and_eq_true_iff.2 ⟨hjn, hjoins⟩, hdone⟩
  | .alt ns, options => ⟨(joinsEvenlyIn_of_cutsEvenly he fold ns options).1, .alt⟩
  | .str bytes, options => ⟨rfl, .ofLiteral he fold _ bytes⟩
  | .raw bytes, _ => ⟨rfl, .ofLiteral he fold false bytes⟩
  | .cclass _, _ => ⟨rfl, .of_none rfl⟩
  | .word _, _ => ⟨rfl, .of_none rfl⟩
  | .any, _ => ⟨rfl, .of_none rfl⟩
  | .anchor a, options => by
    refine ⟨rfl, .of_none ?_⟩
    cases a <;> simp only [Facts.ofNode, Facts.ofAnchor] <;> (try split) <;> rfl
  | .backref _, _ => ⟨rfl, .of_none rfl⟩
  | .scoped inner body, _ => joinsEvenly_of_cutsEvenly he fold body inner
  | .loop l body, options => by
    obtain ⟨hj, hgrows⟩ := joinsEvenly_of_cutsEvenly he fold body options
    obtain ⟨isAny, hloop⟩ := facts_loop e fold options l body
    rw [hloop]
    exact ⟨hj, hgrows.loop options l isAny⟩
  | .group kind body, options => by
    cases kind with
    | capture n undo => exact joinsEvenly_of_cutsEvenly he fold body options
    | atomic => exact joinsEvenly_of_cutsEvenly he fold body options
    | _ => exact ⟨rfl, .of_none rfl⟩

theorem joinsEvenlyIn_of_cutsEvenly (he : ∀ bytes, e.cutsEvenly bytes) (fold : Option FoldTable) :
    (ns : List Node) → (options : Options) →
      joinsEvenlyIn e fold options ns ∧ ∀ f ∈ Facts.ofNodes e fold options ns, f.Grows
  | [], _ => ⟨rfl, by simp [Facts.ofNodes]⟩
  | n :: ns, options => by
    obtain ⟨hj, hgrows⟩ := joinsEvenly_of_cutsEvenly he fold n options
    obtain ⟨hjs, hall⟩ := joinsEvenlyIn_of_cutsEvenly he fold ns options
    exact ⟨Bool.and_eq_true_iff.2 ⟨hj, hjs⟩, List.forall_mem_cons.2 ⟨hgrows, hall⟩⟩
end

end Node
end MultibyteRegex

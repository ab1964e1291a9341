import MultibyteRegex.Proofs.Nesting

/-!
# 後戻りに耐える積み重ね

どの再開点へ戻っても、枠の働きを順に取り消した先で、その再開点の約束が成り立つ。回数の記録は、
取り消すときに必ず数える繰り返しの枠を指す。
-/

namespace MultibyteRegex

/-- ある命令に着いたときの、目印と位置についての約束。 -/
abbrev Assertion := List Frame → Nat → Prop

/-- 再開点の約束がすべて成り立つ積み重ね。`size` は捕獲の数である。 -/
inductive Live (T : Nat → Assertion) (size : Nat) : Stack → Prop
  | nil : Live T size []
  | resume {f pc pos ms st} : f.resume? = some (pc, pos) → Nested ms st → T pc ms pos →
      Live T size st → Live T size (f :: st)
  | undo {f st st'} : f.resume? = none →
      (∀ caps : Captures, caps.size = size →
        ∃ caps' : Captures, caps'.size = size ∧ Stack.undo f st caps = some (st', caps')) →
      Live T size st' → Live T size (f :: st)

namespace Stack

variable {st st' : Stack} {caps caps' : Captures} {f : Frame}

/-- 外しても何も取り消さない枠。 -/
def IsInert (f : Frame) : Prop := ∀ st caps, undo f st caps = some (st, caps)

theorem isInert_of_resume {target : Nat × Nat} (h : f.resume? = some target) : IsInert f := by
  intro st caps
  cases f <;> first | rfl | cases h

theorem undo_eq_some (h : undo f st caps = some (st', caps')) :
    st' = st ∨ ∃ above id b k k' below, st = above ++ .repeatStart id b k :: below ∧
      st' = above ++ .repeatStart id b k' :: below := by
  unfold undo at h
  split at h
  · split at h <;> cases h
    exact .inl rfl
  · split at h <;> cases h
    exact .inl rfl
  · obtain ⟨s, hs, he⟩ := Option.map_eq_some_iff.1 h
    cases he
    obtain ⟨above, id, b, k, below, h, -, h'⟩ := setCount?_eq_some hs
    exact .inr ⟨above, id, b, k, _, below, h, h'⟩
  · cases h
    exact .inl rfl

theorem popResume_of_resume {target : Nat × Nat} (hf : f.resume? = some target) :
    popResume (f :: st) caps = ⟨st, caps, .ok (some target)⟩ := by
  rw [popResume]
  simp [hf]

theorem popResume_cons (hf : f.resume? = none) (h : undo f st caps = some (st', caps')) :
    popResume (f :: st) caps = popResume st' caps' := by
  rw [popResume]
  split
  · rename_i hs
    rw [hf] at hs
    cases hs
  · split
    · rename_i hu
      cases h.symm.trans hu
      rfl
    · rename_i hu
      rw [h] at hu
      cases hu

theorem popThrough_cons {mark : Frame → Bool} (hf : ¬mark f)
    (h : undo f st caps = some (st', caps')) :
    popThrough mark (f :: st) caps = popThrough mark st' caps' := by
  rw [popThrough, if_neg hf]
  split
  · rename_i hu
    cases h.symm.trans hu
    rfl
  · rename_i hu
    rw [h] at hu
    cases hu

/-- 番号の指す枠が数える繰り返しかどうかは、回数に依らない。 -/
theorem isSome_repeatAt?_repeatStart (above below : Stack) (id b k k' : Nat) {index : Nat} :
    ((above ++ .repeatStart id b k :: below).repeatAt? index).isSome =
      ((above ++ .repeatStart id b k' :: below).repeatAt? index).isSome := by
  have hd : (above ++ .repeatStart id b k :: below).depthOf? index =
      (above ++ .repeatStart id b k' :: below).depthOf? index := by simp [depthOf?]
  unfold repeatAt?
  rw [hd]
  cases (above ++ .repeatStart id b k' :: below).depthOf? index with
  | none => rfl
  | some depth =>
    simp only [Option.bind_some, List.getElem?_append, List.getElem?_cons]
    grind

theorem voidTo_append {α : Type} {mark : Frame → Option α} {above : Stack} {a : α} (below : Stack)
    (h : ∀ g ∈ above, mark g = none) (hf : mark f = some a) :
    voidTo mark (above ++ f :: below) =
      (some a, above.map (fun g => if g.isResume then .void else g) ++ .void :: below) := by
  induction above with
  | nil => simp [voidTo, hf]
  | cons g above ih =>
    obtain ⟨hg, h⟩ := List.forall_mem_cons.1 h
    simp [voidTo, hg, ih h]

/-- 数える繰り返しの枠は、無効にしても残る。 -/
theorem voidTo_repeatStart {α : Type} {mark : Frame → Option α}
    (hr : ∀ id b k, mark (.repeatStart id b k) = none) (above below : Stack) (id b : Nat) :
    ∃ above' below' : Stack, below'.length = below.length ∧ ∀ k,
      (voidTo mark (above ++ .repeatStart id b k :: below)).2 =
        above' ++ .repeatStart id b k :: below' := by
  have hlen : ∀ st : Stack, (voidTo mark st).2.length = st.length := by
    intro st
    induction st with
    | nil => rfl
    | cons f st ih =>
      cases hf : mark f <;> simp [voidTo, hf, ih]
  induction above with
  | nil => exact ⟨[], (voidTo mark below).2, hlen below, fun k => by
      simp [voidTo, hr, Frame.isResume, Frame.resume?]⟩
  | cons f above ih =>
    cases hf : mark f with
    | some a => exact ⟨.void :: above, below, rfl, fun k => by simp [voidTo, hf]⟩
    | none =>
      obtain ⟨above', below', hl, h⟩ := ih
      exact ⟨(if f.isResume then .void else f) :: above', below', hl, fun k => by
        simp [voidTo, hf, h k]⟩

/-- 無効にしてから取り消しても、取り消してから無効にしたのと同じになる。 -/
theorem undo_voidTo {α : Type} {mark : Frame → Option α}
    (hr : ∀ id b k, mark (.repeatStart id b k) = none)
    (h : undo f st caps = some (st', caps')) :
    undo f (voidTo mark st).2 caps = some ((voidTo mark st').2, caps') := by
  unfold undo at h ⊢
  split at h
  · split at h <;> cases h
    rename_i hn
    rw [if_pos hn]
  · split at h <;> cases h
    rename_i hn
    rw [if_pos hn]
  · obtain ⟨s, hs, he⟩ := Option.map_eq_some_iff.1 h
    cases he
    obtain ⟨above, id, b, k, below, rfl, rfl, rfl⟩ := setCount?_eq_some hs
    obtain ⟨above', below', hl, hv⟩ := voidTo_repeatStart hr above below id b
    rw [hv k, hv (k - 1), ← hl, setCount?_append]
    rfl
  · cases h
    rfl

end Stack

namespace Live

variable {T : Nat → Assertion} {size : Nat} {st : Stack} {f : Frame}

theorem inert (hf : f.resume? = none) (hi : Stack.IsInert f) (h : Live T size st) :
    Live T size (f :: st) := .undo hf (fun caps hc => ⟨caps, hc, hi st caps⟩) h

theorem memStart {n : Nat} (prior : Slot) (hn : n < size) (h : Live T size st) :
    Live T size (.memStart n prior :: st) := by
  refine .undo rfl (fun caps hc => ⟨caps.setIfInBounds n prior, by simpa using hc, ?_⟩) h
  simp [Stack.undo, hc, hn]

theorem memEnd {n : Nat} (prior : Option Nat) (hn : n < size) (h : Live T size st) :
    Live T size (.memEnd n prior :: st) := by
  refine .undo rfl (fun caps hc => ⟨caps.modify n fun s => { s with stop := prior }, ?_, ?_⟩) h
  · simpa using hc
  · simp [Stack.undo, hc, hn]

theorem repeatNext (above : Stack) {below : Stack} {id b k : Nat}
    (h : Live T size (above ++ .repeatStart id b k :: below)) :
    Live T size (.repeatNext below.length :: (above ++ .repeatStart id b (k + 1) :: below)) := by
  refine .undo rfl (fun caps hc => ⟨caps, hc, ?_⟩) h
  simp [Stack.undo, Stack.setCount?_append]

theorem popResume (h : Live T size st) {caps : Captures} (hc : caps.size = size) :
    (st.popResume caps).result = .ok none ∧ (st.popResume caps).caps.size = size ∨
    ∃ pc pos ms, (st.popResume caps).result = .ok (some (pc, pos)) ∧
      (st.popResume caps).caps.size = size ∧ Nested ms (st.popResume caps).stack ∧ T pc ms pos ∧
      Live T size (st.popResume caps).stack := by
  induction h generalizing caps with
  | nil =>
    unfold Stack.popResume
    exact .inl ⟨rfl, hc⟩
  | @resume f pc pos ms st hf hn ht hl _ =>
    have he : Stack.popResume (f :: st) caps = _ := Stack.popResume_of_resume hf
    exact .inr ⟨pc, pos, ms, by rw [he], by rw [he]; exact hc, by rw [he]; exact hn, ht,
      by rw [he]; exact hl⟩
  | @undo f st st' hf hu hl ih =>
    obtain ⟨caps', hc', hu⟩ := hu caps hc
    rw [Stack.popResume_cons hf hu]
    exact ih hc'

/-- 積み重ねにある再開点までは、必ず外せる。 -/
theorem popThrough {mark : Frame → Bool} (hr : ∀ f, mark f → f.isResume) (h : Live T size st)
    {caps : Captures} (hc : caps.size = size) (hm : ∃ f ∈ st, mark f) :
    (st.popThrough mark caps).result = .ok () ∧ (st.popThrough mark caps).caps.size = size ∧
      Live T size (st.popThrough mark caps).stack := by
  induction h generalizing caps with
  | nil => obtain ⟨f, hf, _⟩ := hm; cases hf
  | @resume f pc pos ms st hf _ _ hl ih =>
    by_cases hmf : mark f
    · rw [Stack.popThrough, if_pos hmf]
      exact ⟨rfl, hc, hl⟩
    · -- 他の再開点は、取り消すものがないまま外れる。
      rw [Stack.popThrough_cons hmf (Stack.isInert_of_resume hf st caps)]
      refine ih hc ?_
      obtain ⟨g, hg, hmg⟩ := hm
      rcases List.mem_cons.1 hg with rfl | hg
      · exact absurd hmg hmf
      · exact ⟨g, hg, hmg⟩
  | @undo f st st' hf hu hl ih =>
    have hmf : ¬mark f := fun hmf => by simpa [Frame.isResume, hf] using hr f hmf
    obtain ⟨caps', hc', hu⟩ := hu caps hc
    rw [Stack.popThrough_cons hmf hu]
    refine ih hc' ?_
    obtain ⟨g, hg, hmg⟩ := hm
    rcases List.mem_cons.1 hg with rfl | hg
    · exact absurd hmg hmf
    · rcases Stack.undo_eq_some hu with rfl | ⟨above, id, b, k, k', below, rfl, rfl⟩
      · exact ⟨g, hg, hmg⟩
      · refine ⟨g, ?_, hmg⟩
        have hne : g ≠ .repeatStart id b k := by
          rintro rfl
          cases hr _ hmg
        simp only [List.mem_append, List.mem_cons] at hg ⊢
        rcases hg with hg | hg | hg
        · exact .inl hg
        · exact absurd hg hne
        · exact .inr (.inr hg)

/-- 目印までを無効にしても、残る再開点の約束は変わらない。 -/
theorem voidTo {α : Type} {mark : Frame → Option α} (hi : ∀ f a, mark f = some a → Stack.IsInert f)
    (hr : ∀ id b k, mark (.repeatStart id b k) = none) (h : Live T size st) :
    Live T size (st.voidTo mark).2 := by
  induction h with
  | nil => exact .nil
  | @resume f pc pos ms st hf hn ht hl ih =>
    unfold Stack.voidTo
    cases hm : mark f with
    | some a => exact hl.inert rfl fun _ _ => rfl
    | none => simpa [Frame.isResume, hf] using ih.inert (f := .void) rfl fun _ _ => rfl
  | @undo f st st' hf hu hl ih =>
    unfold Stack.voidTo
    cases hm : mark f with
    | some a =>
      obtain ⟨caps', _, hu⟩ := hu (Array.replicate size {}) (by simp)
      rw [hi f a hm] at hu
      cases hu
      exact hl.inert rfl fun _ _ => rfl
    | none =>
      simp only [Frame.isResume, hf, Option.isSome_none, Bool.false_eq_true, if_false]
      refine .undo hf (fun caps hc => ?_) ih
      obtain ⟨caps', hc', hu⟩ := hu caps hc
      exact ⟨caps', hc', Stack.undo_voidTo hr hu⟩

/-- 回数を増やしたことの記録は、必ず数える繰り返しの枠を指す。 -/
theorem repeatAt? (h : Live T size st) {above below : Stack} {index : Nat}
    (hs : st = above ++ .repeatNext index :: below) : (below.repeatAt? index).isSome := by
  induction h generalizing above below with
  | nil => simp at hs
  | @resume f pc pos ms st hf _ _ _ ih =>
    cases above with
    | nil =>
      cases hs
      cases hf
    | cons g above =>
      cases hs
      exact ih rfl
  | @undo f st st' hf hu _ ih =>
    obtain ⟨caps', _, hu⟩ := hu (Array.replicate size {}) (by simp)
    cases above with
    | nil =>
      cases hs
      obtain ⟨s, hs, _⟩ := Option.map_eq_some_iff.1 hu
      obtain ⟨above, id, b, k, below, rfl, rfl, _⟩ := Stack.setCount?_eq_some hs
      rw [Stack.repeatAt?_append]
      rfl
    | cons g above =>
      cases hs
      rcases Stack.undo_eq_some hu with rfl | ⟨above', id, b, k, k', below', hs, rfl⟩
      · exact ih rfl
      · rcases List.append_eq_append_iff.1 hs with ⟨c, rfl, hc⟩ | ⟨c, rfl, hc⟩
        · cases c with
          | nil => cases hc
          | cons _ c =>
            obtain ⟨rfl, rfl⟩ := List.cons.inj hc
            change (Stack.repeatAt? (c ++ .repeatStart id b k :: below') index).isSome
            rw [Stack.isSome_repeatAt?_repeatStart c below' id b k k']
            exact ih (List.append_assoc ..)
        · cases c with
          | nil => cases hc
          | cons _ c =>
            obtain ⟨rfl, rfl⟩ := List.cons.inj hc
            exact @ih (above' ++ .repeatStart id b k' :: c) _ (by simp)

end Live
end MultibyteRegex

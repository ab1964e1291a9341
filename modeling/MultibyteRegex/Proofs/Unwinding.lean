import MultibyteRegex.Proofs.Backtrack
import MultibyteRegex.Proofs.Emission

/-!
# 積み重ねの巻き戻し

節に入ったときの積み重ねの上に積んだ枠を順に外すと、節に入ったときの捕獲に戻る。取り消しのない捕獲は
戻らないが、それは続きの命令が必ず書き直すものに限る。
-/

namespace MultibyteRegex

/-- 捕獲の端。`b` が真なら始まり、偽なら終わりである。 -/
def Slot.edge (s : Slot) (b : Bool) : Option Nat := if b then s.start else s.stop

/-- 値の決まらない端の集まり。 -/
abbrev Garbage := Nat → Bool → Prop

namespace Garbage

def none : Garbage := fun _ _ => False

def or (K W : Garbage) : Garbage := fun n b => K n b ∨ W n b

/-- `n` 番の終わりも決まらない。 -/
def orStop (K : Garbage) (n : Nat) : Garbage := fun k b => K k b ∨ (k = n ∧ b = false)

end Garbage

namespace Captures

/-- `K` の端の他は等しい。 -/
structure Agree (K : Garbage) (a d : Captures) : Prop where
  size : a.size = d.size
  edge : ∀ n b, ¬K n b → (a[n]?).map (·.edge b) = (d[n]?).map (·.edge b)

theorem eq_of_edge {s t : Option Slot} (h : ∀ b, s.map (·.edge b) = t.map (·.edge b)) : s = t := by
  have hs := h true
  have ht := h false
  cases s with
  | none => cases t <;> simp_all
  | some s =>
    cases t with
    | none => simp_all
    | some t =>
      obtain ⟨s₁, s₂⟩ := s
      obtain ⟨t₁, t₂⟩ := t
      simp_all [Slot.edge]

theorem ext_edge {a d : Captures}
    (h : ∀ (n : Nat) (b : Bool), (a[n]?).map (·.edge b) = (d[n]?).map (·.edge b)) : a = d :=
  Array.ext_getElem? fun n => eq_of_edge (h n)

theorem getElem?_setIfInBounds_edge (a : Captures) (n k : Nat) (v : Slot) (b : Bool) :
    ((a.setIfInBounds n v)[k]?).map (·.edge b) =
      if n = k ∧ n < a.size then some (v.edge b) else (a[k]?).map (·.edge b) := by
  rw [Array.getElem?_setIfInBounds]
  by_cases h : n = k
  · subst h
    by_cases hn : n < a.size
    · simp [hn]
    · simp [hn]
  · simp [h]

theorem getElem?_modify_edge (a : Captures) (n k : Nat) (t : Option Nat) (b : Bool) :
    ((a.modify n fun s => { s with stop := t })[k]?).map (Slot.edge · b) =
      if n = k ∧ n < a.size ∧ b = false then some t else (a[k]?).map (·.edge b) := by
  rw [Array.getElem?_modify]
  by_cases h : n = k
  · subst h
    by_cases hn : n < a.size
    · cases b <;> simp [hn, Slot.edge]
    · simp [hn]
  · simp [h]

namespace Agree

variable {K K' : Garbage} {a a' d : Captures} {n : Nat}

theorem refl (K : Garbage) (a : Captures) : Agree K a a := ⟨rfl, fun _ _ _ => rfl⟩

theorem eq (h : Agree .none a d) : a = d := ext_edge fun n b => h.edge n b id

/-- 決まっている端だけを見る検査は、同じ答えになる。 -/
theorem span?_eq (h : Agree K a d) (hn : ∀ b, ¬K n b) : a.span? n = d.span? n := by
  have hget : a[n]? = d[n]? := eq_of_edge fun b => h.edge n b (hn b)
  unfold span?
  rw [hget]

/-- 同じ番号に書き込むと、その番号では書き込む値だけで決まる。 -/
theorem set_of {v w : Slot} (h : Agree K a d) (hK : ∀ k b, k ≠ n → K k b → K' k b)
    (hv : ∀ b, ¬K' n b → v.edge b = w.edge b) :
    Agree K' (a.setIfInBounds n v) (d.setIfInBounds n w) := by
  refine ⟨by simpa using h.size, fun k b hk => ?_⟩
  rw [getElem?_setIfInBounds_edge, getElem?_setIfInBounds_edge, h.size]
  by_cases hn : n = k
  · subst hn
    by_cases hlt : n < d.size
    · rw [if_pos ⟨rfl, hlt⟩, if_pos ⟨rfl, hlt⟩, hv b hk]
    · rw [if_neg fun hc => hlt hc.2, if_neg fun hc => hlt hc.2,
        Array.getElem?_eq_none (by rw [h.size]; omega), Array.getElem?_eq_none (by omega)]
  · rw [if_neg fun hc => hn hc.1, if_neg fun hc => hn hc.1]
    exact h.edge k b fun hk' => hk (hK k b (Ne.symm hn) hk')

theorem set {v w : Slot} (h : Agree K a d) (hv : ∀ b, v.edge b = w.edge b) :
    Agree K (a.setIfInBounds n v) (d.setIfInBounds n w) :=
  h.set_of (fun _ _ _ h => h) fun b _ => hv b

/-- 両端とも決まらない番号への書き込みは、なかったことにできる。 -/
theorem of_set {v : Slot} (h : Agree K a (d.setIfInBounds n v)) (hK : ∀ k b, K k b → K' k b)
    (hn : ∀ b, K' n b) : Agree K' a d := by
  refine ⟨by simpa using h.size, fun k b hk => ?_⟩
  rw [h.edge k b fun hk' => hk (hK k b hk'), getElem?_setIfInBounds_edge, if_neg]
  rintro ⟨rfl, -⟩
  exact hk (hn b)

/-- 書き込む前の値を戻す。 -/
theorem restore {v prior : Slot} (h : Agree K a (d.setIfInBounds n v)) (h' : Agree K a' d)
    (hp : a'[n]? = some prior) : Agree K (a.setIfInBounds n prior) d := by
  have hsize : a.size = d.size := by simpa using h.size
  refine ⟨by simpa using hsize, fun k b hk => ?_⟩
  rw [getElem?_setIfInBounds_edge]
  split
  · rename_i hc
    obtain ⟨rfl, -⟩ := hc
    rw [← h'.edge n b hk, hp]
    rfl
  · rename_i hc
    rw [h.edge k b hk, getElem?_setIfInBounds_edge, if_neg (by rwa [← hsize])]

/-- 同じ番号を終える。 -/
theorem stop {t : Option Nat} (h : Agree K a d) :
    Agree K (a.modify n fun s => { s with stop := t }) (d.modify n fun s => { s with stop := t }) := by
  refine ⟨by simpa using h.size, fun k b hk => ?_⟩
  rw [getElem?_modify_edge, getElem?_modify_edge, h.size, h.edge k b hk]

/-- 終わりを書き込めば、終わりが決まる。 -/
theorem stop_orStop {t : Option Nat} (h : Agree (K.orStop n) a d) :
    Agree K (a.modify n fun s => { s with stop := t }) (d.modify n fun s => { s with stop := t }) := by
  refine ⟨by simpa using h.size, fun k b hk => ?_⟩
  rw [getElem?_modify_edge, getElem?_modify_edge, h.size]
  split
  · rfl
  · rename_i hc
    by_cases hn : n = k ∧ b = false
    · -- 範囲の外には、どちらの値もない。
      obtain ⟨rfl, rfl⟩ := hn
      have hlt : ¬n < d.size := fun hlt => hc ⟨rfl, hlt, rfl⟩
      rw [Array.getElem?_eq_none (by rw [h.size]; omega), Array.getElem?_eq_none (by omega)]
    · exact h.edge k b fun hk' => hk'.elim hk fun hb => hn ⟨hb.1.symm, hb.2⟩

theorem of_stop {t : Option Nat} (h : Agree K a (d.modify n fun s => { s with stop := t })) :
    Agree (K.orStop n) a d := by
  refine ⟨by simpa using h.size, fun k b hk => ?_⟩
  rw [h.edge k b fun hk' => hk (.inl hk'), getElem?_modify_edge, if_neg]
  rintro ⟨rfl, -, rfl⟩
  exact hk (.inr ⟨rfl, rfl⟩)

theorem restore_stop {t : Option Nat} {prior : Slot}
    (h : Agree K a (d.modify n fun s => { s with stop := t })) (h' : Agree K a' d)
    (hp : a'[n]? = some prior) : Agree K (a.modify n fun s => { s with stop := prior.stop }) d := by
  have hsize : a.size = d.size := by simpa using h.size
  refine ⟨by simpa using hsize, fun k b hk => ?_⟩
  rw [getElem?_modify_edge]
  split
  · rename_i hc
    obtain ⟨rfl, -, rfl⟩ := hc
    rw [← h'.edge n false hk, hp]
    rfl
  · rename_i hc
    rw [h.edge k b hk, getElem?_modify_edge, if_neg (by rwa [← hsize])]

end Agree

end Captures

/-! ## 枠を外す -/

/-- 括弧を抜けた後に残ってよい枠。輪の番号は、`c` から配ったものである。 -/
def Frame.Settled (c : Counters) : Frame → Prop
  | .posNot .. => False
  | .behindNot .. => False
  | .ahead _ => False
  | .atomic => False
  | .repeatStart id .. => c.repeats.length ≤ id
  | .nullCheck id .. => c.nullChecks ≤ id
  | _ => True

theorem Frame.Settled.mono {c c' : Counters} (h : c.Extends c') {f : Frame} (hf : f.Settled c') :
    f.Settled c := by
  cases f <;> first
    | exact hf
    | exact Nat.le_trans h.repeats.length_le hf
    | exact Nat.le_trans h.nullChecks hf

theorem Frame.Settled.counter_ne {c : Counters} {id : Nat} (hid : id < c.repeats.length) {f : Frame}
    (h : f.Settled c) : f.opener? ≠ some (.counter id) := by
  cases f with
  | repeatStart i pc k =>
    intro he
    cases he
    exact absurd hid (Nat.not_lt.2 h)
  | _ => simp [opener?]

theorem Frame.Settled.nullCheck_ne {c : Counters} {id : Nat} (hid : id < c.nullChecks) {f : Frame}
    (h : f.Settled c) : f.opener? ≠ some (.nullCheck id) := by
  cases f with
  | nullCheck i pos snapshot =>
    intro he
    cases he
    exact absurd hid (Nat.not_lt.2 h)
  | _ => simp [opener?]

/-- 再開点を捨て、他の枠の働きを取り消しながら、枠を順に外す。 -/
inductive Unwinds (b : Counters) : Stack → Captures → Stack → Captures → Prop
  | refl {st caps} : Unwinds b st caps st caps
  | pop {f st st' st'' caps caps' caps''} : f.Settled b →
      Stack.undo f st caps = some (st', caps') → Unwinds b st' caps' st'' caps'' →
      Unwinds b (f :: st) caps st'' caps''

namespace Unwinds

variable {b b' : Counters} {st st' st'' base : Stack} {caps caps' caps'' : Captures} {f : Frame}

theorem trans (h : Unwinds b st caps st' caps') (h' : Unwinds b st' caps' st'' caps'') :
    Unwinds b st caps st'' caps'' := by
  induction h with
  | refl => exact h'
  | pop hf hu _ ih => exact .pop hf hu (ih h')

theorem mono (hb : b'.Extends b) (h : Unwinds b st caps st' caps') : Unwinds b' st caps st' caps' := by
  induction h with
  | refl => exact .refl
  | pop hf hu _ ih => exact .pop (hf.mono hb) hu ih

/-- 目印までを無効にしても、同じ捕獲に戻る。 -/
theorem voidTo {α : Type} {mark : Frame → Option α} {a : α} (hm : ∀ g, g.Settled b → mark g = none)
    (hr : ∀ id p k, mark (.repeatStart id p k) = none) (hf : mark f = some a)
    (h : Unwinds b st caps (f :: base) caps') : Unwinds b (st.voidTo mark).2 caps base caps' := by
  generalize hst : f :: base = dest at h
  induction h with
  | refl =>
    subst hst
    simp only [Stack.voidTo, hf]
    exact .pop trivial rfl .refl
  | @pop g st₁ st₂ st₃ caps₁ caps₂ caps₃ hg hu _ ih =>
    have ih := ih hst
    simp only [Stack.voidTo, hm g hg]
    by_cases hres : g.isResume
    · rw [if_pos hres]
      obtain ⟨target, ht⟩ := Option.isSome_iff_exists.1 hres
      rw [Stack.isInert_of_resume ht] at hu
      cases hu
      exact .pop trivial rfl ih
    · rw [if_neg hres]
      exact .pop hg (Stack.undo_voidTo hr hu) ih

/-- 目印までを無効にすると、失敗したときに目印の下の再開点へ戻る。 -/
theorem popResume_voidTo {α : Type} {mark : Frame → Option α} {a : α}
    (hm : ∀ g, g.Settled b → mark g = none) (hr : ∀ id p k, mark (.repeatStart id p k) = none)
    (hf : mark f = some a) (h : Unwinds b st caps (f :: base) caps') :
    Stack.popResume (st.voidTo mark).2 caps = Stack.popResume base caps' := by
  generalize hst : f :: base = dest at h
  induction h with
  | refl =>
    subst hst
    simp only [Stack.voidTo, hf]
    exact Stack.popResume_cons rfl rfl
  | @pop g st₁ st₂ st₃ caps₁ caps₂ caps₃ hg hu _ ih =>
    rw [← ih hst]
    simp only [Stack.voidTo, hm g hg]
    by_cases hres : g.isResume
    · rw [if_pos hres]
      obtain ⟨target, ht⟩ := Option.isSome_iff_exists.1 hres
      rw [Stack.isInert_of_resume ht] at hu
      cases hu
      exact Stack.popResume_cons rfl rfl
    · rw [if_neg hres]
      exact Stack.popResume_cons (by simpa [Frame.isResume] using hres) (Stack.undo_voidTo hr hu)

/-- 目印まで外す。 -/
theorem popThrough {mark : Frame → Bool} (hm : ∀ g, g.Settled b → mark g = false)
    (hf : mark f = true) (h : Unwinds b st caps (f :: base) caps') :
    Stack.popThrough mark st caps = ⟨base, caps', .ok ()⟩ := by
  generalize hst : f :: base = dest at h
  induction h with
  | refl =>
    subst hst
    rw [Stack.popThrough, if_pos hf]
  | pop hg hu _ ih =>
    rw [Stack.popThrough_cons (by rw [hm _ hg]; exact Bool.false_ne_true) hu]
    exact ih hst

end Unwinds

/-! ## 積み重ねの高さ -/

/-- ある命令に着いたときの積み重ねと、そこで成り立つ捕獲。 -/
structure Level where
  stack : Stack
  garbage : Garbage
  caps : Captures

namespace Level

/-- 機械の捕獲が、決まっている端で一致する。 -/
def Fits (l : Level) (caps : Captures) : Prop := caps.Agree l.garbage l.caps

/-- `hi` は `lo` の上に枠を積んだもので、外せば `lo` の捕獲に戻る。 -/
structure Over (b : Counters) (hi lo : Level) : Prop where
  above : ∃ above, hi.stack = above ++ lo.stack ∧ ∀ f ∈ above, f.Settled b
  unwinds : ∀ caps, hi.Fits caps → ∃ caps', lo.Fits caps' ∧ Unwinds b hi.stack caps lo.stack caps'

namespace Over

variable {b b' : Counters} {hi mid lo : Level}

theorem refl (l : Level) : l.Over b l :=
  ⟨⟨[], rfl, fun _ h => by cases h⟩, fun caps h => ⟨caps, h, .refl⟩⟩

theorem trans (h : hi.Over b mid) (h' : mid.Over b lo) : hi.Over b lo := by
  obtain ⟨xs, hx, hxs⟩ := h.above
  obtain ⟨ys, hy, hys⟩ := h'.above
  refine ⟨⟨xs ++ ys, by rw [hx, hy, List.append_assoc], fun f hf => ?_⟩, fun caps hc => ?_⟩
  · rcases List.mem_append.1 hf with hf | hf
    · exact hxs f hf
    · exact hys f hf
  · obtain ⟨caps', hc', hu⟩ := h.unwinds caps hc
    obtain ⟨caps'', hc'', hu'⟩ := h'.unwinds caps' hc'
    exact ⟨caps'', hc'', hu.trans hu'⟩

theorem mono (hb : b'.Extends b) (h : hi.Over b lo) : hi.Over b' lo := by
  obtain ⟨xs, hx, hxs⟩ := h.above
  refine ⟨⟨xs, hx, fun f hf => (hxs f hf).mono hb⟩, fun caps hc => ?_⟩
  obtain ⟨caps', hc', hu⟩ := h.unwinds caps hc
  exact ⟨caps', hc', hu.mono hb⟩

/-- 枠を積まずに、決まっている端だけが変わる。 -/
theorem same {st : Stack} {K K' : Garbage} {c c' : Captures}
    (h : ∀ caps : Captures, caps.Agree K c → caps.Agree K' c') : Over b ⟨st, K, c⟩ ⟨st, K', c'⟩ :=
  ⟨⟨[], rfl, fun _ h => by cases h⟩, fun caps hc => ⟨caps, h caps hc, .refl⟩⟩

/-- 枠を一つ積む。 -/
theorem push {f : Frame} {st : Stack} {K K' : Garbage} {c c' : Captures} (hf : f.Settled b)
    (h : ∀ caps : Captures, caps.Agree K c →
      ∃ caps' : Captures, caps'.Agree K' c' ∧ Stack.undo f st caps = some (st, caps')) :
    Over b ⟨f :: st, K, c⟩ ⟨st, K', c'⟩ := by
  refine ⟨⟨[f], rfl, fun g hg => by cases List.mem_singleton.1 hg; exact hf⟩, fun caps hc => ?_⟩
  obtain ⟨caps', hc', hu⟩ := h caps hc
  exact ⟨caps', hc', .pop hf hu .refl⟩

theorem push_inert {f : Frame} {st : Stack} {K : Garbage} {c : Captures} (hf : f.Settled b)
    (hi : Stack.IsInert f) : Over b ⟨f :: st, K, c⟩ ⟨st, K, c⟩ :=
  push hf fun caps hc => ⟨caps, hc, hi st caps⟩

end Over
end Level
end MultibyteRegex

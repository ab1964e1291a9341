import MultibyteRegex.Machine.Step

/-!
# 目印の入れ子

括弧や輪の内側を実行しているあいだ、その目印は積み重ねの中に内から順に残る。輪を抜けた後の目印は
残るが、内側にいる輪の目印より上に同じ番号のものはない。
-/

namespace MultibyteRegex

/-- 開いている括弧や輪の種類。 -/
inductive Opener
  | ahead
  | atomic
  | posNot
  | behindNot
  | nullCheck (id : Nat)
  | counter (id : Nat)
  deriving DecidableEq

namespace Opener

/-- 輪の目印は、輪を抜けた後も残る。 -/
def isLoop : Opener → Bool
  | .nullCheck _ => true
  | .counter _ => true
  | _ => false

end Opener

/-- 目印の枠が示す、開いている括弧や輪。 -/
def Frame.opener? : Frame → Option Opener
  | .posNot .. => some .posNot
  | .behindNot .. => some .behindNot
  | .repeatStart id .. => some (.counter id)
  | .ahead _ => some .ahead
  | .atomic => some .atomic
  | .nullCheck id .. => some (.nullCheck id)
  | _ => none

namespace Instruction

/-- 命令が開く括弧や輪。 -/
def opens? : Instruction → Option Opener
  | .repeatStart id .. => some (.counter id)
  | .nullCheckStart id _ => some (.nullCheck id)
  | .pushPos => some .ahead
  | .pushPosNot _ => some .posNot
  | .pushAtomic => some .atomic
  | .pushLookBehindNot .. => some .behindNot
  | _ => none

/-- 命令が閉じる括弧や輪。 -/
def closes? : Instruction → Option Opener
  | .repeatNext id _ => some (.counter id)
  | .nullCheckEnd id _ => some (.nullCheck id)
  | .popPos => some .ahead
  | .failPos => some .posNot
  | .popAtomic => some .atomic
  | .failLookBehindNot => some .behindNot
  | _ => none

/-- 命令を一つ過ぎたときに開いている括弧や輪。 -/
def scope (i : Instruction) (os : List Opener) : List Opener :=
  match i.opens? with
  | some o => o :: os
  | none => if i.closes?.isSome then os.tail else os

end Instruction

/-- `pc` の命令を囲む括弧や輪を、内から順に並べる。 -/
def Program.scopeAt (p : Program) (pc : Nat) : List Opener :=
  (p.code.toList.take pc).foldl (fun os i => i.scope os) []

/-- 抜けた輪の目印として残ってよい。まだ内側にいる輪のものは残らない。 -/
def Opener.Leaves (o : Opener) (ms : List Frame) : Prop :=
  o.isLoop ∧ ∀ f ∈ ms, f.opener? ≠ some o

/-- 積み重ねの中に、目印 `ms` が内から順に並ぶ。 -/
inductive Nested : List Frame → Stack → Prop
  | nil : Nested [] []
  | keep {f o ms st} : f.opener? = some o → Nested ms st → Nested (f :: ms) (f :: st)
  | skip {f ms st} : (∀ o, f.opener? = some o → o.Leaves ms) → Nested ms st → Nested ms (f :: st)

theorem Opener.Leaves.tail {o : Opener} {f : Frame} {ms : List Frame} (h : o.Leaves (f :: ms)) :
    o.Leaves ms := ⟨h.1, fun g hg => h.2 g (List.mem_cons_of_mem _ hg)⟩

theorem Opener.Leaves.replace {o : Opener} {f g : Frame} {ms : List Frame} (h : o.Leaves (f :: ms))
    (hg : g.opener? = f.opener?) : o.Leaves (g :: ms) :=
  ⟨h.1, List.forall_mem_cons.2 ⟨hg ▸ (List.forall_mem_cons.1 h.2).1, (List.forall_mem_cons.1 h.2).2⟩⟩

namespace Nested

variable {f g : Frame} {o : Opener} {ms : List Frame} {st above below : Stack}

/-- 目印でない枠は、いくら積んでもよい。 -/
theorem plain (h : Nested ms st) (hf : f.opener? = none) : Nested ms (f :: st) :=
  .skip (fun o ho => by rw [hf] at ho; cases ho) h

/-- 最も内側の目印より上に、同じ種類の目印はない。 -/
theorem split (h : Nested (f :: ms) st) (hf : f.opener? = some o) :
    ∃ above below, st = above ++ f :: below ∧ (∀ g ∈ above, g.opener? ≠ some o) ∧
      (∀ g ∈ above, ∀ p, g.opener? = some p → p.Leaves (f :: ms)) ∧ Nested ms below := by
  generalize hms : f :: ms = fs at h
  induction h with
  | nil => cases hms
  | keep _ hs =>
    cases hms
    exact ⟨[], _, rfl, by simp, by simp, hs⟩
  | @skip g fs st hg hs ih =>
    subst hms
    obtain ⟨above, below, rfl, hne, hl, hb⟩ := ih rfl
    refine ⟨g :: above, below, rfl, List.forall_mem_cons.2 ⟨fun hgo => ?_, hne⟩,
      List.forall_mem_cons.2 ⟨hg, hl⟩, hb⟩
    exact (hg o hgo).2 f List.mem_cons_self hf

theorem append (ha : ∀ g ∈ above, ∀ p, g.opener? = some p → p.Leaves ms) (h : Nested ms below) :
    Nested ms (above ++ below) := by
  induction above with
  | nil => exact h
  | cons g above ih =>
    obtain ⟨hg, ha⟩ := List.forall_mem_cons.1 ha
    exact .skip hg (ih ha)

/-- 輪を抜けると、その目印は残りものになる。 -/
theorem leave (h : Nested (f :: ms) st) (hf : f.opener? = some o) (ho : o.Leaves ms) :
    Nested ms st := by
  obtain ⟨above, below, rfl, _, hl, hb⟩ := h.split hf
  refine append (fun g hg p hp => (hl g hg p hp).tail) (.skip (fun p hp => ?_) hb)
  cases hf.symm.trans hp
  exact ho

end Nested

/-! ## 積み重ねの操作 -/

namespace Stack

variable {st st' above below : Stack}

theorem findRepeat?_append {id b k : Nat}
    (h : ∀ f ∈ above, f.opener? ≠ some (.counter id)) :
    findRepeat? id (above ++ .repeatStart id b k :: below) = some below.length := by
  induction above with
  | nil => simp [findRepeat?]
  | cons f above ih =>
    have hf := h f List.mem_cons_self
    have ih := ih fun g hg => h g (List.mem_cons_of_mem _ hg)
    rw [List.cons_append]
    cases f with
    | repeatStart i b' k' =>
      have hi : i ≠ id := fun he => hf (by rw [he]; rfl)
      simp [findRepeat?, hi, ih]
    | _ => simpa [findRepeat?] using ih

theorem findNullCheck?_append {id pos : Nat} {snap : Option Captures}
    (h : ∀ f ∈ above, f.opener? ≠ some (.nullCheck id)) :
    findNullCheck? id (above ++ .nullCheck id pos snap :: below) = some (pos, snap) := by
  induction above with
  | nil => simp [findNullCheck?]
  | cons f above ih =>
    have hf := h f List.mem_cons_self
    have ih := ih fun g hg => h g (List.mem_cons_of_mem _ hg)
    rw [List.cons_append]
    cases f with
    | nullCheck i p s =>
      have hi : i ≠ id := fun he => hf (by rw [he]; rfl)
      simp [findNullCheck?, hi, ih]
    | _ => simpa [findNullCheck?] using ih

theorem depthOf?_append (above : Stack) (f : Frame) (below : Stack) :
    (above ++ f :: below).depthOf? below.length = some above.length := by
  have h : below.length < (above ++ f :: below).length := by simp; omega
  rw [depthOf?, if_pos h, List.length_append, List.length_cons]
  congr 1
  omega

theorem repeatAt?_append (above : Stack) (id b k : Nat) (below : Stack) :
    (above ++ .repeatStart id b k :: below).repeatAt? below.length = some (b, k) := by
  simp [repeatAt?, depthOf?_append]

theorem setCount?_append (above : Stack) (id b k : Nat) (below : Stack) (f : Nat → Nat) :
    (above ++ .repeatStart id b k :: below).setCount? below.length f =
      some (above ++ .repeatStart id b (f k) :: below) := by
  simp [setCount?, depthOf?_append]

/-- 書き換えられる番号には、数える繰り返しの枠がある。 -/
theorem setCount?_eq_some {index : Nat} {g : Nat → Nat} (h : st.setCount? index g = some st') :
    ∃ above id b k below, st = above ++ .repeatStart id b k :: below ∧ below.length = index ∧
      st' = above ++ .repeatStart id b (g k) :: below := by
  unfold setCount? depthOf? at h
  split at h
  · cases h
  · rename_i depth hd
    split at hd
    · rename_i hlt
      cases hd
      split at h
      · rename_i id b k hf
        cases h
        obtain ⟨hl, hf⟩ := List.getElem?_eq_some_iff.1 hf
        have hsplit := List.take_append_drop (st.length - 1 - index) st
        rw [List.drop_eq_getElem_cons hl, hf] at hsplit
        refine ⟨_, id, b, k, _, hsplit.symm, ?_, ?_⟩
        · rw [List.length_drop]
          omega
        · rw [List.set_eq_take_append_cons_drop, if_pos hl]
      · cases h
    · cases hd

end Stack
end MultibyteRegex

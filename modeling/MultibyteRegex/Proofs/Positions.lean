import MultibyteRegex.Proofs.Safety

/-!
# 機械の持つ位置

今の位置と、積み重ねに控えた位置と、捕獲の両端は、どれも照合の途中で着いた位置である。命令の一つずつが保つ
性質は、照合のあいだ、そのすべてが満たす。
-/

namespace MultibyteRegex

/-- 捕獲の両端が `P` を満たす。 -/
structure Slot.At (P : Nat → Prop) (s : Slot) : Prop where
  start : ∀ p ∈ s.start, P p
  stop : ∀ p ∈ s.stop, P p

def Captures.At (P : Nat → Prop) (caps : Captures) : Prop := ∀ s ∈ caps, s.At P

/-- 枠の控えた位置のうち、後で戻りうるものが `P` を満たす。 -/
def Frame.At (P : Nat → Prop) : Frame → Prop
  | .alt _ pos => P pos
  | .posNot _ pos => P pos
  | .behindNot _ pos => P pos
  | .ahead pos => P pos
  | .memStart _ prior => prior.At P
  | .memEnd _ prior => ∀ p ∈ prior, P p
  | _ => True

def Stack.At (P : Nat → Prop) (st : Stack) : Prop := ∀ f ∈ st, f.At P

/-- 機械の持つ位置が、どれも `P` を満たす。 -/
structure Registers.At (P : Nat → Prop) (r : Registers) : Prop where
  pos : P r.pos
  caps : r.caps.At P
  stack : Stack.At P r.stack

def Move.At (P : Nat → Prop) : Except EvalError Move → Prop
  | .ok (.go r) => r.At P
  | .ok (.fail r) => r.At P
  | _ => True

def Progress.At (P : Nat → Prop) : Except EvalError Progress → Prop
  | .ok (.running r) => r.At P
  | _ => True

/-- 命令が位置を動かすとき、動いた先も `P` を満たす。 -/
def Instruction.Keeps (m : Matcher) (P : Nat → Prop) : Instruction → Prop
  | .anyStar .. => ∀ s, s < m.text.size → P s → P (m.encoding.nextHead m.text s)
  | .pushLookBehindNot _ chars => ∀ s p, m.encoding.stepBack m.text 0 s chars = some p → P s → P p
  | i => i.isLeaf → ∀ caps s t, m.leafEnd? i caps s = some t → Captures.At P caps → P s → P t

variable {P : Nat → Prop}

namespace Captures.At

variable {caps : Captures} {n pos : Nat} {s : Slot}

theorem set (h : caps.At P) (hs : s.At P) : Captures.At P (caps.setIfInBounds n s) := by
  intro s' hs'
  rcases Array.mem_or_eq_of_mem_setIfInBounds hs' with hs' | rfl
  · exact h s' hs'
  · exact hs

theorem fresh (groups : Nat) : Captures.At P (.fresh groups) := by
  intro s hs
  rw [(Array.mem_replicate.1 hs).2]
  constructor <;> rintro p ⟨⟩

theorem modify {stop : Option Nat} (h : caps.At P) (hs : ∀ p ∈ stop, P p) :
    Captures.At P (caps.modify n fun s => { s with stop }) := by
  intro s' hs'
  obtain ⟨i, hi, rfl⟩ := Array.mem_iff_getElem.1 hs'
  have hlt : i < caps.size := by simpa using hi
  have hget := h caps[i] (Array.getElem_mem hlt)
  rw [Array.getElem_modify]
  split
  · exact ⟨hget.start, hs⟩
  · exact hget

end Captures.At

namespace Stack.At

variable {st st' : Stack} {caps caps' : Captures} {f : Frame}

theorem cons (hf : f.At P) (h : Stack.At P st) : Stack.At P (f :: st) := List.forall_mem_cons.2 ⟨hf, h⟩

/-- 回数だけを書き換える。 -/
theorem setCount {index : Nat} {g : Nat → Nat} (h : Stack.At P st) (hs : st.setCount? index g = some st') :
    Stack.At P st' := by
  obtain ⟨above, id, b, k, below, rfl, rfl, rfl⟩ := setCount?_eq_some hs
  intro f hf
  rcases List.mem_append.1 hf with hf | hf
  · exact h f (List.mem_append_left _ hf)
  · rcases List.mem_cons.1 hf with rfl | hf
    · exact trivial
    · exact h f (List.mem_append_right _ (List.mem_cons_of_mem _ hf))

theorem undo (hf : f.At P) (h : Stack.At P st) (hc : caps.At P)
    (hu : Stack.undo f st caps = some (st', caps')) : Stack.At P st' ∧ caps'.At P := by
  unfold Stack.undo at hu
  split at hu
  · split at hu <;> cases hu
    exact ⟨h, hc.set hf⟩
  · split at hu <;> cases hu
    exact ⟨h, hc.modify hf⟩
  · obtain ⟨s, hs, he⟩ := Option.map_eq_some_iff.1 hu
    cases he
    exact ⟨h.setCount hs, hc⟩
  · cases hu
    exact ⟨h, hc⟩

theorem resume {pc pos : Nat} (hf : f.At P) (h : f.resume? = some (pc, pos)) : P pos := by
  cases f <;> cases h <;> exact hf

theorem popResume (h : Stack.At P st) (hc : caps.At P) :
    Stack.At P (st.popResume caps).stack ∧ (st.popResume caps).caps.At P ∧
      ∀ pc pos, (st.popResume caps).result = .ok (some (pc, pos)) → P pos := by
  fun_induction Stack.popResume st caps with
  | case1 caps => exact ⟨h, hc, fun _ _ he => by cases he⟩
  | case2 caps f st target ht =>
    obtain ⟨hf, h⟩ := List.forall_mem_cons.1 h
    exact ⟨h, hc, fun _ _ he => by cases he; exact resume hf ht⟩
  | case3 caps f st hn st' caps' hu ih =>
    obtain ⟨hf, h⟩ := List.forall_mem_cons.1 h
    obtain ⟨h, hc⟩ := undo hf h hc hu
    exact ih h hc
  | case4 caps f st hn hu =>
    exact ⟨(List.forall_mem_cons.1 h).2, hc, fun _ _ he => by cases he⟩

theorem popThrough {mark : Frame → Bool} (h : Stack.At P st) (hc : caps.At P) :
    Stack.At P (st.popThrough mark caps).stack ∧ (st.popThrough mark caps).caps.At P := by
  fun_induction Stack.popThrough mark st caps with
  | case1 caps => exact ⟨h, hc⟩
  | case2 caps f st hm => exact ⟨(List.forall_mem_cons.1 h).2, hc⟩
  | case3 caps f st hm st' caps' hu ih =>
    obtain ⟨hf, h⟩ := List.forall_mem_cons.1 h
    obtain ⟨h, hc⟩ := undo hf h hc hu
    exact ih h hc
  | case4 caps f st hm hu => exact ⟨(List.forall_mem_cons.1 h).2, hc⟩

theorem voidTo {α : Type} {mark : Frame → Option α} {found : Option α} (h : Stack.At P st)
    (he : st.voidTo mark = (found, st')) :
    Stack.At P st' ∧ ∀ a, found = some a → ∃ f ∈ st, mark f = some a := by
  fun_induction Stack.voidTo mark st generalizing st' found with
  | case1 =>
    cases he
    exact ⟨h, fun _ ha => by cases ha⟩
  | case2 f st a hm =>
    cases he
    refine ⟨cons trivial (List.forall_mem_cons.1 h).2, fun _ ha => ?_⟩
    cases ha
    exact ⟨f, List.mem_cons_self, hm⟩
  | case3 f st hm found st' hv ih =>
    cases he
    obtain ⟨hf, h⟩ := List.forall_mem_cons.1 h
    obtain ⟨h, hfound⟩ := ih h hv
    refine ⟨cons ?_ h, fun a ha => ?_⟩
    · split
      · exact trivial
      · exact hf
    · obtain ⟨g, hg, hm⟩ := hfound a ha
      exact ⟨g, List.mem_cons_of_mem _ hg, hm⟩

theorem voidToPos {pos : Nat} (h : Stack.At P st) (he : st.voidToPos = (some pos, st')) :
    Stack.At P st' ∧ P pos := by
  obtain ⟨hst, hfound⟩ := voidTo h he
  obtain ⟨f, hf, hm⟩ := hfound pos rfl
  have hpos := h f hf
  cases f <;> cases hm
  exact ⟨hst, hpos⟩

end Stack.At

namespace Matcher

section

variable {m : Matcher} {origin : Nat} {r : Registers} {i : Instruction}

theorem at_push {f : Frame} {k : Registers → Except EvalError Move}
    (h : Move.At P (k { r with stack := f :: r.stack })) : Move.At P (m.push r f >>= k) := by
  rcases m.push_eq r f with hp | ⟨hp, -⟩ <;> rw [hp]
  · exact h
  · exact trivial

theorem at_target {addr : Int} {k : Nat → Except EvalError Move} (h : ∀ t, Move.At P (k t)) :
    Move.At P (r.target addr >>= k) := by
  cases r.target addr with
  | error e => exact trivial
  | ok t => exact h t

variable (hr : r.At P)
include hr

theorem at_go (pc : Nat) : Registers.At P { r with pc } := ⟨hr.pos, hr.caps, hr.stack⟩

/-- 今の位置を控えて枠を積む。 -/
theorem at_mark {f : Frame} (pc : Nat) (hf : f.At P) : Registers.At P { r with pc, stack := f :: r.stack } :=
  ⟨hr.pos, hr.caps, hr.stack.cons hf⟩

theorem anyStar_at {newline : Bool} {peek : Option UInt8}
    (hi : ∀ s, s < m.text.size → P s → P (m.encoding.nextHead m.text s)) :
    Move.At P (m.anyStar newline peek r) := by
  fun_induction anyStar m newline peek r with
  | case1 r hp b pushed e he => exact trivial
  | case2 r hp b pushed r' he hb =>
    unfold pushed at he
    split at he
    · rcases m.push_eq r (.alt (r.pc + 1) r.pos) with hp | ⟨hp, -⟩ <;> rw [hp] at he <;> cases he
      exact at_mark hr _ hr.pos
    · cases he
      exact hr
  | case3 r hp b pushed r' he hb ih =>
    unfold pushed at he
    split at he
    · rcases m.push_eq r (.alt (r.pc + 1) r.pos) with hp | ⟨hp, -⟩ <;> rw [hp] at he <;> cases he
      exact ih ⟨hi _ ‹_› hr.pos, hr.caps, hr.stack.cons hr.pos⟩
    · cases he
      exact ih ⟨hi _ hp hr.pos, hr.caps, hr.stack⟩
  | case4 r hp => exact at_go hr _

theorem memStart_at {n : Nat} {undo : Bool} : Move.At P (m.memStart n undo r) := by
  unfold memStart
  split
  · exact trivial
  · rename_i prior hprior
    have hslot := hr.caps prior (Array.mem_of_getElem? hprior)
    cases undo with
    | false =>
      exact ⟨hr.pos, hr.caps.set ⟨fun p hp => by cases hp; exact hr.pos, hslot.stop⟩, hr.stack⟩
    | true =>
      exact at_push ⟨hr.pos, hr.caps.set ⟨fun p hp => by cases hp; exact hr.pos, fun p hp => by cases hp⟩,
        hr.stack.cons hslot⟩

theorem memEnd_at {n : Nat} {undo : Bool} : Move.At P (m.memEnd n undo r) := by
  unfold memEnd
  split
  · exact trivial
  · rename_i prior hprior
    have hslot := hr.caps prior (Array.mem_of_getElem? hprior)
    have hset := hr.caps.set (n := n) (s := ⟨prior.start, some r.pos⟩)
      ⟨hslot.start, fun p hp => by cases hp; exact hr.pos⟩
    cases undo with
    | false => exact ⟨hr.pos, hset, hr.stack⟩
    | true => exact at_push ⟨hr.pos, hset, hr.stack.cons hslot.stop⟩

theorem repeatStart_at {id : Nat} {addr : Int} {greedy : Bool} :
    Move.At P (m.repeatStart id addr greedy r) := by
  unfold repeatStart
  split
  · exact trivial
  · refine at_target fun t => at_push ?_
    have hmark := at_mark hr (f := .repeatStart id (r.pc + 1) 0) r.pc trivial
    split
    · exact at_go hmark _
    · split
      · exact at_push (at_mark hmark _ hr.pos)
      · exact at_push (at_mark hmark _ hr.pos)

theorem repeatNext_at {id : Nat} {greedy : Bool} : Move.At P (m.repeatNext id greedy r) := by
  unfold repeatNext
  split
  · exact trivial
  · split
    · exact trivial
    · split
      · rename_i body prior stack _ hset
        have hr' : Registers.At P { r with stack } := ⟨hr.pos, hr.caps, hr.stack.setCount hset⟩
        have hnext {r' : Registers} (hr : r'.At P) (index pc : Nat) :
            Registers.At P { r' with pc, stack := .repeatNext index :: r'.stack } := at_mark hr pc trivial
        dsimp only
        split
        · split
          · refine at_push (at_push ?_)
            split
            · exact hnext (at_mark hr' (f := .alt (r.pc + 1) r.pos) r.pc hr.pos) _ _
            · exact hnext (at_mark hr' (f := .alt (r.pc + 1) r.pos) r.pc hr.pos) _ _
          · refine at_push ?_
            split
            · exact hnext hr' _ _
            · exact hnext hr' _ _
        · split
          · refine at_push ?_
            split
            · exact at_push (at_mark (hnext hr' _ r.pc) _ hr.pos)
            · exact hnext hr' _ _
          · split
            · exact at_push (hnext hr' _ _)
            · exact at_go hr' _
      · exact trivial

theorem nullCheckEnd_at {id : Nat} {captures : Bool} : Move.At P (m.nullCheckEnd id captures r) := by
  unfold nullCheckEnd
  split
  · exact trivial
  · rename_i start snapshot _
    dsimp only
    repeat' split
    all_goals first | exact trivial | exact at_go hr _

theorem failThrough_at {mark : Frame → Bool} : Move.At P (failThrough mark r) := by
  have hpop : Stack.At P (r.stack.popThrough mark r.caps).stack ∧ (r.stack.popThrough mark r.caps).caps.At P :=
    hr.stack.popThrough hr.caps
  unfold failThrough
  dsimp only
  split
  · exact ⟨hr.pos, hpop.2, hpop.1⟩
  · exact trivial

theorem accept_at : Move.At P (.ok (m.accept origin r)) := by
  unfold accept
  dsimp only
  repeat' split
  all_goals first | exact trivial | exact ⟨hr.pos, hr.caps, hr.stack⟩

/-- 命令を一つ実行しても、位置はどれも `P` を満たす。 -/
theorem execute_at (hi : i.Keeps m P) : Move.At P (m.execute origin i r) := by
  by_cases hl : i.isLeaf
  · rw [execute_leaf hl]
    have hkeep : ∀ caps s t, m.leafEnd? i caps s = some t → Captures.At P caps → P s → P t := by
      cases i <;> first | exact hi hl | cases hl
    cases hp : m.leafEnd? i r.caps r.pos with
    | none => exact hr
    | some p => exact ⟨hkeep _ _ _ hp hr.caps hr.pos, hr.caps, hr.stack⟩
  · cases i with
    | accept => exact accept_at hr
    | anyStar newline peek => exact anyStar_at hr hi
    | memStart n undo => exact memStart_at hr
    | memEnd n undo => exact memEnd_at hr
    | jump addr => exact at_target fun t => at_go hr t
    | push addr => exact at_target fun t => at_push (at_mark hr _ hr.pos)
    | pushOrJump addr b =>
      refine at_target fun t => ?_
      split
      · exact at_push (at_mark hr _ hr.pos)
      · exact at_go hr t
    | pushIfPeek addr b =>
      simp only [execute]
      split
      · exact at_target fun t => at_push (at_mark hr _ hr.pos)
      · exact at_go hr _
    | repeatStart id addr greedy => exact repeatStart_at hr
    | repeatNext id greedy => exact repeatNext_at hr
    | nullCheckStart id captures => exact at_push (at_mark hr _ trivial)
    | nullCheckEnd id captures => exact nullCheckEnd_at hr
    | pushPos => exact at_push (at_mark hr _ hr.pos)
    | popPos =>
      simp only [execute]
      split
      · rename_i pos stack he
        obtain ⟨hst, hpos⟩ := hr.stack.voidToPos he
        exact ⟨hpos, hr.caps, hst⟩
      · exact trivial
    | pushPosNot addr => exact at_target fun t => at_push (at_mark hr _ hr.pos)
    | failPos => exact failThrough_at hr
    | pushAtomic => exact at_push (at_mark hr _ trivial)
    | popAtomic =>
      simp only [execute]
      split
      · rename_i stack he
        exact ⟨hr.pos, hr.caps, (hr.stack.voidTo he).1⟩
      · exact trivial
    | pushLookBehindNot addr chars =>
      refine at_target fun t => ?_
      split
      · rename_i p hp
        exact at_push ⟨hi _ _ hp hr.pos, hr.caps, hr.stack.cons hr.pos⟩
      · exact at_go hr t
    | failLookBehindNot => exact failThrough_at hr
    | _ => exact absurd rfl hl

theorem backtrack_at : Progress.At P (m.backtrack r) := by
  obtain ⟨hstack, hcaps, hpos⟩ := hr.stack.popResume hr.caps
  unfold backtrack
  dsimp only
  split
  · exact trivial
  · split <;> exact trivial
  · rename_i pc pos he
    split
    · exact trivial
    · exact ⟨hpos pc pos he, hcaps, hstack⟩

theorem step_at (hm : ∀ i ∈ m.program.code, i.Keeps m P) : Progress.At P (m.step origin r) := by
  unfold step
  cases hi : m.program.code[r.pc]? with
  | none => exact trivial
  | some i =>
    have hmove : Move.At P (m.execute origin i r) := execute_at hr (hm i (Array.mem_of_getElem? hi))
    dsimp only
    cases hx : m.execute origin i r with
    | error e => exact trivial
    | ok v =>
      rw [hx] at hmove
      cases v with
      | go r => exact hmove
      | fail r => exact backtrack_at hmove
      | stop v => exact trivial
      | abort => exact trivial

end

/-- 着く状態の位置は、どれも `P` を満たす。 -/
theorem Reachable.positions {m : Matcher} {origin : Nat} {r : Registers} (hm : ∀ i ∈ m.program.code, i.Keeps m P)
    (ho : P origin) (h : m.Reachable origin r) : r.At P := by
  induction h with
  | start => exact ⟨ho, .fresh _, fun f hf => by cases hf⟩
  | @step r r' _ hs ih =>
    have hstep : Progress.At P (m.step origin r) := step_at ih hm
    rw [hs] at hstep
    exact hstep

end Matcher
end MultibyteRegex

import MultibyteRegex.Proofs.Leaf
import MultibyteRegex.Proofs.Backtrack

/-!
# 命令ごとの約束と、一歩の健全性

命令の一つずつに、目印と位置についての約束を付ける。どの命令も約束から次の約束へ進むなら、機械は
約束の中だけを動き、上限の他の誤りで止まらない。
-/

namespace MultibyteRegex

/-- 関係 `R` を `k` 回たどる。 -/
def Iterated (R : Nat → Nat → Prop) : Nat → Nat → Nat → Prop
  | 0, s, t => s = t
  | k + 1, s, t => ∃ u, R s u ∧ Iterated R k u t

/-- 積み重ねに触れない命令が、`s` から `t` へ進める。 -/
def Matcher.Passes (m : Matcher) (i : Instruction) (s t : Nat) : Prop :=
  ∃ caps : Captures, caps.size = m.program.groups + 1 ∧ m.leafEnd? i caps s = some t

/-- 照合の終わりの位置の約束と、後読みで戻る命令に着いたときの約束。 -/
structure Promise where
  accept : Nat → Prop
  behind : Nat → Assertion

/-- 相対位置の指す命令の約束が成り立つ。 -/
def Reaches (T : Nat → Assertion) (pc : Nat) (addr : Int) (ms : List Frame) (pos : Nat) : Prop :=
  ∃ t : Nat, (t : Int) = pc + 1 + addr ∧ T t ms pos

/-- 空に合った本体を抜けて、輪を回す命令を飛ばせる。数える繰り返しなら、その目印も残りものになる。 -/
def Exits (T : Nat → Assertion) (pc : Nat) (ms : List Frame) (pos : Nat) : Prop :=
  T pc ms pos ∨ ∃ f o ms', ms = f :: ms' ∧ f.opener? = some o ∧ o.Leaves ms' ∧ T pc ms' pos

/-- `pc` の命令を実行できて、続く命令の約束が成り立つ。`Q` は、照合の終わりと後読みの約束である。 -/
def Instruction.Allows (m : Matcher) (Q : Promise) (T : Nat → Assertion) (pc : Nat)
    (ms : List Frame) (pos : Nat) : Instruction → Prop
  | .accept => Q.accept pos
  | .anyStar newline _ => ∀ k p, Iterated (m.Passes (.any newline)) k pos p → T (pc + 1) ms p
  | .memStart n _ => n ≤ m.program.groups ∧ T (pc + 1) ms pos
  | .memEnd n _ => n ≤ m.program.groups ∧ T (pc + 1) ms pos
  | .jump addr => Reaches T pc addr ms pos
  | .push addr => T (pc + 1) ms pos ∧ Reaches T pc addr ms pos
  | .pushOrJump addr _ => T (pc + 1) ms pos ∧ Reaches T pc addr ms pos
  | .pushIfPeek addr _ => T (pc + 1) ms pos ∧ Reaches T pc addr ms pos
  | .repeatStart id addr _ => ∃ lower upper, m.program.repeats[id]? = some (lower, upper) ∧
      (Opener.counter id).Leaves ms ∧ T (pc + 1) (.repeatStart id (pc + 1) 0 :: ms) pos ∧
      ∃ t : Nat, (t : Int) = pc + 1 + addr ∧ (lower = 0 → T t ms pos)
  | .repeatNext id _ => ∃ lower upper b k ms', m.program.repeats[id]? = some (lower, upper) ∧
      ms = .repeatStart id b k :: ms' ∧ (Opener.counter id).Leaves ms' ∧ (∀ u ∈ upper, k + 1 ≤ u) ∧
      ((∀ u ∈ upper, k + 1 < u) → T b (.repeatStart id b (k + 1) :: ms') pos) ∧
      (lower ≤ k + 1 ∨ upper = some (k + 1) → T (pc + 1) ms' pos)
  | .nullCheckStart id _ => ∀ snap, T (pc + 1) (.nullCheck id pos snap :: ms) pos
  | .nullCheckEnd id _ => ∃ start snap ms', ms = .nullCheck id start snap :: ms' ∧
      (Opener.nullCheck id).Leaves ms' ∧ T (pc + 1) ms' pos ∧
      (start = pos → (m.program.code[pc + 1]?).any Matcher.isLoopEnd ∧ Exits T (pc + 2) ms' pos)
  | .pushPos => T (pc + 1) (.ahead pos :: ms) pos
  | .popPos => ∃ p ms', ms = .ahead p :: ms' ∧ T (pc + 1) ms' p
  | .pushPosNot addr => ∃ t : Nat, (t : Int) = pc + 1 + addr ∧ T t ms pos ∧
      T (pc + 1) (.posNot t pos :: ms) pos
  | .failPos => ∃ t p ms', ms = .posNot t p :: ms'
  | .pushAtomic => T (pc + 1) (.atomic :: ms) pos
  | .popAtomic => ∃ ms', ms = .atomic :: ms' ∧ T (pc + 1) ms' pos
  | .pushLookBehindNot addr chars => ∃ t : Nat, (t : Int) = pc + 1 + addr ∧ T t ms pos ∧
      ∀ p, m.encoding.stepBack m.text 0 pos chars = some p → T (pc + 1) (.behindNot t pos :: ms) p
  | .failLookBehindNot => ∃ t p ms', ms = .behindNot t p :: ms'
  | .lookBehind chars => Q.behind pc ms pos ∧ ∀ p, m.Passes (.lookBehind chars) pos p → T (pc + 1) ms p
  | i => ∀ p, m.Passes i pos p → T (pc + 1) ms p

/-- 約束のある命令は必ずあり、続く命令の約束を守る。 -/
def Verified (m : Matcher) (Q : Promise) (T : Nat → Assertion) : Prop :=
  ∀ pc ms pos, T pc ms pos → ∃ i, m.program.code[pc]? = some i ∧ i.Allows m Q T pc ms pos

/-- 再開点の約束がすべて成り立ち、控えた照合は答えの約束を満たす。 -/
structure Resumable (m : Matcher) (Q : Promise) (T : Nat → Assertion) (origin : Nat)
    (r : Registers) : Prop where
  live : Live T (m.program.groups + 1) r.stack
  size_caps : r.caps.size = m.program.groups + 1
  best : ∀ l caps, r.best = some (l, caps) → ∃ p, Q.accept p ∧ origin ≤ p ∧ l = p - origin ∧
    caps[0]? = some ⟨some origin, some p⟩

/-- 今の命令の約束も成り立つ。 -/
structure Holds (m : Matcher) (Q : Promise) (T : Nat → Assertion) (origin : Nat)
    (r : Registers) : Prop extends Resumable m Q T origin r where
  now : ∃ ms, Nested ms r.stack ∧ T r.pc ms r.pos

/-- 照合の答えは、答えの約束を満たす位置で終わり、零番の捕獲がその範囲を覚える。 -/
def Verdict.Answers (Q : Promise) (origin : Nat) (v : Verdict) : Prop :=
  ∀ l, v.length = some l → ∃ p, Q.accept p ∧ origin ≤ p ∧ l = p - origin ∧
    v.caps[0]? = some ⟨some origin, some p⟩

/-- 答えの約束が、始まりより前の位置を許す。 -/
def Promise.Precedes (Q : Promise) (origin : Nat) : Prop := ∃ p < origin, Q.accept p

/-- 命令を一つ実行した後も約束の中にある。 -/
def Move.Sound (m : Matcher) (Q : Promise) (T : Nat → Assertion) (origin : Nat) :
    Except EvalError Move → Prop
  | .error e => e = .stackLimitExceeded ∧ m.limits.depth ≠ none
  | .ok (.go r) => Holds m Q T origin r
  | .ok (.fail r) => Resumable m Q T origin r
  | .ok (.stop v) => v.Answers Q origin
  | .ok .abort => Q.Precedes origin

namespace Matcher

variable {m : Matcher} {Q : Promise} {T : Nat → Assertion} {origin : Nat} {r : Registers}
  {ms : List Frame}

theorem push_eq (m : Matcher) (r : Registers) (f : Frame) :
    m.push r f = .ok { r with stack := f :: r.stack } ∨
      m.push r f = .error .stackLimitExceeded ∧ m.limits.depth ≠ none := by
  unfold push Stack.push
  split <;> rename_i h
  · split at h
    · cases h
    · cases h
      exact .inl rfl
  · split at h
    · rename_i hd
      cases h
      refine .inr ⟨rfl, fun hn => ?_⟩
      simp [hn] at hd
    · cases h

/-- 枠を積むと、上限に達するか、積んだ先が続く。 -/
theorem sound_push {f : Frame} {k : Registers → Except EvalError Move}
    (h : Move.Sound m Q T origin (k { r with stack := f :: r.stack })) :
    Move.Sound m Q T origin (m.push r f >>= k) := by
  rcases m.push_eq r f with hp | ⟨hp, hd⟩ <;> rw [hp]
  · exact h
  · exact ⟨rfl, hd⟩

theorem target_eq {addr : Int} {t : Nat} (h : (t : Int) = r.pc + 1 + addr) :
    r.target addr = .ok t := by
  unfold Registers.target
  dsimp only
  rw [← h, if_neg (by omega)]
  rfl

end Matcher

theorem Encoding.width_pos (e : Encoding) (b : UInt8) : 0 < e.width b := by
  unfold width
  cases e <;> dsimp only <;> repeat' split
  all_goals omega

theorem Encoding.lengthAt_pos (e : Encoding) {text : Text} {pos : Nat} (h : pos < text.size) :
    0 < e.lengthAt text pos := by
  have := e.width_pos text[pos]
  simp only [lengthAt, Array.getElem?_eq_getElem h]
  omega

theorem Encoding.lengthAt_ne_zero_iff {e : Encoding} {text : Text} {pos : Nat} :
    e.lengthAt text pos ≠ 0 ↔ pos < text.size := by
  refine ⟨fun h => Nat.lt_of_not_le fun hle => h ?_, fun h => Nat.ne_of_gt (e.lengthAt_pos h)⟩
  simp [lengthAt, Array.getElem?_eq_none hle]

theorem Encoding.nextHead_eq (e : Encoding) {text : Text} {pos : Nat} (h : pos < text.size) :
    e.nextHead text pos = pos + e.lengthAt text pos := by
  have := e.lengthAt_pos h
  unfold nextHead
  omega

namespace Resumable

variable {m : Matcher} {Q : Promise} {T : Nat → Assertion} {origin pc pos : Nat} {r : Registers}
  {ms : List Frame} {st : Stack}

theorem restack (h : Resumable m Q T origin r) (hl : Live T (m.program.groups + 1) st) :
    Resumable m Q T origin { r with stack := st } := ⟨hl, h.size_caps, h.best⟩

theorem goto (h : Resumable m Q T origin r) (hn : Nested ms r.stack) (hT : T pc ms pos) :
    Holds m Q T origin { r with pc, pos } := ⟨⟨h.live, h.size_caps, h.best⟩, ms, hn, hT⟩

/-- 目印の枠を積む。 -/
theorem mark {f : Frame} (h : Resumable m Q T origin r) (hf : f.resume? = none)
    (hi : Stack.IsInert f) : Resumable m Q T origin { r with stack := f :: r.stack } :=
  h.restack (h.live.inert hf hi)

/-- 分岐点を積む。 -/
theorem branch {f : Frame} (h : Resumable m Q T origin r) (hf : f.resume? = some (pc, pos))
    (hn : Nested ms r.stack) (hT : T pc ms pos) :
    Resumable m Q T origin { r with stack := f :: r.stack } :=
  h.restack (h.live.resume hf hn hT)

end Resumable

/-! ## 命令の一つずつ -/

namespace Matcher

section

variable {m : Matcher} {Q : Promise} {T : Nat → Assertion} {origin : Nat} {r : Registers}
  {ms : List Frame}

theorem passes_any {newline : Bool} {caps : Captures} {pos : Nat}
    (hc : caps.size = m.program.groups + 1) (hp : pos < m.text.size)
    (hb : ¬(!newline && m.text[pos] == 0x0a) = true) :
    m.Passes (.any newline) pos (m.encoding.nextHead m.text pos) := by
  refine ⟨caps, hc, ?_⟩
  rw [Encoding.nextHead_eq _ hp]
  simp only [leafEnd?, execute, Array.getElem?_eq_getElem hp]
  simp [hb, Move.consume, Registers.moveTo]

theorem anyStar_sound {newline : Bool} {peek : Option UInt8} (hr : Resumable m Q T origin r)
    (hn : Nested ms r.stack)
    (ha : ∀ k p, Iterated (m.Passes (.any newline)) k r.pos p → T (r.pc + 1) ms p) :
    Move.Sound m Q T origin (m.anyStar newline peek r) := by
  fun_induction anyStar m newline peek r with
  | case1 r hp b pushed e he =>
    unfold pushed at he
    split at he
    · rcases m.push_eq r (.alt (r.pc + 1) r.pos) with hp | ⟨hp, hd⟩ <;> rw [hp] at he <;> cases he
      exact ⟨rfl, hd⟩
    · cases he
  | case2 r hp b pushed r' he hb =>
    unfold pushed at he
    split at he
    · rcases m.push_eq r (.alt (r.pc + 1) r.pos) with hp | ⟨hp, -⟩ <;> rw [hp] at he <;> cases he
      exact hr.branch rfl hn (ha 0 _ rfl)
    · cases he
      exact hr
  | case3 r hp b pushed r' he hb ih =>
    have hs : m.Passes (.any newline) r.pos (m.encoding.nextHead m.text r.pos) :=
      passes_any hr.size_caps hp hb
    unfold pushed at he
    split at he
    · rcases m.push_eq r (.alt (r.pc + 1) r.pos) with hp | ⟨hp, -⟩ <;> rw [hp] at he <;> cases he
      have hb := hr.branch (f := .alt (r.pc + 1) r.pos) rfl hn (ha 0 _ rfl)
      exact ih ⟨hb.live, hb.size_caps, hb.best⟩ (hn.plain rfl) fun k p hk => ha (k + 1) p ⟨_, hs, hk⟩
    · cases he
      exact ih ⟨hr.live, hr.size_caps, hr.best⟩ hn fun k p hk => ha (k + 1) p ⟨_, hs, hk⟩
  | case4 r hp => exact hr.goto hn (ha 0 _ rfl)

theorem memStart_sound {n : Nat} {undo : Bool} (hr : Resumable m Q T origin r)
    (hn : Nested ms r.stack) (ha : n ≤ m.program.groups ∧ T (r.pc + 1) ms r.pos) :
    Move.Sound m Q T origin (m.memStart n undo r) := by
  have hlt : n < r.caps.size := by rw [hr.size_caps]; omega
  unfold memStart
  rw [Array.getElem?_eq_getElem hlt]
  dsimp only
  cases undo with
  | false =>
    exact ⟨⟨hr.live, by simpa [Registers.next] using hr.size_caps, hr.best⟩, ms, hn, ha.2⟩
  | true =>
    refine sound_push ?_
    refine ⟨⟨hr.live.memStart _ (by omega), ?_, hr.best⟩, ms, hn.plain rfl, ha.2⟩
    simpa [Registers.next] using hr.size_caps

theorem memEnd_sound {n : Nat} {undo : Bool} (hr : Resumable m Q T origin r)
    (hn : Nested ms r.stack) (ha : n ≤ m.program.groups ∧ T (r.pc + 1) ms r.pos) :
    Move.Sound m Q T origin (m.memEnd n undo r) := by
  have hlt : n < r.caps.size := by rw [hr.size_caps]; omega
  unfold memEnd
  rw [Array.getElem?_eq_getElem hlt]
  dsimp only
  cases undo with
  | false =>
    exact ⟨⟨hr.live, by simpa [Registers.next] using hr.size_caps, hr.best⟩, ms, hn, ha.2⟩
  | true =>
    refine sound_push ?_
    refine ⟨⟨hr.live.memEnd _ (by omega), ?_, hr.best⟩, ms, hn.plain rfl, ha.2⟩
    simpa [Registers.next] using hr.size_caps

theorem repeatStart_sound {id : Nat} {addr : Int} {greedy : Bool} (hr : Resumable m Q T origin r)
    (hn : Nested ms r.stack)
    (ha : (Instruction.repeatStart id addr greedy).Allows m Q T r.pc ms r.pos) :
    Move.Sound m Q T origin (m.repeatStart id addr greedy r) := by
  obtain ⟨lower, upper, hid, hleave, hbody, t, ht, hexit⟩ := ha
  unfold repeatStart
  rw [hid]
  dsimp only
  rw [target_eq ht]
  refine sound_push ?_
  have hm := hr.mark (f := .repeatStart id (r.pc + 1) 0) rfl fun _ _ => rfl
  have hn' : Nested (.repeatStart id (r.pc + 1) 0 :: ms) (.repeatStart id (r.pc + 1) 0 :: r.stack) :=
    .keep rfl hn
  split
  · exact hm.goto hn' hbody
  · rename_i hl
    have hexit := hexit (Classical.not_not.1 hl)
    have hout := hn'.leave rfl hleave
    split
    · refine sound_push ?_
      exact (hm.branch rfl hout hexit).goto (hn'.plain rfl) hbody
    · refine sound_push ?_
      exact (hm.branch rfl hn' hbody).goto (hout.plain rfl) hexit

theorem repeatNext_sound {id : Nat} {greedy : Bool} (hr : Resumable m Q T origin r)
    (hn : Nested ms r.stack) (ha : (Instruction.repeatNext id greedy).Allows m Q T r.pc ms r.pos) :
    Move.Sound m Q T origin (m.repeatNext id greedy r) := by
  obtain ⟨lower, upper, b, k, ms, hid, rfl, hleave, hu, hmore, hexit⟩ := ha
  obtain ⟨above, below, hst, hne, hl, hb⟩ := hn.split rfl
  have hl' := fun g hg p hp => (hl g hg p hp).tail
  have hold : Nested ms (above ++ .repeatStart id b k :: below) :=
    hst ▸ hn.leave (o := .counter id) rfl hleave
  have hin : Nested (.repeatStart id b (k + 1) :: ms) (above ++ .repeatStart id b (k + 1) :: below) :=
    .append (fun g hg p hp => (hl g hg p hp).replace rfl) (.keep rfl hb)
  have hout : Nested ms (above ++ .repeatStart id b (k + 1) :: below) := hin.leave rfl hleave
  have hlast : ¬upper.all (k + 1 < ·) = true → upper = some (k + 1) := by
    intro h
    cases upper with
    | none => exact absurd rfl h
    | some u =>
      have := hu u rfl
      simp only [Option.all_some, decide_eq_true_eq] at h
      congr 1
      omega
  replace hmore : upper.all (k + 1 < ·) = true → T b (.repeatStart id b (k + 1) :: ms) r.pos :=
    by
    intro h
    refine hmore fun u hu => ?_
    cases hu
    simpa using h
  have hlive := hst ▸ hr.live
  unfold repeatNext
  rw [hid, hst, Stack.findRepeat?_append hne]
  dsimp only
  rw [Stack.repeatAt?_append, Stack.setCount?_append]
  dsimp only
  split
  · split
    · rename_i hc
      simp only [Bool.and_eq_true, decide_eq_true_eq] at hc
      have hbr : Live T _ (.alt (r.pc + 1) r.pos :: (above ++ .repeatStart id b k :: below)) :=
        hlive.resume rfl hold (hexit (.inl hc.2))
      refine sound_push (sound_push ?_)
      have hb := hr.restack (hbr.repeatNext (.alt (r.pc + 1) r.pos :: above))
      rw [if_pos hc.1]
      exact hb.goto ((hin.plain rfl).plain rfl) (hmore hc.1)
    · refine sound_push ?_
      have hb := hr.restack (hlive.repeatNext above)
      split
      · rename_i hm
        exact hb.goto (hin.plain rfl) (hmore hm)
      · rename_i hm
        exact hb.goto (hout.plain rfl) (hexit (.inr (hlast hm)))
  · split
    · rename_i hm
      refine sound_push ?_
      have hb := hr.restack (hlive.repeatNext above)
      have hmore := hmore hm
      split
      · rename_i hle
        refine sound_push ?_
        exact (hb.branch rfl (hin.plain rfl) hmore).goto ((hout.plain rfl).plain rfl) (hexit (.inl hle))
      · exact hb.goto (hin.plain rfl) hmore
    · rename_i hm
      rw [if_pos (hlast hm)]
      refine sound_push ?_
      exact (hr.restack (hlive.repeatNext above)).goto (hout.plain rfl) (hexit (.inr (hlast hm)))

theorem nullCheckEnd_sound {id : Nat} {captures : Bool} (hr : Resumable m Q T origin r)
    (hn : Nested ms r.stack)
    (ha : (Instruction.nullCheckEnd id captures).Allows m Q T r.pc ms r.pos) :
    Move.Sound m Q T origin (m.nullCheckEnd id captures r) := by
  obtain ⟨start, snap, ms, rfl, hleave, hnext, hexit⟩ := ha
  obtain ⟨above, below, hst, hne, -, -⟩ := hn.split rfl
  have hout := hn.leave rfl hleave
  -- 捕獲まで比べるかどうかは、進む先に関わらない。
  have key (unchanged : Bool) : Move.Sound m Q T origin
      (if start == r.pos && unchanged then
        if (m.program.code[r.pc + 1]?).any isLoopEnd then .ok (.go (r.jump (r.pc + 2)))
        else .error .unexpectedBytecode
      else .ok (.go r.next)) := by
    split
    · rename_i hc
      simp only [Bool.and_eq_true, beq_iff_eq] at hc
      obtain ⟨hany, hexit⟩ := hexit hc.1
      rw [if_pos hany]
      rcases hexit with hexit | ⟨f, o, ms', rfl, hf, hleave, hexit⟩
      · exact hr.goto hout hexit
      · exact hr.goto (hout.leave hf hleave) hexit
    · exact hr.goto hout hnext
  unfold nullCheckEnd
  rw [hst, Stack.findNullCheck?_append hne]
  exact key _

/-- 否定の括弧の終わりは、その目印まで外してから失敗する。 -/
theorem failThrough_sound {mark : Frame → Bool} {f : Frame} {o : Opener}
    (hm : ∀ f, mark f → f.isResume) (hr : Resumable m Q T origin r) (hn : Nested (f :: ms) r.stack)
    (ho : f.opener? = some o) (hf : mark f) : Move.Sound m Q T origin (failThrough mark r) := by
  obtain ⟨above, below, hst, -⟩ := hn.split ho
  obtain ⟨hok, hsize, hlive⟩ := hr.live.popThrough hm hr.size_caps ⟨f, by simp [hst], hf⟩
  unfold failThrough
  dsimp only
  rw [hok]
  exact ⟨hlive, hsize, hr.best⟩

/-- 目印までを無効にしても、外側の目印も再開点の約束も変わらない。 -/
theorem voidTo_sound {α : Type} {mark : Frame → Option α} {f : Frame} {o : Opener} {a : α}
    (hi : ∀ g b, mark g = some b → g.opener? = some o ∧ Stack.IsInert g)
    (hc : ∀ id, o ≠ .counter id) (hr : Resumable m Q T origin r) (hn : Nested (f :: ms) r.stack)
    (ho : f.opener? = some o) (hf : mark f = some a) :
    ∃ st, r.stack.voidTo mark = (some a, st) ∧ Nested ms st ∧
      Resumable m Q T origin { r with stack := st } := by
  have hm (g : Frame) (hg : g.opener? ≠ some o) : mark g = none := by
    cases hb : mark g with
    | none => rfl
    | some b => exact absurd (hi g b hb).1 hg
  obtain ⟨above, below, hst, hne, hl, hb⟩ := hn.split ho
  have hv := Stack.voidTo_append below (fun g hg => hm g (hne g hg)) hf
  rw [← hst] at hv
  refine ⟨_, hv, .append (fun g hg p hp => ?_) (hb.plain rfl), ?_⟩
  · obtain ⟨g', hg', rfl⟩ := List.mem_map.1 hg
    split at hp
    · cases hp
    · exact (hl g' hg' p hp).tail
  · have hlive := hr.live.voidTo (fun g b hb => (hi g b hb).2) fun id b k =>
      hm _ fun he => hc id (Option.some.inj he).symm
    rw [hv] at hlive
    exact hr.restack hlive

theorem voidToPos_sound {p : Nat} (hr : Resumable m Q T origin r)
    (hn : Nested (.ahead p :: ms) r.stack) :
    ∃ st, r.stack.voidToPos = (some p, st) ∧ Nested ms st ∧
      Resumable m Q T origin { r with stack := st } := by
  unfold Stack.voidToPos
  refine voidTo_sound (o := .ahead) (fun g b hb => ?_) (fun _ => Opener.noConfusion) hr hn rfl rfl
  cases g <;> first | exact ⟨rfl, fun _ _ => rfl⟩ | cases hb

theorem voidToAtomic_sound (hr : Resumable m Q T origin r) (hn : Nested (.atomic :: ms) r.stack) :
    ∃ st, r.stack.voidToAtomic = (some (), st) ∧ Nested ms st ∧
      Resumable m Q T origin { r with stack := st } := by
  unfold Stack.voidToAtomic
  refine voidTo_sound (o := .atomic) (fun g b hb => ?_) (fun _ => Opener.noConfusion) hr hn rfl rfl
  cases g <;> first | exact ⟨rfl, fun _ _ => rfl⟩ | cases hb

/-- 約束のある命令を実行すると、次の約束に進むか、再開できるまま失敗する。 -/
theorem execute_sound {i : Instruction} (hr : Resumable m Q T origin r) (hn : Nested ms r.stack)
    (ha : i.Allows m Q T r.pc ms r.pos) : Move.Sound m Q T origin (m.execute origin i r) := by
  by_cases hl : i.isLeaf
  · rw [execute_leaf hl]
    have ha : ∀ p, m.Passes i r.pos p → T (r.pc + 1) ms p := by
      cases i <;> first | exact ha | exact ha.2 | cases hl
    cases hp : m.leafEnd? i r.caps r.pos with
    | none => exact hr
    | some p => exact hr.goto hn (ha p ⟨r.caps, hr.size_caps, hp⟩)
  · cases i with
    | accept =>
      have hzero : (r.caps.setIfInBounds 0 ⟨some origin, some r.pos⟩)[0]? =
          some ⟨some origin, some r.pos⟩ := by
        simp [hr.size_caps]
      simp only [execute, accept]
      split
      · rename_i hlt
        exact ⟨r.pos, hlt, ha⟩
      · rename_i hge
        have hge := Nat.not_lt.1 hge
        split
        · exact hr
        · split
          · split
            · refine ⟨hr.live, hr.size_caps, fun l caps hb => ?_⟩
              cases hb
              exact ⟨r.pos, ha, hge, rfl, hzero⟩
            · exact hr
          · intro l hl
            cases hl
            exact ⟨r.pos, ha, hge, rfl, hzero⟩
    | anyStar newline peek => exact anyStar_sound hr hn ha
    | memStart n undo => exact memStart_sound hr hn ha
    | memEnd n undo => exact memEnd_sound hr hn ha
    | jump addr =>
      obtain ⟨t, ht, ha⟩ := ha
      simp only [execute, target_eq ht]
      exact hr.goto hn ha
    | push addr =>
      obtain ⟨ha, t, ht, hb⟩ := ha
      simp only [execute, target_eq ht]
      exact sound_push ((hr.branch rfl hn hb).goto (hn.plain rfl) ha)
    | pushOrJump addr b =>
      obtain ⟨ha, t, ht, hb⟩ := ha
      simp only [execute, target_eq ht]
      split
      · exact sound_push ((hr.branch rfl hn hb).goto (hn.plain rfl) ha)
      · exact hr.goto hn hb
    | pushIfPeek addr b =>
      obtain ⟨ha, t, ht, hb⟩ := ha
      simp only [execute, target_eq ht]
      split
      · exact sound_push ((hr.branch rfl hn hb).goto (hn.plain rfl) ha)
      · exact hr.goto hn ha
    | repeatStart id addr greedy => exact repeatStart_sound hr hn ha
    | repeatNext id greedy => exact repeatNext_sound hr hn ha
    | nullCheckStart id captures =>
      exact sound_push ((hr.mark rfl fun _ _ => rfl).goto (.keep rfl hn) (ha _))
    | nullCheckEnd id captures => exact nullCheckEnd_sound hr hn ha
    | pushPos => exact sound_push ((hr.mark rfl fun _ _ => rfl).goto (.keep rfl hn) ha)
    | popPos =>
      obtain ⟨p, ms, rfl, ha⟩ := ha
      obtain ⟨st, hv, hn, hr⟩ := voidToPos_sound hr hn
      simp only [execute, hv]
      exact hr.goto hn ha
    | pushPosNot addr =>
      obtain ⟨t, ht, hb, ha⟩ := ha
      simp only [execute, target_eq ht]
      exact sound_push ((hr.branch rfl hn hb).goto (.keep rfl hn) ha)
    | failPos =>
      obtain ⟨t, p, ms, rfl⟩ := ha
      exact failThrough_sound (fun f hf => by cases f <;> first | rfl | cases hf) hr hn rfl rfl
    | pushAtomic => exact sound_push ((hr.mark rfl fun _ _ => rfl).goto (.keep rfl hn) ha)
    | popAtomic =>
      obtain ⟨ms, rfl, ha⟩ := ha
      obtain ⟨st, hv, hn, hr⟩ := voidToAtomic_sound hr hn
      simp only [execute, hv]
      exact hr.goto hn ha
    | pushLookBehindNot addr chars =>
      obtain ⟨t, ht, hb, ha⟩ := ha
      simp only [execute, target_eq ht]
      split
      · rename_i p hp
        exact sound_push ((hr.branch rfl hn hb).goto (.keep rfl hn) (ha p hp))
      · exact hr.goto hn hb
    | failLookBehindNot =>
      obtain ⟨t, p, ms, rfl⟩ := ha
      exact failThrough_sound (fun f hf => by cases f <;> first | rfl | cases hf) hr hn rfl rfl
    | _ => exact absurd rfl hl

end

/-! ## 一歩と実行 -/

section

variable {m : Matcher} {Q : Promise} {T : Nat → Assertion} {origin : Nat} {r : Registers}

/-- 誤りは、かけてある上限を越えたことを知らせる。 -/
def Overruns (m : Matcher) (e : EvalError) : Prop :=
  e = .stackLimitExceeded ∧ m.limits.depth ≠ none ∨ e = .retryLimitExceeded ∧ m.limits.retries ≠ none

/-- 一歩の後も約束の中にあり、誤りは上限を越えたことだけである。 -/
def Progress.Sound (m : Matcher) (Q : Promise) (T : Nat → Assertion) (origin : Nat) :
    Except EvalError Progress → Prop
  | .error e => m.Overruns e
  | .ok (.running r) => Holds m Q T origin r
  | .ok (.done v) => v.Answers Q origin
  | .ok .aborted => Q.Precedes origin

theorem backtrack_sound (hr : Resumable m Q T origin r) :
    Progress.Sound m Q T origin (m.backtrack r) := by
  unfold backtrack
  dsimp only
  rcases hr.live.popResume hr.size_caps with ⟨hp, _⟩ | ⟨pc, pos, ms, hp, hc, hn, hT, hl⟩
  · rw [hp]
    dsimp only
    split
    · rename_i length caps hb
      intro l hl
      cases hl
      exact hr.best _ _ hb
    · intro l hl
      cases hl
  · rw [hp]
    dsimp only
    split
    · rename_i hr
      refine .inr ⟨rfl, fun hn => ?_⟩
      simp [hn] at hr
    · exact ⟨⟨hl, hc, hr.best⟩, ms, hn, hT⟩

theorem step_sound (hv : Verified m Q T) (h : Holds m Q T origin r) :
    Progress.Sound m Q T origin (m.step origin r) := by
  obtain ⟨ms, hn, hT⟩ := h.now
  obtain ⟨i, hi, ha⟩ := hv _ _ _ hT
  have he : Move.Sound m Q T origin (m.execute origin i r) := execute_sound h.toResumable hn ha
  unfold step
  rw [hi]
  dsimp only
  cases hx : m.execute origin i r with
  | error e =>
    rw [hx] at he
    exact .inl he
  | ok v =>
    rw [hx] at he
    cases v with
    | go r => exact he
    | fail r => exact backtrack_sound he
    | stop v => exact he
    | abort => exact he

/-- 実行の答えは約束を満たし、誤りは上限を越えたことだけである。打ち切られるのは、始まりより前で終わるときだけで
ある。 -/
theorem run_sound (hv : Verified m Q T) {fuel : Nat} (h : Holds m Q T origin r) :
    (∀ e, m.run origin fuel r = some (.error e) → m.Overruns e) ∧
      (∀ v, m.run origin fuel r = some (.ok v) → v.Answers Q origin) ∧
      (m.run origin fuel r = some .aborted → Q.Precedes origin) := by
  induction fuel generalizing r with
  | zero => exact ⟨fun _ he => (by cases he), fun _ he => (by cases he), fun he => (by cases he)⟩
  | succ fuel ih =>
    have hs := step_sound hv h
    unfold run
    cases hx : m.step origin r with
    | error e =>
      rw [hx] at hs
      exact ⟨fun _ he => (by cases he; exact hs), fun _ he => (by cases he), fun he => (by cases he)⟩
    | ok p =>
      rw [hx] at hs
      cases p with
      | done v => exact ⟨fun _ he => (by cases he), fun _ he => (by cases he; exact hs), fun he => (by cases he)⟩
      | aborted => exact ⟨fun _ he => (by cases he), fun _ he => (by cases he), fun _ => hs⟩
      | running r => exact ih hs

end

end Matcher
end MultibyteRegex

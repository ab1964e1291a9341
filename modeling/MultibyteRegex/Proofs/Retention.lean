import MultibyteRegex.Session
import MultibyteRegex.Proofs.Safety

/-!
# 範囲の列の引き継ぎ

照合の答える捕獲は、いつもそのパターンの捕獲の数だけある。範囲の列は合った照合のたびに捕獲のある番号だけが書き
換わり、それより多い番号には、その番号を持つパターンで最後に合った照合の範囲が残る。
-/

namespace MultibyteRegex

namespace Stack

variable {f : Frame} {st st' : Stack} {caps caps' : Captures}

theorem size_undo (h : undo f st caps = some (st', caps')) : caps'.size = caps.size := by
  unfold undo at h
  split at h
  · split at h <;> cases h
    simp
  · split at h <;> cases h
    simp
  · obtain ⟨s, -, he⟩ := Option.map_eq_some_iff.1 h
    cases he
    rfl
  · cases h
    rfl

theorem size_popResume (st : Stack) (caps : Captures) : (st.popResume caps).caps.size = caps.size := by
  fun_induction popResume st caps with
  | case3 caps f st hn st' caps' hu ih => exact ih.trans (size_undo hu)
  | _ => rfl

theorem size_popThrough (mark : Frame → Bool) (st : Stack) (caps : Captures) :
    (st.popThrough mark caps).caps.size = caps.size := by
  fun_induction popThrough mark st caps with
  | case3 caps f st hm st' caps' hu ih => exact ih.trans (size_undo hu)
  | _ => rfl

end Stack

/-- 捕獲は `n` 個あり、控えた照合の捕獲も `n` 個ある。 -/
structure Registers.Sized (n : Nat) (r : Registers) : Prop where
  caps : r.caps.size = n
  best : ∀ b ∈ r.best, b.2.size = n

def Move.Sized (n : Nat) : Except EvalError Move → Prop
  | .ok (.go r) => r.Sized n
  | .ok (.fail r) => r.Sized n
  | .ok (.stop v) => v.caps.size = n
  | .ok .abort => True
  | .error _ => True

def Progress.Sized (n : Nat) : Except EvalError Progress → Prop
  | .ok (.running r) => r.Sized n
  | .ok (.done v) => v.caps.size = n
  | .ok .aborted => True
  | .error _ => True

namespace Matcher

variable {m : Matcher} {origin n : Nat} {r : Registers}

theorem sized_push {f : Frame} {k : Registers → Except EvalError Move}
    (h : Move.Sized n (k { r with stack := f :: r.stack })) : Move.Sized n (m.push r f >>= k) := by
  rcases m.push_eq r f with hp | ⟨hp, -⟩ <;> rw [hp]
  · exact h
  · exact trivial

theorem sized_target {addr : Int} {k : Nat → Except EvalError Move} (h : ∀ t, Move.Sized n (k t)) :
    Move.Sized n (r.target addr >>= k) := by
  cases r.target addr with
  | error e => exact trivial
  | ok t => exact h t

section

variable (hr : r.Sized n)
include hr

/-- 捕獲と控えた照合の他が変わっても、捕獲の数は同じである。 -/
theorem sized_keep (pc pos : Nat) (stack : Stack) : Registers.Sized n { r with pc, pos, stack } :=
  ⟨hr.caps, hr.best⟩

theorem sized_set (pc : Nat) (stack : Stack) (i : Nat) (s : Slot) :
    Registers.Sized n { r with pc, stack, caps := r.caps.setIfInBounds i s } :=
  ⟨by simpa using hr.caps, hr.best⟩

theorem accept_sized : Move.Sized n (.ok (m.accept origin r)) := by
  have hset : (r.caps.setIfInBounds 0 ⟨some origin, some r.pos⟩).size = n := by simpa using hr.caps
  unfold accept
  dsimp only
  repeat' split
  · exact trivial
  · exact hr
  · exact ⟨hr.caps, fun b hb => by cases hb; exact hset⟩
  · exact hr
  · exact hset

theorem anyStar_sized {newline : Bool} {peek : Option UInt8} : Move.Sized n (m.anyStar newline peek r) := by
  have hpushed {r r' : Registers} (hr : r.Sized n) {c : Prop} [Decidable c] {f : Frame}
      (he : (if c then m.push r f else .ok r) = .ok r') : r'.Sized n := by
    split at he
    · rcases m.push_eq r f with hp | ⟨hp, -⟩ <;> rw [hp] at he <;> cases he
      exact sized_keep hr _ _ _
    · cases he
      exact hr
  fun_induction anyStar m newline peek r with
  | case1 r hp b pushed e he => exact trivial
  | case2 r hp b pushed r' he hb => exact hpushed hr he
  | case3 r hp b pushed r' he hb ih => exact ih (sized_keep (hpushed hr he) _ _ _)
  | case4 r hp => exact sized_keep hr _ _ _

theorem memStart_sized {i : Nat} {undo : Bool} : Move.Sized n (m.memStart i undo r) := by
  unfold memStart
  split
  · exact trivial
  · cases undo with
    | false => exact sized_set hr _ _ _ _
    | true => exact sized_push (sized_set hr _ _ _ _)

theorem memEnd_sized {i : Nat} {undo : Bool} : Move.Sized n (m.memEnd i undo r) := by
  unfold memEnd
  split
  · exact trivial
  · cases undo with
    | false => exact sized_set hr _ _ _ _
    | true => exact sized_push (sized_set hr _ _ _ _)

theorem repeatStart_sized {id : Nat} {addr : Int} {greedy : Bool} :
    Move.Sized n (m.repeatStart id addr greedy r) := by
  unfold repeatStart
  split
  · exact trivial
  · refine sized_target fun t => sized_push ?_
    split
    · exact sized_keep hr _ _ _
    · split <;> exact sized_push (sized_keep hr _ _ _)

theorem repeatNext_sized {id : Nat} {greedy : Bool} : Move.Sized n (m.repeatNext id greedy r) := by
  have hjump {more : Bool} (b : Nat) (stack : Stack) :
      Move.Sized n (.ok (.go (if more then { r with pc := b, stack } else { r with pc := r.pc + 1, stack }))) := by
    cases more <;> exact sized_keep hr _ _ _
  unfold repeatNext
  split
  · exact trivial
  · split
    · exact trivial
    · split
      · dsimp only
        split
        · split
          · exact sized_push (sized_push (hjump _ _))
          · exact sized_push (hjump _ _)
        · split
          · refine sized_push ?_
            split
            · exact sized_push (sized_keep hr _ _ _)
            · exact sized_keep hr _ _ _
          · split
            · exact sized_push (sized_keep hr _ _ _)
            · exact sized_keep hr _ _ _
      · exact trivial

theorem nullCheckEnd_sized {id : Nat} {captures : Bool} : Move.Sized n (m.nullCheckEnd id captures r) := by
  unfold nullCheckEnd
  split
  · exact trivial
  · dsimp only
    repeat' split
    all_goals first | exact trivial | exact sized_keep hr _ _ _

theorem failThrough_sized {mark : Frame → Bool} : Move.Sized n (failThrough mark r) := by
  unfold failThrough
  dsimp only
  split
  · exact ⟨(Stack.size_popThrough mark r.stack r.caps).trans hr.caps, hr.best⟩
  · exact trivial

theorem execute_sized (i : Instruction) : Move.Sized n (m.execute origin i r) := by
  by_cases hl : i.isLeaf
  · rw [execute_leaf hl]
    cases m.leafEnd? i r.caps r.pos with
    | none => exact hr
    | some p => exact sized_keep hr _ _ _
  · cases i with
    | accept => exact accept_sized hr
    | anyStar newline peek => exact anyStar_sized hr
    | memStart i undo => exact memStart_sized hr
    | memEnd i undo => exact memEnd_sized hr
    | jump addr => exact sized_target fun t => sized_keep hr _ _ _
    | push addr => exact sized_target fun t => sized_push (sized_keep hr _ _ _)
    | pushOrJump addr b =>
      refine sized_target fun t => ?_
      split
      · exact sized_push (sized_keep hr _ _ _)
      · exact sized_keep hr _ _ _
    | pushIfPeek addr b =>
      simp only [execute]
      split
      · exact sized_target fun t => sized_push (sized_keep hr _ _ _)
      · exact sized_keep hr _ _ _
    | repeatStart id addr greedy => exact repeatStart_sized hr
    | repeatNext id greedy => exact repeatNext_sized hr
    | nullCheckStart id captures => exact sized_push (sized_keep hr _ _ _)
    | nullCheckEnd id captures => exact nullCheckEnd_sized hr
    | pushPos => exact sized_push (sized_keep hr _ _ _)
    | popPos =>
      simp only [execute]
      split
      · exact sized_keep hr _ _ _
      · exact trivial
    | pushPosNot addr => exact sized_target fun t => sized_push (sized_keep hr _ _ _)
    | failPos => exact failThrough_sized hr
    | pushAtomic => exact sized_push (sized_keep hr _ _ _)
    | popAtomic =>
      simp only [execute]
      split
      · exact sized_keep hr _ _ _
      · exact trivial
    | pushLookBehindNot addr chars =>
      refine sized_target fun t => ?_
      split
      · exact sized_push (sized_keep hr _ _ _)
      · exact sized_keep hr _ _ _
    | failLookBehindNot => exact failThrough_sized hr
    | _ => exact absurd rfl hl

theorem backtrack_sized : Progress.Sized n (m.backtrack r) := by
  have hsize := (Stack.size_popResume r.stack r.caps).trans hr.caps
  unfold backtrack
  dsimp only
  split
  · exact trivial
  · split
    · rename_i length caps hb
      exact hr.best (length, caps) hb
    · exact hsize
  · split
    · exact trivial
    · exact ⟨hsize, hr.best⟩

/-- 一歩で捕獲の数は変わらない。 -/
theorem step_sized : Progress.Sized n (m.step origin r) := by
  unfold step
  split
  · exact trivial
  · rename_i i _
    have hmove : Move.Sized n (m.execute origin i r) := execute_sized hr i
    split <;> rename_i hx <;> rw [hx] at hmove
    · exact trivial
    · exact hmove
    · exact backtrack_sized hmove
    · exact hmove
    · exact trivial

/-- どれだけ進めても、答えの捕獲の数は変わらない。 -/
theorem run_size {fuel : Nat} {v : Verdict} (h : m.run origin fuel r = some (.ok v)) : v.caps.size = n := by
  induction fuel generalizing r with
  | zero => cases h
  | succ fuel ih =>
    have hstep : Progress.Sized n (m.step origin r) := step_sized hr
    unfold run at h
    split at h <;> rename_i hx <;> rw [hx] at hstep
    · cases h
    · cases h
      exact hstep
    · cases h
    · exact ih hstep h

end

/-- 照合の答える捕獲は、全体と捕獲の数だけある。 -/
theorem matchAt_size {fuel : Nat} {v : Verdict} (h : m.matchAt fuel origin = some (.ok v)) :
    v.caps.size = m.program.groups + 1 := by
  unfold matchAt at h
  split at h
  · cases h
  · exact run_size ⟨by simp [Captures.fresh], fun b hb => by cases hb⟩ h

end Matcher

namespace Session

/-- 要求で合った照合の捕獲。 -/
def hit? (fuel : Nat) (s : Session) : Request → Option Captures
  | .matchAt text pos =>
    match s.regex.matchAt s.limits fuel text pos with
    | some (.ok ⟨some _, caps⟩) => some caps
    | _ => none
  | _ => none

/-- 要求の列で合った照合の捕獲を、新しい順に並べる。 -/
def hits (fuel : Nat) (s : Session) : List Request → List Captures
  | [] => []
  | r :: rs => hits fuel (s.step fuel r).1 rs ++ (s.hit? fuel r).toList

/-- `n` 番を持つ最も新しい照合の捕獲。 -/
def holder? (n : Nat) (hits : List Captures) : Option Captures := hits.find? (n < ·.size)

/-- `n` 番を持つ最も新しい照合での、その範囲。 -/
def lastSpan? (n : Nat) (hits : List Captures) : Option (Nat × Nat) := (holder? n hits).bind (·.span? n)

variable {s : Session} {fuel pos length : Nat} {text : Text} {region : Region}

/-- 合った照合は、捕獲のある番号だけを書き換える。 -/
theorem matchAt_matched (h : (s.matchAt fuel text pos).2 = .matched (some length) region) :
    ∃ caps, s.regex.matchAt s.limits fuel text pos = some (.ok ⟨some length, caps⟩) ∧
      region = s.region.update caps ∧ caps.size = s.regex.groupCount + 1 := by
  unfold matchAt at h
  split at h <;> cases h
  rename_i caps hmatch
  exact ⟨caps, hmatch, rfl, Matcher.matchAt_size hmatch⟩

/-- 一つの要求の後、`n` 番の範囲は、その要求で合った照合が番号を持てばその範囲に、持たなければ前のままである。 -/
theorem group_step (s : Session) (fuel : Nat) (r : Request) (n : Nat) :
    (s.step fuel r).1.region.group n =
      (holder? n (s.hit? fuel r).toList).elim (s.region.group n) (·.span? n) := by
  cases r with
  | matchAt text pos =>
    simp only [step, matchAt, hit?]
    split <;> rename_i hmatch <;> simp only [hmatch]
    · rename_i length caps
      by_cases hn : n < caps.size
      · simp [holder?, hn, Region.group_update hn]
      · simp [holder?, hn, Region.group_update_of_le (Nat.le_of_not_lt hn)]
    all_goals rfl
  | recompile source =>
    simp only [step]
    split <;> rfl
  | grow k => exact Region.group_grow s.region k n
  | _ => rfl

/-- 要求の列の後、`n` 番の範囲は、番号を持つ最も新しい照合の範囲である。 -/
theorem group_run (s : Session) (fuel : Nat) (requests : List Request) (n : Nat) :
    (s.run fuel requests).1.region.group n =
      (holder? n (s.hits fuel requests)).elim (s.region.group n) (·.span? n) := by
  induction requests generalizing s with
  | nil => rfl
  | cons r rs ih =>
    have hrest := ih (s.step fuel r).1
    rw [group_step] at hrest
    simp only [run, hits, holder?, List.find?_append] at hrest ⊢
    rw [hrest]
    cases (hits fuel (s.step fuel r).1 rs).find? (n < ·.size) <;> rfl

/-- 空の範囲の列から始めて要求の列を動かした後、照合に合ったときの範囲の列は、今の捕獲の番号では新しい列に
書いたものと同じである。それより多い番号は、新しい列では範囲がなく、使い続けた列では、その番号を持つ最も新しい
照合の範囲が残る。二つの列の答えが同じなのは、残る範囲がないとき、そのときに限る。 -/
theorem matched_region {requests : List Request} {before : Session} (hs : s.region = {})
    (hrun : (s.run fuel requests).1 = before)
    (h : (before.matchAt fuel text pos).2 = .matched (some length) region) :
    ∃ fresh, ({ before with region := {} }.matchAt fuel text pos).2 = .matched (some length) fresh ∧
      (∀ n ≤ before.regex.groupCount, region.group n = fresh.group n) ∧
      (∀ n > before.regex.groupCount, fresh.group n = none ∧
        region.group n = lastSpan? n (s.hits fuel requests)) ∧
      ((∀ n, region.group n = fresh.group n) ↔
        ∀ n > before.regex.groupCount, lastSpan? n (s.hits fuel requests) = none) := by
  obtain ⟨caps, hmatch, rfl, hsize⟩ := matchAt_matched h
  have hfresh : ({ before with region := {} }.matchAt fuel text pos).2 =
      .matched (some length) (({} : Region).update caps) := by
    simp only [matchAt, hmatch]
  have hlow : ∀ n ≤ before.regex.groupCount,
      (before.region.update caps).group n = (({} : Region).update caps).group n := by
    intro n hn
    have hlt : n < caps.size := by omega
    rw [Region.group_update hlt, Region.group_update hlt]
  have hhigh : ∀ n > before.regex.groupCount, (({} : Region).update caps).group n = none ∧
      (before.region.update caps).group n = lastSpan? n (s.hits fuel requests) := by
    intro n hn
    have hle : caps.size ≤ n := by omega
    rw [Region.group_update_of_le hle, Region.group_update_of_le hle, ← hrun, group_run, hs]
    refine ⟨rfl, ?_⟩
    unfold lastSpan?
    cases holder? n (s.hits fuel requests) <;> rfl
  refine ⟨_, hfresh, hlow, hhigh, fun heq n hn => ?_, fun hnone n => ?_⟩
  · rw [← (hhigh n hn).2, heq, (hhigh n hn).1]
  · rcases Nat.lt_or_ge before.regex.groupCount n with hn | hn
    · rw [(hhigh n hn).1, (hhigh n hn).2, hnone n hn]
    · exact hlow n hn

/-- 捕獲を増やしたパターンに差し替えた例。前の範囲は残らない。 -/
theorem matched_region_grown :
    ∃ re requests before region, Regex.compile { pattern := Pattern.ascii "(a)b" } = .ok re ∧
      requests = [.matchAt #[0x61, 0x62] 0, .recompile { pattern := Pattern.ascii "(a)(b)" }] ∧
      (Session.run 100 { regex := re } requests).1 = before ∧
      (before.matchAt 100 #[0x61, 0x62] 0).2 = .matched (some 2) region ∧
      ∃ fresh, ({ before with region := {} }.matchAt 100 #[0x61, 0x62] 0).2 = .matched (some 2) fresh ∧
        ∀ n, region.group n = fresh.group n := by
  let requests : List Request :=
    [.matchAt #[0x61, 0x62] 0, .recompile { pattern := Pattern.ascii "(a)(b)" }]
  obtain ⟨re, h, hrun⟩ := exists_ok (x := Regex.compile { pattern := Pattern.ascii "(a)b" })
    (p := fun re => decide ((((Session.run 100 { regex := re } requests).1).matchAt 100 #[0x61, 0x62] 0).2 =
        .matched (some 2) ⟨#[some (0, 2), some (0, 1), some (1, 2)]⟩) &&
      (Session.run 100 { regex := re } requests).1.regex.groupCount == 2 &&
      (Session.hits 100 { regex := re } requests).all (·.size ≤ 3)) (by decide +kernel)
  simp only [Bool.and_eq_true, decide_eq_true_eq, beq_iff_eq, List.all_eq_true] at hrun
  obtain ⟨⟨hmatch, hcount⟩, hsizes⟩ := hrun
  obtain ⟨fresh, hfresh, -, -, hiff⟩ := matched_region (s := { regex := re }) rfl rfl hmatch
  refine ⟨re, requests, _, _, h, rfl, rfl, hmatch, fresh, hfresh, hiff.2 fun n hn => ?_⟩
  have hholder : holder? n (Session.hits 100 { regex := re } requests) = none := by
    refine List.find?_eq_none.2 fun caps hcaps => ?_
    have := hsizes caps hcaps
    simp
    omega
  rw [lastSpan?, hholder]
  rfl

/-- 捕獲を減らしたパターンに差し替えると、二番の範囲が残る例。 -/
theorem matched_region_shrunk :
    ∃ re re' region fresh, Regex.compile { pattern := Pattern.ascii "(a)(b)" } = .ok re ∧
      Regex.compile { pattern := Pattern.ascii "(a)" } = .ok re' ∧ re'.groupCount = 1 ∧
      (Session.run 100 { regex := re }
        [.matchAt #[0x61, 0x62] 0, .recompile { pattern := Pattern.ascii "(a)" },
          .matchAt #[0x61, 0x62] 0, .group 2]).2 =
        [.matched (some 2) ⟨#[some (0, 2), some (0, 1), some (1, 2)]⟩, .done, .matched (some 1) region,
          .span (some (1, 2))] ∧
      (Session.run 100 { regex := re' } [.matchAt #[0x61, 0x62] 0, .group 2]).2 =
        [.matched (some 1) fresh, .span none] ∧
      region.group 2 = some (1, 2) ∧ fresh.group 2 = none := by
  obtain ⟨re, h, hrun⟩ := exists_ok (x := Regex.compile { pattern := Pattern.ascii "(a)(b)" })
    (p := fun re => decide ((Session.run 100 { regex := re }
        [.matchAt #[0x61, 0x62] 0, .recompile { pattern := Pattern.ascii "(a)" },
          .matchAt #[0x61, 0x62] 0, .group 2]).2 =
        [.matched (some 2) ⟨#[some (0, 2), some (0, 1), some (1, 2)]⟩, .done,
          .matched (some 1) ⟨#[some (0, 1), some (0, 1), some (1, 2)]⟩, .span (some (1, 2))]))
    (by decide +kernel)
  obtain ⟨re', h', hrun'⟩ := exists_ok (x := Regex.compile { pattern := Pattern.ascii "(a)" })
    (p := fun re' => re'.groupCount == 1 && decide ((Session.run 100 { regex := re' }
        [.matchAt #[0x61, 0x62] 0, .group 2]).2 =
        [.matched (some 1) ⟨#[some (0, 1), some (0, 1)]⟩, .span none]))
    (by decide +kernel)
  simp only [Bool.and_eq_true, decide_eq_true_eq, beq_iff_eq] at hrun hrun'
  exact ⟨re, re', _, _, h, h', hrun'.1, hrun, hrun'.2, rfl, rfl⟩

end Session
end MultibyteRegex

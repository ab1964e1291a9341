import MultibyteRegex.Proofs.Safety
import MultibyteRegex.Search.Trial

/-!
# 上限は答えを変えない

上限は、枠を積むときと再開点へ戻るときにだけ調べる。調べて越えていなければ、上限がないときと同じに動くので、
答えの出た照合は、上限を緩めても同じ答えになる。
-/

namespace MultibyteRegex

/-- `l'` のどの上限も、`l` の上限より緩いか等しい。 -/
structure Limits.Within (l l' : Limits) : Prop where
  retries : ∀ n' ∈ l'.retries, ∃ n ∈ l.retries, n ≤ n'
  depth : ∀ n' ∈ l'.depth, ∃ n ∈ l.depth, n ≤ n'

/-- 元の上限で越えていないものは、緩い上限でも越えていない。 -/
theorem Limits.not_exceeded_of_le {limit limit' : Option Nat} {exceeded : Nat → Bool}
    (h : ∀ n' ∈ limit', ∃ n ∈ limit, n ≤ n') (hmono : ∀ n n', n ≤ n' → exceeded n' → exceeded n)
    (hroom : ¬limit.any exceeded) : ¬limit'.any exceeded := by
  intro hfull
  obtain ⟨n', hn', hex⟩ := (Option.any_eq_true ..).1 hfull
  obtain ⟨n, hn, hle⟩ := h n' hn'
  exact hroom ((Option.any_eq_true ..).2 ⟨n, hn, hmono n n' hle hex⟩)

/-- `a` に値があれば、`b` にも同じ値がある。 -/
def Except.Persists {ε α : Type} (a b : Except ε α) : Prop := ∀ x, a = .ok x → b = .ok x

namespace Except.Persists

variable {ε α β : Type} {a b : Except ε α} {f g : α → Except ε β}

theorem refl (a : Except ε α) : Persists a a := fun _ h => h

theorem bind (h : Persists a b) (hf : ∀ x, Persists (f x) (g x)) : Persists (a >>= f) (b >>= g) := by
  intro y hy
  obtain ⟨x, hx, hy⟩ := Except.bind_eq_ok hy
  rw [h x hx]
  exact hf x y hy

end Except.Persists

namespace Matcher

/-! ## 緩めた上限 -/

section

variable {m : Matcher} {l : Limits} {origin fuel : Nat} {r : Registers}

theorem push_persists (h : m.limits.Within l) (r : Registers) (f : Frame) :
    Except.Persists (m.push r f) ({ m with limits := l }.push r f) := by
  intro r' hr
  unfold push Stack.push at hr ⊢
  split at hr
  · rename_i stack hs
    cases hr
    split at hs
    · cases hs
    · rename_i hroom
      cases hs
      have hroom' : ¬l.depth.any (· ≤ r.stack.length) = true :=
        Limits.not_exceeded_of_le h.depth (by simp; omega) hroom
      rw [if_neg hroom']
  · cases hr

theorem anyStar_persists (h : m.limits.Within l) (newline : Bool) (peek : Option UInt8) (r : Registers) :
    Except.Persists (m.anyStar newline peek r) ({ m with limits := l }.anyStar newline peek r) := by
  have hpush : ∀ (take : Bool) (r : Registers),
      Except.Persists (if take then m.push r (.alt (r.pc + 1) r.pos) else .ok r)
        (if take then { m with limits := l }.push r (.alt (r.pc + 1) r.pos) else .ok r) := by
    intro take r
    cases take
    · exact .refl _
    · exact push_persists h r _
  fun_induction anyStar m newline peek r with
  | case1 r hp b pushed e he =>
    intro v hv
    cases hv
  | case2 r hp b pushed r' he hb =>
    intro v hv
    rw [anyStar, dif_pos hp]
    simp only [hpush _ r r' he, b] at hb ⊢
    rwa [if_pos hb]
  | case3 r hp b pushed r' he hb ih =>
    intro v hv
    rw [anyStar, dif_pos hp]
    simp only [hpush _ r r' he, b] at hb ⊢
    rw [if_neg hb]
    exact ih v hv
  | case4 r hp =>
    intro v hv
    rwa [anyStar, dif_neg hp]

/-- 上限を緩めても、命令は同じに動く。 -/
theorem execute_persists (h : m.limits.Within l) (i : Instruction) (r : Registers) :
    Except.Persists (m.execute origin i r) ({ m with limits := l }.execute origin i r) := by
  have hmark : ∀ (r : Registers) (f : Frame) (k : Registers → Except EvalError Move),
      Except.Persists (m.push r f >>= k) ({ m with limits := l }.push r f >>= k) :=
    fun r f k => (push_persists h r f).bind fun _ => .refl _
  cases i with
  | anyStar newline peek => exact anyStar_persists h newline peek r
  | memStart n undo =>
    simp only [execute, memStart]
    split
    · exact .refl _
    · cases undo
      · exact .refl _
      · exact hmark _ _ _
  | memEnd n undo =>
    simp only [execute, memEnd]
    split
    · exact .refl _
    · cases undo
      · exact .refl _
      · exact hmark _ _ _
  | push addr => exact Except.Persists.bind (.refl _) fun _ => hmark _ _ _
  | pushOrJump addr b =>
    refine Except.Persists.bind (.refl _) fun _ => ?_
    split
    · exact hmark _ _ _
    · exact .refl _
  | pushIfPeek addr b =>
    simp only [execute]
    split
    · exact Except.Persists.bind (.refl _) fun _ => hmark _ _ _
    · exact .refl _
  | repeatStart id addr greedy =>
    simp only [execute, repeatStart]
    split
    · exact .refl _
    · refine Except.Persists.bind (.refl _) fun _ => (push_persists h _ _).bind fun _ => ?_
      split
      · exact .refl _
      · split <;> exact hmark _ _ _
  | repeatNext id greedy =>
    simp only [execute, repeatNext]
    split
    · exact .refl _
    · split
      · exact .refl _
      · split
        · split
          · split
            · exact (push_persists h _ _).bind fun _ => hmark _ _ _
            · exact hmark _ _ _
          · split
            · refine (push_persists h _ _).bind fun _ => ?_
              split
              · exact hmark _ _ _
              · exact .refl _
            · split
              · exact hmark _ _ _
              · exact .refl _
        · exact .refl _
  | nullCheckStart id captures => exact hmark _ _ _
  | pushPos => exact hmark _ _ _
  | pushPosNot addr => exact Except.Persists.bind (.refl _) fun _ => hmark _ _ _
  | pushAtomic => exact hmark _ _ _
  | pushLookBehindNot addr chars =>
    refine Except.Persists.bind (.refl _) fun _ => ?_
    simp only [encoding]
    split
    · exact (push_persists h _ _).bind fun _ => .refl _
    · exact .refl _
  | _ => exact .refl _

theorem backtrack_persists (h : m.limits.Within l) (r : Registers) :
    Except.Persists (m.backtrack r) ({ m with limits := l }.backtrack r) := by
  intro p hp
  unfold backtrack at hp ⊢
  dsimp only at hp ⊢
  split at hp
  · cases hp
  · exact hp
  · split at hp
    · cases hp
    · rename_i hroom
      have hroom' : ¬l.retries.any (· < r.retries + 1) = true :=
        Limits.not_exceeded_of_le h.retries (by simp; omega) hroom
      rwa [if_neg hroom']

theorem step_persists (h : m.limits.Within l) (r : Registers) :
    Except.Persists (m.step origin r) ({ m with limits := l }.step origin r) := by
  intro p hp
  unfold step at hp ⊢
  cases hi : m.program.code[r.pc]? with
  | none => simp [hi] at hp
  | some i =>
    simp only [hi] at hp ⊢
    cases hx : m.execute origin i r with
    | error e => simp [hx] at hp
    | ok move =>
      rw [hx] at hp
      rw [execute_persists h i r move hx]
      cases move with
      | fail r' => exact backtrack_persists h r' p hp
      | _ => exact hp

/-- 上限を緩めても、答えの出た照合は同じ答えになる。 -/
theorem run_persists (h : m.limits.Within l) {v : Verdict} (hr : m.run origin fuel r = some (.ok v)) :
    { m with limits := l }.run origin fuel r = some (.ok v) := by
  induction fuel generalizing r with
  | zero => cases hr
  | succ fuel ih =>
    unfold run at hr ⊢
    cases hs : m.step origin r with
    | error e => simp [hs] at hr
    | ok p =>
      rw [hs] at hr
      rw [step_persists h r p hs]
      cases p with
      | done v' => exact hr
      | aborted => exact hr
      | running r' => exact ih hr

theorem matchAt_persists (h : m.limits.Within l) {v : Verdict} (hr : m.matchAt fuel origin = some (.ok v)) :
    { m with limits := l }.matchAt fuel origin = some (.ok v) := by
  unfold matchAt at hr ⊢
  split at hr
  · cases hr
  · rename_i hle
    rw [if_neg hle]
    exact run_persists h hr

end

/-! ## 緩めた上限での検索 -/

section

variable {m m' : Matcher} {fuel : Nat} {cs : List Nat}

/-- どの候補も同じ答えになるなら、初めて合うものも同じである。 -/
theorem first_persists (h : ∀ x v, m.matchAt fuel x = some (.ok v) → m'.matchAt fuel x = some (.ok v))
    {found : Option Found} (hr : m.first fuel cs = some (.ok found)) :
    m'.first fuel cs = some (.ok found) := by
  induction cs with
  | nil => exact hr
  | cons x cs ih =>
    unfold first at hr ⊢
    split at hr
    · cases hr
    · cases hr
    · cases hr
    · rename_i hx
      rw [h x _ hx]
      exact hr
    · rename_i hx
      rw [h x _ hx]
      exact ih hr

/-- どの候補も同じ答えになるなら、最も長く合うものも同じである。 -/
theorem longest_persists (h : ∀ x v, m.matchAt fuel x = some (.ok v) → m'.matchAt fuel x = some (.ok v))
    {best found : Option Found} (hr : m.longest fuel best cs = some (.ok found)) :
    m'.longest fuel best cs = some (.ok found) := by
  induction cs generalizing best with
  | nil => exact hr
  | cons x cs ih =>
    unfold longest at hr ⊢
    split at hr
    · cases hr
    · cases hr
    · cases hr
    · rename_i hx
      rw [h x _ hx]
      exact ih hr
    · rename_i hx
      rw [h x _ hx]
      exact ih hr

end

end Matcher

/-! ## 上限の中の実行 -/

namespace Stack

variable {st : Stack} {caps : Captures}

theorem popResume_length : (st.popResume caps).stack.length ≤ st.length := by
  fun_induction popResume st caps with
  | case1 => exact Nat.le_refl _
  | case2 => simp
  | case3 caps f st hf st' caps' hu ih =>
    have := undo_length hu
    simp only [List.length_cons]
    omega
  | case4 => simp

theorem popThrough_length {mark : Frame → Bool} : (st.popThrough mark caps).stack.length ≤ st.length := by
  fun_induction popThrough mark st caps with
  | case1 => exact Nat.le_refl _
  | case2 => simp
  | case3 caps f st hf st' caps' hu ih =>
    have := undo_length hu
    simp only [List.length_cons]
    omega
  | case4 => simp

theorem voidTo_length {α : Type} {mark : Frame → Option α} : (st.voidTo mark).2.length = st.length := by
  induction st with
  | nil => rfl
  | cons f st ih =>
    unfold voidTo
    cases mark f with
    | some a => rfl
    | none => simp [ih]

end Stack

/-- `r` から `r'` まで再開点へ戻らず、枠を上限より多くは積まない。 -/
structure Registers.Capped (m : Matcher) (r r' : Registers) : Prop where
  retries : r'.retries = r.retries
  depth : ∀ k ∈ m.limits.depth, r'.stack.length ≤ max k r.stack.length

/-- 命令の実行は上限を守り、失敗しなければ枠を減らさない。 -/
def Move.Capped (m : Matcher) (r : Registers) : Except EvalError Move → Prop
  | .ok (.go r') => r.Capped m r' ∧ r.stack.length ≤ r'.stack.length
  | .ok (.fail r') => r.Capped m r'
  | _ => True

namespace Registers.Capped

variable {m : Matcher} {r r' r'' : Registers}

theorem of_length (hretries : r'.retries = r.retries) (h : r'.stack.length ≤ r.stack.length) :
    r.Capped m r' := ⟨hretries, fun k _ => by omega⟩

theorem trans (h : r.Capped m r') (h' : r'.Capped m r'') : r.Capped m r'' := by
  refine ⟨h'.retries.trans h.retries, fun k hk => ?_⟩
  have := h.depth k hk
  have := h'.depth k hk
  omega

end Registers.Capped

theorem Move.Capped.trans {m : Matcher} {r r' : Registers} {x : Except EvalError Move}
    (h : r.Capped m r') (hlen : r.stack.length ≤ r'.stack.length) (hx : Move.Capped m r' x) :
    Move.Capped m r x :=
  match x, hx with
  | .error _, _ => trivial
  | .ok (.go _), hx => ⟨h.trans hx.1, Nat.le_trans hlen hx.2⟩
  | .ok (.fail _), hx => h.trans hx
  | .ok (.stop _), _ => trivial
  | .ok .abort, _ => trivial

namespace Matcher

variable {m : Matcher} {origin : Nat} {r : Registers}

theorem capped_go {r' : Registers} (hretries : r'.retries = r.retries)
    (h : r'.stack.length = r.stack.length) : Move.Capped m r (.ok (.go r')) :=
  ⟨.of_length hretries (Nat.le_of_eq h), Nat.le_of_eq h.symm⟩

theorem push_capped {r' : Registers} {f : Frame} (h : m.push r f = .ok r') :
    r.Capped m r' ∧ r.stack.length < r'.stack.length := by
  unfold push Stack.push at h
  split at h
  · rename_i stack hs
    cases h
    split at hs
    · cases hs
    · rename_i hroom
      cases hs
      refine ⟨⟨rfl, fun k hk => ?_⟩, Nat.lt_succ_self _⟩
      rw [Option.mem_def.1 hk] at hroom
      simp only [Option.any_some, decide_eq_true_eq] at hroom
      simp only [List.length_cons]
      omega
  · cases h

/-- 枠を積んだ先が上限を守るなら、積んでからも守る。 -/
theorem capped_push {f : Frame} {k : Registers → Except EvalError Move}
    (h : ∀ r', r'.stack = f :: r.stack → Move.Capped m r' (k r')) : Move.Capped m r (m.push r f >>= k) := by
  cases hp : m.push r f with
  | error e => exact trivial
  | ok r' =>
    obtain ⟨hcap, hlt⟩ := push_capped hp
    have hmove := h r' (by rcases m.push_eq r f with h | ⟨h, -⟩ <;> rw [h] at hp <;> cases hp; rfl)
    exact .trans hcap (Nat.le_of_lt hlt) hmove

theorem anyStar_capped (newline : Bool) (peek : Option UInt8) (r : Registers) :
    Move.Capped m r (m.anyStar newline peek r) := by
  fun_induction anyStar m newline peek r with
  | case1 => exact trivial
  | case2 r hp b pushed r' he hb =>
    dsimp only [pushed] at he
    split at he
    · exact (push_capped he).1
    · cases he
      exact .of_length rfl (Nat.le_refl _)
  | case3 r hp b pushed r' he hb ih =>
    refine Move.Capped.trans ?_ ?_ ih
    all_goals
      dsimp only [pushed] at he
      split at he
    · obtain ⟨⟨hretries, hdepth⟩, -⟩ := push_capped he
      exact ⟨hretries, hdepth⟩
    · cases he
      exact .of_length rfl (Nat.le_refl _)
    · exact Nat.le_of_lt (push_capped he).2
    · cases he
      exact Nat.le_refl _
  | case4 r => exact capped_go rfl rfl

theorem consume_capped (n : Option Nat) (r : Registers) : Move.Capped m r (.ok (.consume n r)) := by
  cases n with
  | none => exact .of_length rfl (Nat.le_refl _)
  | some n => exact capped_go rfl rfl

theorem check_capped (b : Bool) (r : Registers) : Move.Capped m r (.ok (.check b r)) := by
  cases b with
  | false => exact .of_length rfl (Nat.le_refl _)
  | true => exact capped_go rfl rfl

theorem accept_capped (r : Registers) : Move.Capped m r (.ok (m.accept origin r)) := by
  have hfail : ∀ best, r.Capped m { r with best } := fun _ => .of_length rfl (Nat.le_refl _)
  unfold accept
  dsimp only
  split
  · exact trivial
  · split
    · exact hfail r.best
    · split
      · split
        · exact hfail _
        · exact hfail r.best
      · exact trivial

/-- 目印まで外して失敗しても、枠は増えない。 -/
theorem failThrough_capped (mark : Frame → Bool) (r : Registers) :
    Move.Capped m r (failThrough mark r) := by
  unfold failThrough
  dsimp only
  split
  · exact .of_length rfl Stack.popThrough_length
  · exact trivial

/-- 飛び先を求めてから動くなら、飛び先によらず上限を守ればよい。 -/
theorem capped_target {addr : Int} {k : Nat → Except EvalError Move}
    (h : ∀ pc, Move.Capped m r (k pc)) : Move.Capped m r (r.target addr >>= k) := by
  cases r.target addr with
  | error e => exact trivial
  | ok pc => exact h pc

theorem repeatStart_capped (id : Nat) (addr : Int) (greedy : Bool) (r : Registers) :
    Move.Capped m r (m.repeatStart id addr greedy r) := by
  unfold repeatStart
  split
  · exact trivial
  · refine capped_target fun exit => capped_push fun r' hr' => ?_
    split
    · exact capped_go rfl rfl
    · split
      · exact capped_push fun _ _ => capped_go rfl rfl
      · exact capped_push fun _ _ => capped_go rfl rfl

theorem repeatNext_capped (id : Nat) (greedy : Bool) (r : Registers) :
    Move.Capped m r (m.repeatNext id greedy r) := by
  have hgo : ∀ (r : Registers) (body : Nat) (more : Bool),
      Move.Capped m r (.ok (.go (if more then r.jump body else r.next))) := by
    intro r body more
    cases more <;> exact capped_go rfl rfl
  unfold repeatNext
  split
  · exact trivial
  · split
    · exact trivial
    · split
      · rename_i stack _ hset
        have hlen := Stack.setCount?_length hset
        have hset : r.Capped m { r with stack } := .of_length rfl (Nat.le_of_eq hlen)
        refine .trans hset (Nat.le_of_eq hlen.symm) ?_
        generalize { r with stack } = r
        dsimp only
        split
        · split
          · exact capped_push fun _ _ => capped_push fun _ _ => hgo _ _ _
          · exact capped_push (r := r) fun _ _ => hgo _ _ _
        · split
          · refine capped_push fun _ _ => ?_
            split
            · exact capped_push fun _ _ => capped_go rfl rfl
            · exact capped_go rfl rfl
          · split
            · exact capped_push fun _ _ => capped_go rfl rfl
            · exact capped_go rfl rfl
      · exact trivial

theorem nullCheckEnd_capped (id : Nat) (captures : Bool) (r : Registers) :
    Move.Capped m r (m.nullCheckEnd id captures r) := by
  unfold nullCheckEnd
  split
  · exact trivial
  · dsimp only
    generalize (_ && _ : Bool) = b
    cases b
    · exact capped_go rfl rfl
    · rw [if_pos rfl]
      split
      · exact capped_go rfl rfl
      · exact trivial

/-- 命令の実行は上限を守る。 -/
theorem execute_capped (i : Instruction) (r : Registers) : Move.Capped m r (m.execute origin i r) := by
  have hmark : ∀ (f : Frame) (k : Registers → Registers), (∀ r, (k r).retries = r.retries) →
      (∀ r, (k r).stack = r.stack) →
      Move.Capped m r (m.push r f >>= fun r => .ok (.go (k r))) := fun f k hk hs =>
    capped_push fun r' _ => capped_go (hk r') (congrArg _ (hs r'))
  have hnext := fun f => hmark f Registers.next (fun _ => rfl) (fun _ => rfl)
  cases i with
  | accept => exact accept_capped r
  | anyStar newline peek => exact anyStar_capped newline peek r
  | memStart n undo =>
    simp only [execute, memStart]
    split
    · exact trivial
    · cases undo
      · exact capped_go rfl rfl
      · exact capped_push fun _ _ => capped_go rfl rfl
  | memEnd n undo =>
    simp only [execute, memEnd]
    split
    · exact trivial
    · cases undo
      · exact capped_go rfl rfl
      · exact capped_push fun _ _ => capped_go rfl rfl
  | fail => exact .of_length rfl (Nat.le_refl _)
  | jump addr => exact capped_target fun _ => capped_go rfl rfl
  | push addr => exact capped_target fun _ => hnext _
  | pushOrJump addr b =>
    refine capped_target fun _ => ?_
    split
    · exact hnext _
    · exact capped_go rfl rfl
  | pushIfPeek addr b =>
    simp only [execute]
    split
    · exact capped_target fun _ => hnext _
    · exact capped_go rfl rfl
  | repeatStart id addr greedy => exact repeatStart_capped id addr greedy r
  | repeatNext id greedy => exact repeatNext_capped id greedy r
  | nullCheckStart id captures => exact hnext _
  | nullCheckEnd id captures => exact nullCheckEnd_capped id captures r
  | pushPos => exact hnext _
  | popPos =>
    simp only [execute, Stack.voidToPos]
    split
    · rename_i hv
      exact capped_go rfl (by rw [← r.stack.voidTo_length, hv]; rfl)
    · exact trivial
  | pushPosNot addr => exact capped_target fun _ => hnext _
  | failPos => exact failThrough_capped _ r
  | pushAtomic => exact hnext _
  | popAtomic =>
    simp only [execute, Stack.voidToAtomic]
    split
    · rename_i hv
      exact capped_go rfl (by rw [← r.stack.voidTo_length, hv]; rfl)
    · exact trivial
  | lookBehind chars =>
    simp only [execute]
    split
    · exact capped_go rfl rfl
    · exact .of_length rfl (Nat.le_refl _)
  | pushLookBehindNot addr chars =>
    refine capped_target fun _ => ?_
    split
    · exact hmark _ (·.moveTo _) (fun _ => rfl) (fun _ => rfl)
    · exact capped_go rfl rfl
  | failLookBehindNot => exact failThrough_capped _ r
  | wordBound atBound | wordBegin | wordEnd | beginBuf | endBuf | semiEndBuf | beginPosition
  | beginLine perLine | endLine perLine => exact check_capped _ r
  | _ => exact consume_capped _ r

/-- 再開点へ戻れるのは、戻った回数が上限に達していないときだけで、戻れば枠は増えない。 -/
theorem backtrack_capped {r' : Registers} (h : m.backtrack r = .ok (.running r')) :
    r'.retries = r.retries + 1 ∧ r'.stack.length ≤ r.stack.length ∧
      ∀ k ∈ m.limits.retries, r'.retries ≤ k := by
  unfold backtrack at h
  dsimp only at h
  split at h
  · cases h
  · split at h <;> cases h
  · split at h
    · cases h
    · rename_i hroom
      cases h
      refine ⟨rfl, Stack.popResume_length, fun k hk => ?_⟩
      rw [Option.mem_def.1 hk] at hroom
      simp only [Option.any_some, decide_eq_true_eq] at hroom
      exact Nat.le_of_not_lt hroom

/-- 再開点へ `n` 回戻って着く状態。 -/
inductive Visits (m : Matcher) (origin : Nat) : Nat → Registers → Prop
  | start : Visits m origin 0 { pc := 0, pos := origin, caps := .fresh m.program.groups }
  | go {n r r' i} : Visits m origin n r → m.program.code[r.pc]? = some i →
      m.execute origin i r = .ok (.go r') → Visits m origin n r'
  | resume {n r r' r'' i} : Visits m origin n r → m.program.code[r.pc]? = some i →
      m.execute origin i r = .ok (.fail r') → m.backtrack r' = .ok (.running r'') →
      Visits m origin (n + 1) r''

/-- 着く状態は、戻った回数を数えていて、上限の中にある。失敗する手前までに積む枠も上限を越えない。 -/
theorem Visits.capped {n : Nat} (h : m.Visits origin n r) :
    n = r.retries ∧ (∀ k ∈ m.limits.retries, n ≤ k) ∧ ∀ k ∈ m.limits.depth, r.stack.length ≤ k := by
  have within : ∀ {r r' : Registers} {k : Nat}, r.Capped m r' → k ∈ m.limits.depth →
      r.stack.length ≤ k → r'.stack.length ≤ k := fun hcap hk hle => by
    have := hcap.depth _ hk
    omega
  induction h with
  | start => exact ⟨rfl, fun k _ => Nat.zero_le k, fun k _ => Nat.zero_le k⟩
  | @go n r r' i _ _ hx ih =>
    obtain ⟨hcount, hretries, hdepth⟩ := ih
    have hcap : Move.Capped m r (m.execute origin i r) := execute_capped i r
    rw [hx] at hcap
    exact ⟨hcount.trans hcap.1.retries.symm, hretries, fun k hk => within hcap.1 hk (hdepth k hk)⟩
  | @resume n r r' r'' i _ _ hx hb ih =>
    obtain ⟨hcount, -, hdepth⟩ := ih
    have hcap : Move.Capped m r (m.execute origin i r) := execute_capped i r
    rw [hx] at hcap
    obtain ⟨hresume, hlen, hretries⟩ := backtrack_capped hb
    have hcount' : n + 1 = r''.retries := by rw [hresume, hcap.retries, hcount]
    exact ⟨hcount', hcount' ▸ hretries, fun k hk => Nat.le_trans hlen (within hcap hk (hdepth k hk))⟩

/-- 失敗する手前までに積む枠も、上限を越えない。 -/
theorem Visits.failing {n : Nat} {i : Instruction} {r' : Registers} (h : m.Visits origin n r)
    (hx : m.execute origin i r = .ok (.fail r')) : ∀ k ∈ m.limits.depth, r'.stack.length ≤ k := by
  intro k hk
  have hcap : Move.Capped m r (m.execute origin i r) := execute_capped i r
  rw [hx] at hcap
  have := hcap.depth k hk
  have := h.capped.2.2 k hk
  omega

/-- 照合で着く状態は、どれも何回か戻って着く。 -/
theorem Reachable.visits (h : m.Reachable origin r) : ∃ n, m.Visits origin n r := by
  induction h with
  | start => exact ⟨0, .start⟩
  | @step r r' _ hs ih =>
    obtain ⟨n, hn⟩ := ih
    unfold Matcher.step at hs
    split at hs
    · cases hs
    · rename_i hi
      split at hs
      · cases hs
      · rename_i hx
        cases hs
        exact ⟨n, hn.go hi hx⟩
      · rename_i hx
        exact ⟨n + 1, hn.resume hi hx hs⟩
      · cases hs
      · cases hs

end Matcher

namespace Regex

/-- 上限の中で答えの出た照合も検索も、上限を緩めても同じ答えになる。照合のあいだ、枠の数も、再開点へ
戻った回数も、上限を越えない。 -/
theorem search_persists (re : Regex) {l l' : Limits} (h : l.Within l') (options : Options) (text : Text)
    (start : Nat) :
    (∀ fuel origin v, (re.matcher l options text start).matchAt fuel origin = some (.ok v) →
      (re.matcher l' options text start).matchAt fuel origin = some (.ok v)) ∧
    (∀ origin r, (re.matcher l options text start).Reachable origin r →
      ∃ n, (re.matcher l options text start).Visits origin n r) ∧
    (∀ origin n r, (re.matcher l options text start).Visits origin n r →
      (∀ k ∈ l.retries, n ≤ k) ∧ (∀ k ∈ l.depth, r.stack.length ≤ k) ∧
        ∀ i r', (re.matcher l options text start).execute origin i r = .ok (.fail r') →
          ∀ k ∈ l.depth, r'.stack.length ≤ k) ∧
    ∀ fuel range found, re.search l fuel options text start range = some (.ok found) →
      re.search l' fuel options text start range = some (.ok found) := by
  have hmatch : ∀ fuel origin v, (re.matcher l options text start).matchAt fuel origin = some (.ok v) →
      (re.matcher l' options text start).matchAt fuel origin = some (.ok v) := fun _ _ _ =>
    Matcher.matchAt_persists (m := re.matcher l options text start) h
  refine ⟨hmatch, fun _ _ => Matcher.Reachable.visits, fun origin n r hv => ?_, fun fuel range found hr => ?_⟩
  · obtain ⟨-, hretries, hdepth⟩ := hv.capped
    exact ⟨hretries, hdepth, fun i r' => hv.failing⟩
  · unfold search at hr ⊢
    split at hr
    · cases hr
    · rename_i hrange
      rw [if_neg hrange]
      dsimp only at hr ⊢
      have hoptions : (re.matcher l' options text start).options = (re.matcher l options text start).options := rfl
      rw [hoptions]
      split at hr
      · rename_i hlong
        rw [if_pos hlong]
        exact Matcher.longest_persists (hmatch fuel) hr
      · rename_i hlong
        rw [if_neg hlong]
        exact Matcher.first_persists (hmatch fuel) hr

/-- 任意の文字の繰り返しを捕獲する検索が、狭い上限でも、緩い上限でも、同じ所で終わる例。 -/
theorem search_persists_star :
    ∃ re found, Regex.compile { pattern := Pattern.ascii "(.*)b" } = .ok re ∧
      Limits.Within ⟨some 3, some 4⟩ ⟨some 7, none⟩ ∧ found.length = 2 ∧
      re.search ⟨some 3, some 4⟩ 40 .none #[0x61, 0x62, 0x63] 0 3 = some (.ok (some found)) ∧
      re.search ⟨some 7, none⟩ 40 .none #[0x61, 0x62, 0x63] 0 3 = some (.ok (some found)) := by
  obtain ⟨re, hcompile, hok⟩ := exists_ok (x := Regex.compile { pattern := Pattern.ascii "(.*)b" })
    (p := fun re => ((re.search ⟨some 3, some 4⟩ 40 .none #[0x61, 0x62, 0x63] 0 3).bind
      Result.toOption).any fun r => r.any (·.length == 2)) (by decide +kernel)
  obtain ⟨r, hr, hfound⟩ := exists_some_ok hok
  obtain ⟨found, rfl, hlength⟩ := (Option.any_eq_true ..).1 hfound
  have hwithin : Limits.Within ⟨some 3, some 4⟩ ⟨some 7, none⟩ := by
    refine ⟨fun n hn => ⟨3, rfl, ?_⟩, nofun⟩
    cases hn
    decide
  exact ⟨re, found, hcompile, hwithin, eq_of_beq hlength, hr,
    (search_persists re hwithin .none #[0x61, 0x62, 0x63] 0).2.2.2 40 3 _ hr⟩

end Regex
end MultibyteRegex

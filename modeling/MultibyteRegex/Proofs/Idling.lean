import MultibyteRegex.Proofs.Limits
import MultibyteRegex.Proofs.Alignment

/-!
# 枠を積まない歩み

上限が数えるのは、積んだ枠と、再開点へ戻った回数だけである。そのどちらもしない一歩は、輪の尾から頭へ飛ぶときの
他は、命令の列を先へ進む。
-/

namespace MultibyteRegex

/-- 続くなら、必ず枠を積む命令。 -/
def Instruction.isPush : Instruction → Bool
  | .push _ => true
  | .repeatStart .. => true
  | .nullCheckStart .. => true
  | .pushPos => true
  | .pushPosNot _ => true
  | .pushAtomic => true
  | _ => false

/-- 枠を積まずに続くなら、先の命令へ進む。 -/
def Instruction.IsOnward : Instruction → Prop
  | .jump addr => 0 ≤ addr
  | .pushOrJump addr _ => 0 ≤ addr
  | .pushLookBehindNot addr _ => 0 ≤ addr
  | _ => True

theorem Instruction.isOnward_of_isLeaf {i : Instruction} (h : i.isLeaf) : i.IsOnward := by
  cases i <;> first | exact trivial | cases h

theorem Instruction.isOnward_of_isPush {i : Instruction} (h : i.isPush) : i.IsOnward := by
  cases i <;> first | exact trivial | cases h

/-- 命令の実行は、続くなら、枠を積む。 -/
def Move.Grows (r : Registers) : Except EvalError Move → Prop
  | .ok (.go r') => r.stack.length < r'.stack.length
  | _ => True

/-- 命令の実行は、続くなら、枠を積むか、先の命令へ進む。 -/
def Move.Onward (r : Registers) : Except EvalError Move → Prop
  | .ok (.go r') => r.stack.length < r'.stack.length ∨ r.pc < r'.pc
  | _ => True

theorem Move.Grows.ne {r r' : Registers} {x : Except EvalError Move} (h : Move.Grows r x)
    (hx : x = .ok (.go r')) : r'.stack.length ≠ r.stack.length := by
  subst hx
  exact Nat.ne_of_gt h

namespace Matcher

variable {m : Matcher} {origin : Nat} {r : Registers}

/-! ## 一歩 -/

theorem onward_of_grows {x : Except EvalError Move} (h : Move.Grows r x) : Move.Onward r x := by
  match x, h with
  | .error _, _ => exact trivial
  | .ok (.go _), h => exact .inl h
  | .ok (.fail _), _ => exact trivial
  | .ok (.stop _), _ => exact trivial
  | .ok .abort, _ => exact trivial

/-- 枠を積んだ先で減らさないなら、枠は増える。 -/
theorem grows_push {f : Frame} {k : Registers → Except EvalError Move}
    (h : ∀ r', Move.Capped m r' (k r')) : Move.Grows r (m.push r f >>= k) := by
  cases hp : m.push r f with
  | error e => exact trivial
  | ok r' =>
    have hlt := (push_capped hp).2
    have hk := h r'
    change Move.Grows r (k r')
    cases hx : k r' with
    | error e => exact trivial
    | ok v =>
      rw [hx] at hk
      cases v with
      | go r'' => exact Nat.lt_of_lt_of_le hlt hk.2
      | fail r'' => exact trivial
      | stop v => exact trivial
      | abort => exact trivial

theorem capped_next (r' : Registers) : Move.Capped m r' (.ok (.go r'.next)) := capped_go rfl rfl

theorem grows_target {addr : Int} {k : Nat → Except EvalError Move} (h : ∀ pc, Move.Grows r (k pc)) :
    Move.Grows r (r.target addr >>= k) := by
  cases r.target addr with
  | error e => exact trivial
  | ok pc => exact h pc

/-- 必ず枠を積む命令は、続くなら枠を積んでいる。 -/
theorem execute_grows {i : Instruction} (h : i.isPush) : Move.Grows r (m.execute origin i r) := by
  cases i with
  | push addr => exact grows_target fun _ => grows_push capped_next
  | repeatStart id addr greedy =>
    simp only [execute, repeatStart]
    split
    · exact trivial
    · refine grows_target fun _ => grows_push fun r' => ?_
      split
      · exact capped_next r'
      · split
        · exact capped_push fun _ _ => capped_go rfl rfl
        · exact capped_push fun _ _ => capped_go rfl rfl
  | nullCheckStart id captures => exact grows_push capped_next
  | pushPos => exact grows_push capped_next
  | pushPosNot addr => exact grows_target fun _ => grows_push capped_next
  | pushAtomic => exact grows_push capped_next
  | _ => cases h

/-- 任意の文字の繰り返しは、何文字か進んで次の命令へ移る。 -/
theorem anyStar_go {newline : Bool} {peek : Option UInt8} {r r' : Registers}
    (h : m.anyStar newline peek r = .ok (.go r')) : r'.pc = r.pc + 1 ∧
      (r.caps.size = m.program.groups + 1 → ∃ k, Iterated (m.Passes (.any newline)) k r.pos r'.pos) := by
  fun_induction anyStar m newline peek r with
  | case1 => cases h
  | case2 => cases h
  | case3 r hp b pushed r₁ he hb ih =>
    obtain ⟨hpc, hiterated⟩ := ih h
    have hsame : r₁.pc = r.pc ∧ r₁.caps = r.caps := by
      dsimp only [pushed] at he
      split at he
      · rcases m.push_eq r (.alt (r.pc + 1) r.pos) with hp | ⟨hp, -⟩ <;> rw [hp] at he <;> cases he
        exact ⟨rfl, rfl⟩
      · cases he
        exact ⟨rfl, rfl⟩
    refine ⟨hsame.1 ▸ hpc, fun hcaps => ?_⟩
    obtain ⟨k, hk⟩ := hiterated (hsame.2 ▸ hcaps)
    exact ⟨k + 1, _, passes_any hcaps hp hb, hk⟩
  | case4 r =>
    cases h
    exact ⟨rfl, fun _ => ⟨0, rfl⟩⟩

/-- 相対位置が零以上なら、飛び先は先にある。 -/
theorem onward_target {addr : Int} (h : 0 ≤ addr) {k : Nat → Except EvalError Move}
    (hk : ∀ pc, r.pc < pc → Move.Onward r (k pc)) : Move.Onward r (r.target addr >>= k) := by
  obtain ⟨n, rfl⟩ := Int.eq_ofNat_of_zero_le h
  rw [target_eq (r := r) (t := r.pc + 1 + n) (by omega)]
  exact hk _ (by omega)

theorem onward_next (r : Registers) : Move.Onward r (.ok (.go r.next)) := .inr (Nat.lt_succ_self _)

theorem repeatNext_onward {id : Nat} {greedy : Bool} : Move.Onward r (m.repeatNext id greedy r) := by
  -- 回数を書き換えても、枠の数は変わらない。
  have hset {stack : Stack} {x : Except EvalError Move} (hlen : stack.length = r.stack.length)
      (h : Move.Onward { r with stack } x) : Move.Onward r x := by
    match x, h with
    | .error _, _ => exact trivial
    | .ok (.go _), h => exact h.imp_left (Nat.lt_of_le_of_lt (Nat.le_of_eq hlen.symm))
    | .ok (.fail _), _ => exact trivial
    | .ok (.stop _), _ => exact trivial
    | .ok .abort, _ => exact trivial
  have hturn : ∀ (body : Nat) (more : Bool) (r : Registers),
      Move.Capped m r (.ok (.go (if more then r.jump body else r.next))) := by
    intro body more r
    cases more <;> exact capped_go rfl rfl
  unfold repeatNext
  split
  · exact trivial
  · split
    · exact trivial
    · split
      · rename_i stack _ hcount
        refine hset (Stack.setCount?_length hcount) ?_
        generalize { r with stack } = r
        dsimp only
        split
        · split
          · exact onward_of_grows (grows_push fun _ => capped_push fun _ _ => hturn _ _ _)
          · exact onward_of_grows (grows_push (r := r) fun _ => hturn _ _ _)
        · split
          · refine onward_of_grows (grows_push fun r' => ?_)
            split
            · exact capped_push fun _ _ => capped_go rfl rfl
            · exact capped_go rfl rfl
          · split
            · exact onward_of_grows (grows_push capped_next)
            · exact onward_next r
      · exact trivial

theorem nullCheckEnd_onward {id : Nat} {captures : Bool} : Move.Onward r (m.nullCheckEnd id captures r) := by
  unfold nullCheckEnd
  split
  · exact trivial
  · dsimp only
    generalize (_ && _ : Bool) = b
    cases b
    · exact onward_next r
    · rw [if_pos rfl]
      split
      · exact .inr (Nat.lt_succ_of_lt (Nat.lt_succ_self _))
      · exact trivial

/-- 先へ進む命令は、続くなら、枠を積むか、先の命令へ進んでいる。 -/
theorem execute_onward {i : Instruction} (h : i.IsOnward) : Move.Onward r (m.execute origin i r) := by
  by_cases hpush : i.isPush
  · exact onward_of_grows (execute_grows hpush)
  by_cases hleaf : i.isLeaf
  · rw [execute_leaf hleaf]
    split
    · exact .inr (Nat.lt_succ_self _)
    · exact trivial
  cases i with
  | accept =>
    simp only [execute, accept]
    repeat' split
    all_goals exact trivial
  | anyStar newline peek =>
    simp only [execute]
    cases hx : m.anyStar newline peek r with
    | error e => exact trivial
    | ok v =>
      cases v with
      | go r' => exact .inr (by rw [(anyStar_go hx).1]; exact Nat.lt_succ_self _)
      | fail r' => exact trivial
      | stop v => exact trivial
      | abort => exact trivial
  | memStart n undo =>
    simp only [execute, memStart]
    split
    · exact trivial
    · cases undo
      · exact .inr (Nat.lt_succ_self _)
      · exact onward_of_grows (grows_push fun _ => capped_go rfl rfl)
  | memEnd n undo =>
    simp only [execute, memEnd]
    split
    · exact trivial
    · cases undo
      · exact .inr (Nat.lt_succ_self _)
      · exact onward_of_grows (grows_push fun _ => capped_go rfl rfl)
  | jump addr => exact onward_target h fun pc hpc => .inr hpc
  | pushOrJump addr b =>
    refine onward_target h fun pc hpc => ?_
    split
    · exact onward_of_grows (grows_push capped_next)
    · exact .inr hpc
  | pushIfPeek addr b =>
    simp only [execute]
    split
    · exact onward_of_grows (grows_target fun _ => grows_push capped_next)
    · exact onward_next r
  | repeatNext id greedy => exact repeatNext_onward
  | nullCheckEnd id captures => exact nullCheckEnd_onward
  | popPos =>
    simp only [execute]
    split
    · exact .inr (Nat.lt_succ_self _)
    · exact trivial
  | failPos =>
    simp only [execute, failThrough]
    split <;> exact trivial
  | popAtomic =>
    simp only [execute]
    split
    · exact .inr (Nat.lt_succ_self _)
    · exact trivial
  | pushLookBehindNot addr chars =>
    refine onward_target h fun pc hpc => ?_
    split
    · exact onward_of_grows (grows_push fun r' => capped_go rfl rfl)
    · exact .inr hpc
  | failLookBehindNot =>
    simp only [execute, failThrough]
    split <;> exact trivial
  | _ => first | exact absurd rfl hpush | exact absurd rfl hleaf

/-! ## 歩みの終わり -/

/-- 枠の数も、再開点へ戻った回数も変わらない一歩。 -/
structure Idles (m : Matcher) (origin : Nat) (r r' : Registers) : Prop where
  step : m.step origin r = .ok (.running r')
  retries : r'.retries = r.retries
  depth : r'.stack.length = r.stack.length

/-- 枠を積むか、再開点へ戻るか、止まるまでの歩みが、必ず終わる。 -/
def Rests (m : Matcher) (origin : Nat) : Registers → Prop := Acc fun r' r => m.Idles origin r r'

/-- `p` から後の命令では、歩みが必ず終わる。 -/
def Settled (m : Matcher) (origin p : Nat) : Prop := ∀ r, m.Reachable origin r → p ≤ r.pc → m.Rests origin r

/-- 続く一歩は、再開点へ戻るか、枠を積むか、どちらもしない。 -/
theorem step_cases {r' : Registers} (h : m.step origin r = .ok (.running r')) :
    r'.retries = r.retries + 1 ∨ (r'.retries = r.retries ∧ r.stack.length < r'.stack.length) ∨
      m.Idles origin r r' ∧ ∃ i, m.program.code[r.pc]? = some i ∧ m.execute origin i r = .ok (.go r') := by
  have hstep := h
  unfold step at hstep
  cases hi : m.program.code[r.pc]? with
  | none => simp [hi] at hstep
  | some i =>
    simp only [hi] at hstep
    have hcap : Move.Capped m r (m.execute origin i r) := execute_capped i r
    cases hx : m.execute origin i r with
    | error e => simp [hx] at hstep
    | ok move =>
      rw [hx] at hcap hstep
      cases move with
      | fail r₁ => exact .inl (by rw [(backtrack_capped hstep).1, hcap.retries])
      | stop v => cases hstep
      | abort => cases hstep
      | go r₁ =>
        cases hstep
        rcases Nat.lt_or_eq_of_le hcap.2 with hlt | heq
        · exact .inr (.inl ⟨hcap.1.retries, hlt⟩)
        · exact .inr (.inr ⟨⟨h, hcap.1.retries, heq.symm⟩, i, rfl, hx⟩)

section

variable {i : Instruction} {p : Nat} (hr : m.Reachable origin r) (hi : m.program.code[r.pc]? = some i)
include hr hi

/-- 枠を積まずに続いた先で歩みが終わるなら、そこでも終わる。 -/
theorem rests_of_go (h : ∀ r', m.Reachable origin r' → m.execute origin i r = .ok (.go r') →
    r'.stack.length = r.stack.length → m.Rests origin r') : m.Rests origin r := by
  refine ⟨r, fun r' hidle => ?_⟩
  rcases step_cases hidle.step with hback | ⟨-, hlt⟩ | ⟨-, j, hj, hx⟩
  · exact absurd hidle.retries (by omega)
  · exact absurd hidle.depth (by omega)
  · cases hi.symm.trans hj
    exact h r' (.step hr hidle.step) hx hidle.depth

theorem rests_of_isPush (h : i.isPush) : m.Rests origin r := by
  exact rests_of_go hr hi fun r' _ hx hlen => absurd hlen ((execute_grows h).ne hx)

theorem rests_of_isOnward (h : i.IsOnward) (hp : m.Settled origin (r.pc + 1)) : m.Rests origin r := by
  refine rests_of_go hr hi fun r' hr' hx hlen => ?_
  have honward : Move.Onward r (m.execute origin i r) := execute_onward h
  rw [hx] at honward
  exact hp r' hr' (honward.resolve_left (by omega))

end

theorem Settled.mono {p q : Nat} (h : m.Settled origin p) (hpq : p ≤ q) : m.Settled origin q :=
  fun r hr hq => h r hr (Nat.le_trans hpq hq)

/-- 先へ進む命令を、手前に加える。 -/
theorem Settled.cons {p : Nat} {i : Instruction} (hi : m.program.code[p]? = some i) (h : i.IsOnward)
    (hp : m.Settled origin (p + 1)) : m.Settled origin p := by
  intro r hr hle
  rcases Nat.eq_or_lt_of_le hle with rfl | hlt
  · exact rests_of_isOnward hr hi h hp
  · exact hp r hr hlt

/-! ## 積まずに移る先 -/

theorem rests_of_isLeaf {i : Instruction} (hr : m.Reachable origin r) (hi : m.program.code[r.pc]? = some i)
    (hl : i.isLeaf) (hcaps : r.caps.size = m.program.groups + 1)
    (h : ∀ r', m.Reachable origin r' → r'.pc = r.pc + 1 → m.Passes i r.pos r'.pos → m.Rests origin r') :
    m.Rests origin r := by
  refine rests_of_go hr hi fun r' hr' hx _ => ?_
  rw [execute_leaf hl] at hx
  cases hend : m.leafEnd? i r.caps r.pos with
  | none => simp [hend] at hx
  | some t =>
    simp only [hend, Except.ok.injEq, Move.go.injEq] at hx
    subst hx
    exact h _ hr' rfl ⟨r.caps, hcaps, hend⟩

/-- 位置を変えずに飛ぶ。 -/
theorem rests_of_jump {addr : Int} {t : Nat} (hr : m.Reachable origin r)
    (hi : m.program.code[r.pc]? = some (.jump addr)) (ht : (t : Int) = r.pc + 1 + addr)
    (h : ∀ r', m.Reachable origin r' → r'.pc = t → r'.pos = r.pos → m.Rests origin r') : m.Rests origin r := by
  refine rests_of_go hr hi fun r' hr' hx _ => ?_
  simp only [execute, target_eq ht] at hx
  cases hx
  exact h _ hr' rfl rfl

/-- 枠を積むか、位置を変えずに飛ぶ。 -/
theorem rests_of_pushOrJump {addr : Int} {b : UInt8} {t : Nat} (hr : m.Reachable origin r)
    (hi : m.program.code[r.pc]? = some (.pushOrJump addr b)) (ht : (t : Int) = r.pc + 1 + addr)
    (h : ∀ r', m.Reachable origin r' → r'.pc = t → r'.pos = r.pos → m.Rests origin r') : m.Rests origin r := by
  refine rests_of_go hr hi fun r' hr' hx hlen => ?_
  simp only [execute, target_eq ht] at hx
  split at hx
  · exact absurd hlen (Move.Grows.ne (grows_push capped_next) hx)
  · cases hx
    exact h _ hr' rfl rfl

/-- 枠を積むか、そのまま次の命令へ移る。 -/
theorem rests_of_pushIfPeek {addr : Int} {b : UInt8} (hr : m.Reachable origin r)
    (hi : m.program.code[r.pc]? = some (.pushIfPeek addr b))
    (h : ∀ r', m.Reachable origin r' → r'.pc = r.pc + 1 → r'.pos = r.pos → m.Rests origin r') :
    m.Rests origin r := by
  refine rests_of_go hr hi fun r' hr' hx hlen => ?_
  simp only [execute] at hx
  split at hx
  · exact absurd hlen (Move.Grows.ne (grows_target fun _ => grows_push capped_next) hx)
  · cases hx
    exact h _ hr' rfl rfl

/-- 戻れれば枠を積み、戻れなければ位置を変えずに飛ぶ。 -/
theorem rests_of_pushLookBehindNot {addr : Int} {chars t : Nat} (hr : m.Reachable origin r)
    (hi : m.program.code[r.pc]? = some (.pushLookBehindNot addr chars)) (ht : (t : Int) = r.pc + 1 + addr)
    (h : ∀ r', m.Reachable origin r' → r'.pc = t → r'.pos = r.pos → m.Rests origin r') : m.Rests origin r := by
  refine rests_of_go hr hi fun r' hr' hx hlen => ?_
  simp only [execute, target_eq ht] at hx
  split at hx
  · rename_i q _
    have hgrows : Move.Grows r (m.push r (.behindNot t r.pos) >>= fun r => .ok (.go (r.moveTo q))) :=
      grows_push fun _ => capped_go rfl rfl
    exact absurd hlen (hgrows.ne hx)
  · cases hx
    exact h _ hr' rfl rfl

theorem memStart_go {n : Nat} {undo : Bool} {r' : Registers} (h : m.memStart n undo r = .ok (.go r')) :
    r'.pc = r.pc + 1 ∧ r'.pos = r.pos := by
  unfold memStart at h
  split at h
  · cases h
  · rename_i prior _
    cases undo with
    | false =>
      cases h
      exact ⟨rfl, rfl⟩
    | true =>
      rcases m.push_eq r (.memStart n prior) with hp | ⟨hp, -⟩ <;> simp only [if_true, hp] at h <;> cases h
      exact ⟨rfl, rfl⟩

theorem memEnd_go {n : Nat} {undo : Bool} {r' : Registers} (h : m.memEnd n undo r = .ok (.go r')) :
    r'.pc = r.pc + 1 ∧ r'.pos = r.pos := by
  unfold memEnd at h
  split at h
  · cases h
  · rename_i prior _
    cases undo with
    | false =>
      cases h
      exact ⟨rfl, rfl⟩
    | true =>
      rcases m.push_eq r (.memEnd n prior.stop) with hp | ⟨hp, -⟩ <;> simp only [if_true, hp] at h <;> cases h
      exact ⟨rfl, rfl⟩

end Matcher
end MultibyteRegex

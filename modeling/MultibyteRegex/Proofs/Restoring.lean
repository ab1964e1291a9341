import MultibyteRegex.Proofs.Undo

/-!
# 合わなかった照合の捕獲

どの書き込みも取り消せるプログラムでは、積んだ枠をすべて外せば、いつでも照合を始めたときの捕獲に戻る。合わずに
終わった照合は、枠をすべて外し終えているので、捕獲を書き換えていない。
-/

namespace MultibyteRegex

/-! ## 枠を外したときの捕獲 -/

/-- 枠を外したときの捕獲。 -/
def Frame.restore (f : Frame) (caps : Captures) : Captures :=
  match f with
  | .memStart n prior => caps.setIfInBounds n prior
  | .memEnd n prior => caps.modify n fun s => { s with stop := prior }
  | _ => caps

/-- 捕獲の始まりを書いても、枠を外せば元の捕獲に戻る。 -/
theorem Frame.restore_memStart {caps : Captures} {n : Nat} {prior : Slot} (h : caps[n]? = some prior) (s : Slot) :
    (Frame.memStart n prior).restore (caps.setIfInBounds n s) = caps := by
  refine Array.ext_getElem? fun k => ?_
  grind [Frame.restore]

/-- 捕獲の終わりを書いても、枠を外せば元の捕獲に戻る。 -/
theorem Frame.restore_memEnd {caps : Captures} {n : Nat} {prior : Slot} (h : caps[n]? = some prior)
    (stop : Option Nat) : (Frame.memEnd n prior.stop).restore (caps.setIfInBounds n ⟨prior.start, stop⟩) = caps := by
  obtain ⟨start, stop'⟩ := prior
  refine Array.ext_getElem? fun k => ?_
  grind [Frame.restore]

/-- 数える繰り返しの回数を忘れた枠。 -/
def Frame.uncounted : Frame → Frame
  | .repeatStart id pc _ => .repeatStart id pc 0
  | f => f

/-- 回数を忘れて等しい枠は、等しいか、回数だけが違う数える繰り返しである。 -/
theorem Frame.eq_of_uncounted {f f' : Frame} (h : f'.uncounted = f.uncounted) :
    f' = f ∨ ∃ id pc k k', f' = .repeatStart id pc k' ∧ f = .repeatStart id pc k := by
  cases f <;> cases f' <;> simp_all [Frame.uncounted]

namespace Stack

variable {st st' : Stack} {caps caps' : Captures} {f : Frame}

/-- 数える繰り返しの回数を忘れた積み重ね。 -/
def uncounted (st : Stack) : Stack := st.map Frame.uncounted

theorem length_uncounted (st : Stack) : st.uncounted.length = st.length := List.length_map _

theorem uncounted_setCount {index : Nat} {g : Nat → Nat} (h : st.setCount? index g = some st') :
    st'.uncounted = st.uncounted := by
  obtain ⟨above, id, b, k, below, rfl, -, rfl⟩ := setCount?_eq_some h
  simp only [uncounted, List.map_append, List.map_cons]
  rfl

/-- 枠をすべて外したときの捕獲。 -/
def rewind (st : Stack) (caps : Captures) : Captures := st.foldl (fun caps f => f.restore caps) caps

theorem rewind_cons (hf : ∀ caps, f.restore caps = caps) (st : Stack) (caps : Captures) :
    rewind (f :: st) caps = st.rewind caps := by
  rw [rewind, List.foldl_cons, hf]
  rfl

theorem restore_of_resume {target : Nat × Nat} (h : f.resume? = some target) (caps : Captures) :
    f.restore caps = caps := by
  cases f <;> first | rfl | cases h

/-- 外したときの捕獲は、回数に依らない。 -/
theorem rewind_uncounted (st : Stack) (caps : Captures) : st.uncounted.rewind caps = st.rewind caps := by
  induction st generalizing caps with
  | nil => rfl
  | cons f st ih =>
    have hf : f.uncounted.restore caps = f.restore caps := by
      cases f <;> rfl
    simp only [rewind, uncounted, List.map_cons, List.foldl_cons, hf] at ih ⊢
    exact ih _

theorem rewind_setCount {index : Nat} {g : Nat → Nat} (h : st.setCount? index g = some st') :
    st'.rewind caps = st.rewind caps := by
  rw [← rewind_uncounted, uncounted_setCount h, rewind_uncounted]

theorem rewind_undo (h : undo f st caps = some (st', caps')) :
    st'.rewind caps' = rewind (f :: st) caps := by
  unfold undo at h
  split at h
  · split at h <;> cases h
    rfl
  · split at h <;> cases h
    rfl
  · obtain ⟨s, hs, he⟩ := Option.map_eq_some_iff.1 h
    cases he
    have hset : st'.rewind caps = st.rewind caps := rewind_setCount hs
    exact hset
  · rename_i hstart hend _
    cases h
    refine (rewind_cons (fun caps => ?_) _ _).symm
    cases f <;> first | rfl | exact absurd rfl (hstart _ _) | exact absurd rfl (hend _ _)

theorem rewind_popResume {target : Option (Nat × Nat)} (h : (st.popResume caps).result = .ok target) :
    (st.popResume caps).stack.rewind (st.popResume caps).caps = st.rewind caps := by
  fun_induction popResume st caps with
  | case1 => rfl
  | case2 caps f st target hf => exact (rewind_cons (restore_of_resume hf) st caps).symm
  | case3 caps f st hf st' caps' hu ih => rw [ih h, rewind_undo hu]
  | case4 => cases h

theorem stack_of_popResume (h : (st.popResume caps).result = .ok none) :
    (st.popResume caps).stack = [] := by
  fun_induction popResume st caps with
  | case1 => rfl
  | case2 => cases h
  | case3 caps f st hf st' caps' hu ih => exact ih h
  | case4 => cases h

theorem rewind_popThrough {mark : Frame → Bool} (hm : ∀ f, mark f → ∀ caps, f.restore caps = caps)
    (h : (st.popThrough mark caps).result = .ok ()) :
    (st.popThrough mark caps).stack.rewind (st.popThrough mark caps).caps = st.rewind caps := by
  fun_induction popThrough mark st caps with
  | case1 => cases h
  | case2 caps f st hf => exact (rewind_cons (hm f hf) st caps).symm
  | case3 caps f st hf st' caps' hu ih => rw [ih h, rewind_undo hu]
  | case4 => cases h

theorem rewind_voidTo {α : Type} {mark : Frame → Option α}
    (hm : ∀ f a, mark f = some a → ∀ caps, f.restore caps = caps) :
    (st.voidTo mark).2.rewind caps = st.rewind caps := by
  induction st generalizing caps with
  | nil => rfl
  | cons f st ih =>
    unfold voidTo
    cases hf : mark f with
    | some a => exact (rewind_cons (hm f a hf) st caps).symm
    | none =>
      dsimp only
      split
      · rename_i hres
        obtain ⟨target, ht⟩ := Option.isSome_iff_exists.1 hres
        rw [rewind_cons (fun _ => rfl), rewind_cons (restore_of_resume ht), ih]
      · exact ih

theorem rewind_append {pushed : Stack} (hp : ∀ f ∈ pushed, ∀ caps, f.restore caps = caps) (st : Stack)
    (caps : Captures) : rewind (pushed ++ st) caps = st.rewind caps := by
  induction pushed with
  | nil => rfl
  | cons f pushed ih =>
    obtain ⟨hf, hp⟩ := List.forall_mem_cons.1 hp
    exact (rewind_cons hf _ _).trans (ih hp)

end Stack

/-! ## 命令 -/

/-- 捕獲に書き込むなら、前の値を積む。 -/
def Instruction.undoes : Instruction → Bool
  | .memStart _ undo => undo
  | .memEnd _ undo => undo
  | _ => true

/-- どの書き込みも取り消せる。 -/
def Program.Undoes (p : Program) : Prop := ∀ i ∈ p.code, i.undoes

/-- 捕獲を変えずに枠を積んだ。枠の下は、回数を除いて元の積み重ねのままである。 -/
def Registers.Grown (r s : Registers) : Prop :=
  s.caps = r.caps ∧ ∃ pushed st, s.stack = pushed ++ st ∧ Stack.uncounted st = r.stack.uncounted ∧
    ∀ f ∈ pushed, ∀ caps, f.restore caps = caps

/-- 書き込みを取り消せる命令が、積み重ねと捕獲にすること。 -/
inductive Registers.Turned (r s : Registers) : Prop
  | grown : r.Grown s → Turned r s
  | wrote (f) : ¬f.isResume → s.stack = f :: r.stack → f.restore s.caps = r.caps → Turned r s
  | voided {α : Type} (mark : Frame → Option α) : (∀ f a, mark f = some a → ∀ caps, f.restore caps = caps) →
      s.stack = (r.stack.voidTo mark).2 → s.caps = r.caps → Turned r s
  | dropped (mark : Frame → Bool) : (∀ f, mark f → ∀ caps, f.restore caps = caps) →
      (r.stack.popThrough mark r.caps).result = .ok () → s.stack = (r.stack.popThrough mark r.caps).stack →
      s.caps = (r.stack.popThrough mark r.caps).caps → Turned r s

/-- 進んだ先でも失敗した先でも、積み重ねと捕獲は決まったとおりに変わる。 -/
def Move.Turned (r : Registers) : Except EvalError Move → Prop
  | .ok (.go s) => r.Turned s
  | .ok (.fail s) => r.Turned s
  | .ok (.stop v) => v.length.isSome
  | .ok .abort => True
  | .error _ => True

namespace Matcher

variable {m : Matcher} {origin : Nat} {r s : Registers}

theorem grown_self (r : Registers) : r.Grown r := ⟨rfl, [], r.stack, rfl, rfl, nofun⟩

theorem grown_push {f : Frame} (hf : ∀ caps, f.restore caps = caps) (h : r.Grown s) {s' : Registers}
    (hp : m.push s f = .ok s') : r.Grown s' := by
  rcases m.push_eq s f with he | ⟨he, -⟩ <;> rw [he] at hp <;> cases hp
  obtain ⟨hcaps, pushed, st, hs, hst, hall⟩ := h
  exact ⟨hcaps, f :: pushed, st, congrArg (f :: ·) hs, hst, List.forall_mem_cons.2 ⟨hf, hall⟩⟩

theorem turned_push {f : Frame} {k : Registers → Except EvalError Move} (hf : ∀ caps, f.restore caps = caps)
    (h : r.Grown s) (hk : ∀ s', r.Grown s' → Move.Turned r (k s')) : Move.Turned r (m.push s f >>= k) := by
  cases hp : m.push s f with
  | error e => exact trivial
  | ok s' => exact hk s' (grown_push hf h hp)

theorem turned_target {addr : Int} {k : Nat → Except EvalError Move} (hk : ∀ pc, Move.Turned r (k pc)) :
    Move.Turned r (s.target addr >>= k) := by
  cases s.target addr with
  | error e => exact trivial
  | ok pc => exact hk pc

theorem turned_consume (n : Option Nat) (h : r.Grown s) : Move.Turned r (.ok (.consume n s)) := by
  cases n <;> exact .grown h

theorem turned_check (b : Bool) (h : r.Grown s) : Move.Turned r (.ok (.check b s)) := by
  cases b <;> exact .grown h

theorem accept_turned : Move.Turned r (.ok (m.accept origin r)) := by
  have h := grown_self r
  unfold accept
  dsimp only
  split
  · exact trivial
  · split
    · exact .grown h
    · split
      · split <;> exact .grown h
      · rfl

theorem anyStar_turned {newline : Bool} {peek : Option UInt8} (h : r.Grown s) :
    Move.Turned r (m.anyStar newline peek s) := by
  have hpush : ∀ {s s' : Registers} {take : Bool}, r.Grown s →
      (if take then m.push s (.alt (s.pc + 1) s.pos) else .ok s) = .ok s' → r.Grown s' := by
    intro s s' take h he
    cases take
    · cases he
      exact h
    · exact grown_push (fun _ => rfl) h he
  fun_induction anyStar m newline peek s with
  | case1 => exact trivial
  | case2 s hp b pushed s' he hb => exact .grown (hpush h he)
  | case3 s hp b pushed s' he hb ih =>
    have hs' : r.Grown s' := hpush h he
    exact ih hs'
  | case4 s => exact .grown h

theorem memStart_turned {n : Nat} : Move.Turned r (m.memStart n true r) := by
  unfold memStart
  split
  · exact trivial
  · rename_i prior hprior
    rcases m.push_eq r (.memStart n prior) with he | ⟨he, -⟩
    · rw [if_pos rfl, he]
      exact .wrote (.memStart n prior) nofun rfl (Frame.restore_memStart hprior _)
    · rw [if_pos rfl, he]
      exact trivial

theorem memEnd_turned {n : Nat} : Move.Turned r (m.memEnd n true r) := by
  unfold memEnd
  split
  · exact trivial
  · rename_i prior hprior
    rcases m.push_eq r (.memEnd n prior.stop) with he | ⟨he, -⟩
    · rw [if_pos rfl, he]
      exact .wrote (.memEnd n prior.stop) nofun rfl (Frame.restore_memEnd hprior _)
    · rw [if_pos rfl, he]
      exact trivial

theorem repeatStart_turned {id : Nat} {addr : Int} {greedy : Bool} :
    Move.Turned r (m.repeatStart id addr greedy r) := by
  unfold repeatStart
  split
  · exact trivial
  · refine turned_target fun exit => turned_push (fun _ => rfl) (grown_self r) fun s hs => ?_
    split
    · exact .grown hs
    · split
      · exact turned_push (fun _ => rfl) hs fun _ h => .grown h
      · exact turned_push (fun _ => rfl) hs fun _ h => .grown h

theorem repeatNext_turned {id : Nat} {greedy : Bool} : Move.Turned r (m.repeatNext id greedy r) := by
  have hgo : ∀ (s : Registers) (body : Nat) (more : Bool), r.Grown s →
      Move.Turned r (.ok (.go (if more then s.jump body else s.next))) := by
    intro s body more h
    cases more <;> exact .grown h
  unfold repeatNext
  split
  · exact trivial
  · split
    · exact trivial
    · split
      · rename_i stack _ hset
        have h : r.Grown { r with stack } :=
          ⟨rfl, [], stack, rfl, Stack.uncounted_setCount hset, fun _ hf => absurd hf List.not_mem_nil⟩
        revert h
        generalize { r with stack } = s
        intro h
        dsimp only
        split
        · split
          · exact turned_push (fun _ => rfl) h fun _ h => turned_push (fun _ => rfl) h fun _ h => hgo _ _ _ h
          · exact turned_push (s := s) (fun _ => rfl) h fun _ h => hgo _ _ _ h
        · split
          · refine turned_push (fun _ => rfl) h fun s' hs' => ?_
            split
            · exact turned_push (fun _ => rfl) hs' fun _ h => .grown h
            · exact .grown hs'
          · split
            · exact turned_push (fun _ => rfl) h fun _ h => .grown h
            · exact .grown h
      · exact trivial

theorem nullCheckEnd_turned {id : Nat} {captures : Bool} : Move.Turned r (m.nullCheckEnd id captures r) := by
  have h := grown_self r
  unfold nullCheckEnd
  split
  · exact trivial
  · dsimp only
    generalize (_ && _ : Bool) = b
    cases b
    · exact .grown h
    · rw [if_pos rfl]
      split
      · exact .grown h
      · exact trivial

theorem failThrough_turned {mark : Frame → Bool} (hm : ∀ f, mark f → ∀ caps, f.restore caps = caps) :
    Move.Turned r (failThrough mark r) := by
  unfold failThrough
  dsimp only
  split
  · rename_i hp
    exact .dropped mark hm hp rfl rfl
  · exact trivial

/-- 書き込みを取り消せる命令は、どれも積み重ねと捕獲を決まったとおりに変える。 -/
theorem execute_turned {i : Instruction} (hi : i.undoes) : Move.Turned r (m.execute origin i r) := by
  have h := grown_self r
  have hpush : ∀ {f : Frame} {k : Registers → Registers}, (∀ caps, f.restore caps = caps) →
      (∀ s, r.Grown s → r.Grown (k s)) → Move.Turned r (m.push r f >>= fun s => .ok (.go (k s))) :=
    fun hf hk => turned_push hf h fun s hs => .grown (hk s hs)
  cases i with
  | accept => exact accept_turned
  | anyStar newline peek => exact anyStar_turned h
  | memStart n undo =>
    obtain rfl : undo = true := hi
    exact memStart_turned
  | memEnd n undo =>
    obtain rfl : undo = true := hi
    exact memEnd_turned
  | fail => exact .grown h
  | jump addr => exact turned_target fun _ => .grown h
  | push addr => exact turned_target fun _ => hpush (fun _ => rfl) fun _ h => h
  | pushOrJump addr b =>
    refine turned_target fun _ => ?_
    split
    · exact hpush (fun _ => rfl) fun _ h => h
    · exact .grown h
  | pushIfPeek addr b =>
    simp only [execute]
    split
    · exact turned_target fun _ => hpush (fun _ => rfl) fun _ h => h
    · exact .grown h
  | repeatStart id addr greedy => exact repeatStart_turned
  | repeatNext id greedy => exact repeatNext_turned
  | nullCheckStart id captures => exact hpush (fun _ => rfl) fun _ h => h
  | nullCheckEnd id captures => exact nullCheckEnd_turned
  | pushPos => exact hpush (fun _ => rfl) fun _ h => h
  | popPos =>
    simp only [execute, Stack.voidToPos]
    split
    · rename_i hv
      exact .voided _ (fun f a hf caps => by cases f <;> first | rfl | cases hf) (congrArg Prod.snd hv).symm rfl
    · exact trivial
  | pushPosNot addr => exact turned_target fun _ => hpush (fun _ => rfl) fun _ h => h
  | failPos => exact failThrough_turned fun f hf caps => by cases f <;> first | rfl | cases hf
  | pushAtomic => exact hpush (fun _ => rfl) fun _ h => h
  | popAtomic =>
    simp only [execute, Stack.voidToAtomic]
    split
    · rename_i hv
      exact .voided _ (fun f a hf caps => by cases f <;> first | rfl | cases hf) (congrArg Prod.snd hv).symm rfl
    · exact trivial
  | lookBehind chars =>
    simp only [execute]
    split <;> exact .grown h
  | pushLookBehindNot addr chars =>
    refine turned_target fun _ => ?_
    split
    · exact hpush (fun _ => rfl) fun _ h => h
    · exact .grown h
  | failLookBehindNot => exact failThrough_turned fun f hf caps => by cases f <;> first | rfl | cases hf
  | wordBound atBound | wordBegin | wordEnd | beginBuf | endBuf | semiEndBuf | beginPosition
  | beginLine perLine | endLine perLine => exact turned_check _ h
  | _ => exact turned_consume _ h

end Matcher

/-! ## 枠をすべて外したときの捕獲 -/

/-- 枠をすべて外すと `d` に戻る。 -/
def Registers.Restores (d : Captures) (r : Registers) : Prop := r.stack.rewind r.caps = d

/-- 命令の前後で、枠をすべて外したときの捕獲は変わらない。 -/
theorem Registers.Turned.restores {r s : Registers} {d : Captures} (h : r.Turned s) (hr : r.Restores d) :
    s.Restores d := by
  refine Eq.trans ?_ hr
  cases h with
  | grown h =>
    obtain ⟨hcaps, pushed, st, hs, hst, hp⟩ := h
    rw [hs, hcaps, Stack.rewind_append hp, ← Stack.rewind_uncounted, hst, Stack.rewind_uncounted]
  | wrote f _ hs hf =>
    rw [hs, ← hf]
    rfl
  | voided mark hm hs hcaps =>
    rw [hs, hcaps]
    exact Stack.rewind_voidTo hm
  | dropped mark hm hp hs hcaps =>
    rw [hs, hcaps]
    exact Stack.rewind_popThrough hm hp

/-- 一歩の先でも枠をすべて外すと `d` に戻り、合わずに終わるなら捕獲は `d` である。 -/
def Progress.Restores (d : Captures) : Except EvalError Progress → Prop
  | .ok (.running r) => r.Restores d
  | .ok (.done v) => v.length = none → v.caps = d
  | .ok .aborted => True
  | .error _ => True

namespace Matcher

variable {m : Matcher} {origin fuel : Nat} {r : Registers} {d : Captures}

theorem backtrack_restores (h : r.Restores d) : Progress.Restores d (m.backtrack r) := by
  unfold backtrack
  dsimp only
  split
  · exact trivial
  · rename_i hp
    split
    · exact nofun
    · intro _
      have hrewind := Stack.rewind_popResume hp
      rw [Stack.stack_of_popResume hp] at hrewind
      exact hrewind.trans h
  · rename_i hp
    split
    · exact trivial
    · exact (Stack.rewind_popResume hp).trans h

/-- どの書き込みも取り消せるなら、一歩の前後で、枠をすべて外したときの捕獲は変わらない。 -/
theorem step_restores (hu : m.program.Undoes) (h : r.Restores d) :
    Progress.Restores d (m.step origin r) := by
  unfold step
  cases hi : m.program.code[r.pc]? with
  | none => exact trivial
  | some i =>
    have hturn : Move.Turned r (m.execute origin i r) := execute_turned (hu i (Array.mem_of_getElem? hi))
    dsimp only
    split
    · exact trivial
    · rename_i hx
      rw [hx] at hturn
      exact hturn.restores h
    · rename_i hx
      rw [hx] at hturn
      exact backtrack_restores (hturn.restores h)
    · rename_i hx
      rw [hx] at hturn
      intro hnone
      rw [Move.Turned, hnone] at hturn
      cases hturn
    · exact trivial

theorem run_restores (hu : m.program.Undoes) (h : r.Restores d) {v : Verdict}
    (hr : m.run origin fuel r = some (.ok v)) (hnone : v.length = none) : v.caps = d := by
  induction fuel generalizing r with
  | zero => cases hr
  | succ fuel ih =>
    have hstep : Progress.Restores d (m.step origin r) := step_restores hu h
    unfold run at hr
    split at hr
    · cases hr
    · rename_i hs
      cases hr
      rw [hs] at hstep
      exact hstep hnone
    · cases hr
    · rename_i hs
      rw [hs] at hstep
      exact ih hstep hr

/-- どの書き込みも取り消せるなら、合わずに終わった照合は、捕獲を書き換えていない。 -/
theorem Returns.caps_of_none (hu : m.program.Undoes) {v : Verdict}
    (h : m.Returns origin v) (hnone : v.length = none) : v.caps = .fresh m.program.groups := by
  obtain ⟨fuel, h⟩ := h
  unfold matchAt at h
  split at h
  · cases h
  · exact run_restores hu (r := { pc := 0, pos := origin, caps := .fresh m.program.groups }) rfl h hnone

/-- どの書き込みも取り消せるなら、答えの一致する照合は、合わずに残す捕獲も一致する。 -/
theorem returns_iff_of_answers {m' : Matcher} (hu : m.program.Undoes) (hu' : m'.program.Undoes)
    (hgroups : m'.program.groups = m.program.groups)
    (h : ∀ a, (∃ v, m'.Returns origin v ∧ v.answer = a) ↔ ∃ v, m.Returns origin v ∧ v.answer = a)
    (v : Verdict) : m'.Returns origin v ↔ m.Returns origin v := by
  -- 合わなければ、どちらの捕獲も初めのままである
  have heq : ∀ {v v'}, m'.Returns origin v → m.Returns origin v' → v.answer = v'.answer → v = v' := by
    intro v v' hv hv' ha
    obtain ⟨length, caps⟩ := v
    obtain ⟨length', caps'⟩ := v'
    cases length with
    | none =>
      cases length' with
      | none =>
        obtain rfl : caps = _ := hv.caps_of_none hu' rfl
        obtain rfl : caps' = _ := hv'.caps_of_none hu rfl
        rw [hgroups]
      | some length' => cases ha
    | some length =>
      cases length' with
      | none => cases ha
      | some length' =>
        cases ha
        rfl
  constructor
  · intro hv
    obtain ⟨v', hv', ha⟩ := (h v.answer).1 ⟨v, hv, rfl⟩
    rwa [heq hv hv' ha.symm]
  · intro hv
    obtain ⟨v', hv', ha⟩ := (h v.answer).2 ⟨v, hv, rfl⟩
    rwa [← heq hv' hv ha]

end Matcher

/-! ## 命令の生成 -/

theorem Instruction.undoes_of_isControl {i : Instruction} (h : i.isControl) : i.undoes := by
  cases i <;> first | rfl | cases h

theorem Instruction.undoes_of_isLeaf {i : Instruction} (h : i.isLeaf) : i.undoes := by
  cases i <;> first | rfl | cases h

namespace CodeEnv

variable {env : CodeEnv}

mutual
/-- 取り消しなしに書く番号のない節では、どの書き込みも取り消せる。 -/
theorem emit_undoes : (n : Node) → {options : Options} → n.unmarked = [] →
    (env.emit options n).Only (·.undoes)
  | .list ns, _, h => emitList_undoes ns h
  | .alt ns, _, h => emitAlt_undoes ns h
  | .scoped _ body, _, h => emit_undoes body h
  | .loop l body, _, h => by
    refine emit_loop_only (fun _ => Instruction.undoes_of_isControl) (emit_undoes body h) (fun addr => ?_)
      fun _ => rfl
    unfold Emit.enter
    split <;> rfl
  | .group (.capture n undo) body, _, h => by
    cases undo with
    | false => cases h
    | true =>
      refine emit_group_only (fun _ => Instruction.undoes_of_isControl) (emit_undoes body h) fun k undo he => ?_
      cases he
      exact ⟨rfl, rfl⟩
  | .group .atomic body, _, h | .group .ahead body, _, h | .group .notAhead body, _, h
  | .group .behind body, _, h | .group .notBehind body, _, h =>
    emit_group_only (fun _ => Instruction.undoes_of_isControl) (emit_undoes body h) nofun
  | .empty, _, _ => .nil
  | .str bytes, _, _ => by
    intro c c' code hc i hi
    obtain ⟨fold, -, hc⟩ := Except.bind_eq_ok hc
    cases hc
    exact Instruction.undoes_of_isLeaf (Literal.isLeaf_code _ _ _ i hi)
  | .raw bytes, _, _ => by
    intro c c' code hc i hi
    cases hc
    exact Instruction.undoes_of_isLeaf (Literal.isLeaf_code _ _ _ i hi)
  | .cclass _, _, _ => .instr (Instruction.undoes_of_isLeaf (isLeaf_classInstruction ..))
  | .anchor _, _, _ => .instr (Instruction.undoes_of_isLeaf (isLeaf_anchorInstruction ..))
  | .word _, _, _ | .any, _, _ | .backref _, _, _ => .instr rfl

theorem emitList_undoes : (ns : List Node) → {options : Options} → Node.unmarkedIn ns = [] →
    Emit.Only (·.undoes) (env.emitList options ns)
  | [], _, _ => .nil
  | n :: ns, _, h => by
    obtain ⟨hn, hns⟩ := List.append_eq_nil_iff.1 h
    exact (emit_undoes n hn).append (emitList_undoes ns hns)

theorem emitAlt_undoes : (ns : List Node) → {options : Options} → Node.unmarkedIn ns = [] →
    Emit.Only (·.undoes) (env.emitAlt options ns)
  | [], _, _ => .nil
  | [n], _, h => emit_undoes n (List.append_eq_nil_iff.1 h).1
  | n :: m :: ns, _, h => by
    obtain ⟨hn, hns⟩ := List.append_eq_nil_iff.1 h
    exact emitAlt_cons_only (fun _ => Instruction.undoes_of_isControl) (emit_undoes n hn)
      (emitAlt_undoes (m :: ns) hns)
end

/-- 取り消しなしに書く番号のない木のプログラムは、どの書き込みも取り消せる。 -/
theorem compile_undoes {options : Options} {groups : Nat} {root : Node} {program : Program}
    (h : env.compile options groups root = .ok program) (hu : root.unmarked = []) : program.Undoes :=
  compile_only (fun _ => Instruction.undoes_of_isControl) h (emit_undoes root hu)

end CodeEnv
end MultibyteRegex

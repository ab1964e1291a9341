import MultibyteRegex.Proofs.Restoring

/-!
# 再開点へ戻ったときの捕獲

どの書き込みも取り消せるプログラムでは、再開点へ戻ると、その枠を積んだときの捕獲に戻る。枠の下に残る積み重ねは、
数える繰り返しの回数を除いて、積んだときのままである。枠の上にある記録を新しい方から取り消せば、いつでもその枠を
積んだときの捕獲になることが、一歩ごとに保たれる。
-/

namespace MultibyteRegex

/-! ## 記録の並び -/

namespace Stack

/-- 上にある枠を外し終えたとき、どの再開点の枠も、その下の積み重ねと捕獲とともに `P` を満たす。 -/
def Journaled (P : Frame → Stack → Captures → Prop) : Stack → Captures → Prop
  | [], _ => True
  | f :: st, caps => (f.isResume → P f (uncounted st) caps) ∧ Journaled P st (f.restore caps)

variable {P Q : Frame → Stack → Captures → Prop} {st st' : Stack} {caps caps' : Captures} {f : Frame}

namespace Journaled

theorem mono (hP : ∀ f st caps, P f st caps → Q f st caps) (h : Journaled P st caps) : Journaled Q st caps := by
  induction st generalizing caps with
  | nil => trivial
  | cons f st ih => exact ⟨fun hf => hP _ _ _ (h.1 hf), ih h.2⟩

theorem recount (heq : st'.uncounted = st.uncounted) (h : Journaled P st caps) : Journaled P st' caps := by
  induction st generalizing st' caps with
  | nil =>
    obtain rfl : st' = [] := List.map_eq_nil_iff.1 heq
    trivial
  | cons f st ih =>
    obtain ⟨f', st', rfl, hf, hst⟩ := List.map_eq_cons_iff.1 heq
    have hst : uncounted st' = uncounted st := hst
    rcases Frame.eq_of_uncounted hf with rfl | ⟨id, pc, k, k', rfl, rfl⟩
    · exact ⟨fun hf' => hst ▸ h.1 hf', ih hst h.2⟩
    · exact ⟨nofun, ih hst h.2⟩

theorem append {pushed : Stack} (hp : ∀ f ∈ pushed, ∀ caps, f.restore caps = caps)
    (hnew : ∀ above f below, pushed = above ++ f :: below → f.isResume → P f (uncounted (below ++ st)) caps)
    (h : Journaled P st caps) : Journaled P (pushed ++ st) caps := by
  induction pushed with
  | nil => exact h
  | cons f pushed ih =>
    obtain ⟨hf, hp⟩ := List.forall_mem_cons.1 hp
    refine ⟨hnew [] f pushed rfl, ?_⟩
    rw [hf]
    exact ih hp fun above g below he => hnew (f :: above) g below (by rw [he]; rfl)

theorem undo (h : Journaled P (f :: st) caps) (hu : undo f st caps = some (st', caps')) :
    Journaled P st' caps' := by
  have hst := h.2
  unfold Stack.undo at hu
  split at hu
  · split at hu <;> cases hu
    exact hst
  · split at hu <;> cases hu
    exact hst
  · obtain ⟨s, hs, he⟩ := Option.map_eq_some_iff.1 hu
    cases he
    exact hst.recount (uncounted_setCount hs)
  · rename_i hstart hend _
    cases hu
    have hid : f.restore caps = caps := by
      cases f <;> first | rfl | exact absurd rfl (hstart _ _) | exact absurd rfl (hend _ _)
    rwa [hid] at hst

/-- 最も新しい再開点へ戻ると、その枠の下の積み重ねと捕獲が、記録のとおりになる。 -/
theorem popResume {pc pos : Nat} (h : Journaled P st caps)
    (hp : (st.popResume caps).result = .ok (some (pc, pos))) :
    ∃ f, f.resume? = some (pc, pos) ∧
      P f (st.popResume caps).stack.uncounted (st.popResume caps).caps ∧
      Journaled P (st.popResume caps).stack (st.popResume caps).caps := by
  fun_induction Stack.popResume st caps with
  | case1 => cases hp
  | case2 caps f st target hf =>
    cases hp
    have hresume : f.isResume := by simp [Frame.isResume, hf]
    have hst := h.2
    rw [restore_of_resume hf] at hst
    exact ⟨f, hf, h.1 hresume, hst⟩
  | case3 caps f st hf st' caps' hu ih => exact ih (h.undo hu) hp
  | case4 => cases hp

theorem popThrough {mark : Frame → Bool} (hm : ∀ f, mark f → ∀ caps, f.restore caps = caps)
    (h : Journaled P st caps) (hp : (st.popThrough mark caps).result = .ok ()) :
    Journaled P (st.popThrough mark caps).stack (st.popThrough mark caps).caps := by
  fun_induction Stack.popThrough mark st caps with
  | case1 => cases hp
  | case2 caps f st hf =>
    have hst := h.2
    rwa [hm f hf] at hst
  | case3 caps f st hf st' caps' hu ih => exact ih (h.undo hu) hp
  | case4 => cases hp

theorem voidTo {α : Type} {mark : Frame → Option α}
    (hm : ∀ f a, mark f = some a → ∀ caps, f.restore caps = caps) (h : Journaled P st caps) :
    Journaled P (st.voidTo mark).2 caps := by
  induction st generalizing caps with
  | nil => trivial
  | cons f st ih =>
    unfold Stack.voidTo
    cases hf : mark f with
    | some a =>
      have hst := h.2
      rw [hm f a hf] at hst
      exact ⟨fun hf => absurd hf Bool.false_ne_true, hst⟩
    | none =>
      dsimp only
      split
      · rename_i hres
        obtain ⟨target, ht⟩ := Option.isSome_iff_exists.1 hres
        have hst := h.2
        rw [restore_of_resume ht] at hst
        exact ⟨fun hf => absurd hf Bool.false_ne_true, ih hst⟩
      · rename_i hres
        exact ⟨fun hf => absurd hf hres, ih h.2⟩

theorem holds (above : Stack) (h : Journaled P st caps) :
    Journaled (fun f below caps => P f below caps ∧ ∃ above' below', above ++ st = above' ++ f :: below' ∧
      below'.length = below.length) st caps := by
  induction st generalizing above caps with
  | nil => trivial
  | cons f st ih =>
    refine ⟨fun hf => ⟨h.1 hf, above, st, rfl, (length_uncounted st).symm⟩, ?_⟩
    have := ih (above ++ [f]) h.2
    rwa [List.append_assoc] at this

end Journaled

end Stack

/-! ## 実行の記録 -/

/-- 命令の前後で記録は保たれる。新しく積んだ再開点は、命令の前の捕獲とともに記録する。 -/
theorem Registers.Turned.journaled {P : Frame → Stack → Captures → Prop} {r s : Registers} (h : r.Turned s)
    (hr : r.stack.Journaled P r.caps)
    (hnew : ∀ above f below, s.stack = above ++ f :: below → r.stack.length ≤ below.length → s.caps = r.caps →
      f.isResume → P f (Stack.uncounted below) r.caps) :
    s.stack.Journaled P s.caps := by
  cases h with
  | grown h =>
    obtain ⟨hcaps, pushed, st, hs, hst, hp⟩ := h
    rw [hs, hcaps]
    refine .append hp (fun above f below he hf => ?_) (hr.recount hst)
    have hlength : st.length = r.stack.length := by
      rw [← Stack.length_uncounted st, hst, Stack.length_uncounted]
    refine hnew above f (below ++ st) (by rw [hs, he, List.append_assoc]; rfl) ?_ hcaps hf
    rw [List.length_append]
    omega
  | wrote f hf hs hcaps =>
    rw [hs]
    exact ⟨fun h => absurd h hf, by rwa [hcaps]⟩
  | voided mark hm hs hcaps =>
    rw [hs, hcaps]
    exact hr.voidTo hm
  | dropped mark hm hp hs hcaps =>
    rw [hs, hcaps]
    exact hr.popThrough hm hp

/-- 続きがある。 -/
def Progress.isRunning : Progress → Bool
  | .running _ => true
  | .done _ | .aborted => false

namespace Matcher

/-- 初めの `n` 歩で順に着く状態。 -/
structure Runs (m : Matcher) (origin : Nat) (rs : Nat → Registers) (n : Nat) : Prop where
  start : rs 0 = { pc := 0, pos := origin, caps := .fresh m.program.groups }
  step : ∀ k < n, m.step origin (rs k) = .ok (.running (rs (k + 1)))

/-- `r` で実行する命令が、捕獲を変えずに、`below` の上に枠を積む。 -/
def Pushes (m : Matcher) (origin : Nat) (r : Registers) (f : Frame) (below : Stack) : Prop :=
  ∃ i s above, m.program.code[r.pc]? = some i ∧
    (m.execute origin i r = .ok (.go s) ∨ m.execute origin i r = .ok (.fail s)) ∧
    s.stack = above ++ f :: below ∧ r.stack.length ≤ below.length ∧ s.caps = r.caps

/-- 下に枠が `height` 枚ある所に、枠がある。 -/
def Holds (st : Stack) (f : Frame) (height : Nat) : Prop :=
  ∃ above below, st = above ++ f :: below ∧ below.length = height

/-- `rs` の初めの `n` 個のどれかで、捕獲が `caps` のときに、`below` の上に積んだ枠である。`upto` 番目まで同じ所に残る。 -/
def Recorded (m : Matcher) (origin : Nat) (rs : Nat → Registers) (n upto : Nat) (f : Frame) (below : Stack)
    (caps : Captures) : Prop :=
  ∃ k < n, ∃ st, m.Pushes origin (rs k) f st ∧ below = st.uncounted ∧ caps = (rs k).caps ∧
    ∀ j, k < j → j ≤ upto → Holds (rs j).stack f st.length

variable {m : Matcher} {origin n : Nat} {rs : Nat → Registers} {r s : Registers}

theorem journaled_execute (hu : m.program.Undoes)
    (hj : (rs n).stack.Journaled (m.Recorded origin rs n n) (rs n).caps) {i : Instruction}
    (hi : m.program.code[(rs n).pc]? = some i)
    (hs : m.execute origin i (rs n) = .ok (.go s) ∨ m.execute origin i (rs n) = .ok (.fail s)) :
    s.stack.Journaled (m.Recorded origin rs (n + 1) n) s.caps := by
  have hturn : (rs n).Turned s := by
    have hall : Move.Turned (rs n) (m.execute origin i (rs n)) := execute_turned (hu i (Array.mem_of_getElem? hi))
    rcases hs with hs | hs <;> rw [hs] at hall <;> exact hall
  refine hturn.journaled (hj.mono fun f below caps h => ?_) fun above f below hstack hle hcaps hf => ?_
  · obtain ⟨k, hk, st, h⟩ := h
    exact ⟨k, Nat.lt_succ_of_lt hk, st, h⟩
  · exact ⟨n, Nat.lt_succ_self n, below, ⟨i, s, above, hi, hs, hstack, hle, hcaps⟩, rfl, rfl,
      fun j hlt hle => absurd hlt (Nat.not_lt.2 hle)⟩

/-- 戻った先でも、残るどの再開点も記録されている。戻った再開点の記録は、そのときの捕獲と積み重ねに合う。 -/
theorem journaled_backtrack {P : Frame → Stack → Captures → Prop} (hj : s.stack.Journaled P s.caps)
    (hb : m.backtrack s = .ok (.running r)) :
    ∃ f, f.resume? = some (r.pc, r.pos) ∧ P f r.stack.uncounted r.caps ∧ r.stack.Journaled P r.caps := by
  unfold backtrack at hb
  dsimp only at hb
  split at hb
  · cases hb
  · split at hb <;> cases hb
  · rename_i pc pos hp
    split at hb
    · cases hb
    · cases hb
      exact hj.popResume hp

theorem journaled_step (hu : m.program.Undoes) (hs : m.step origin (rs n) = .ok (.running (rs (n + 1))))
    (hj : (rs n).stack.Journaled (m.Recorded origin rs n n) (rs n).caps) :
    (rs (n + 1)).stack.Journaled (m.Recorded origin rs (n + 1) (n + 1)) (rs (n + 1)).caps := by
  have hnext : (rs (n + 1)).stack.Journaled (m.Recorded origin rs (n + 1) n) (rs (n + 1)).caps := by
    unfold step at hs
    cases hi : m.program.code[(rs n).pc]? with
    | none =>
      rw [hi] at hs
      cases hs
    | some i =>
      rw [hi] at hs
      dsimp only at hs
      split at hs
      · cases hs
      · rename_i hx
        cases hs
        exact journaled_execute hu hj hi (.inl hx)
      · rename_i hx
        obtain ⟨f, -, -, hj⟩ := journaled_backtrack (journaled_execute hu hj hi (.inr hx)) hs
        exact hj
      · cases hs
      · cases hs
  -- 残った枠は、新しい積み重ねの中でも同じ所にある
  refine (hnext.holds []).mono fun f below caps h => ?_
  obtain ⟨⟨k, hk, st, hpush, rfl, hcaps, hkept⟩, hhere⟩ := h
  refine ⟨k, hk, st, hpush, rfl, hcaps, fun j hlt hle => ?_⟩
  rcases Nat.lt_or_eq_of_le hle with hle | rfl
  · exact hkept j hlt (Nat.le_of_lt_succ hle)
  · rwa [Stack.length_uncounted] at hhere

theorem Runs.journaled (hu : m.program.Undoes) (h : m.Runs origin rs n) :
    ∀ k ≤ n, (rs k).stack.Journaled (m.Recorded origin rs k k) (rs k).caps := by
  intro k hk
  induction k with
  | zero =>
    rw [h.start]
    trivial
  | succ k ih => exact journaled_step hu (h.step k hk) (ih (Nat.le_of_succ_le hk))

/-- どの書き込みも取り消せるなら、再開点へ戻ると、その枠を積んだときの捕獲に戻り、枠の下は回数を除いて積んだときの
ままである。積んでから戻るまで、枠はずっと同じ所に残る。 -/
theorem Runs.resume_restores (hu : m.program.Undoes) (h : m.Runs origin rs n) {i : Instruction}
    (hi : m.program.code[(rs n).pc]? = some i) (hx : m.execute origin i (rs n) = .ok (.fail s))
    (hb : m.backtrack s = .ok (.running r)) :
    ∃ k ≤ n, ∃ f below, m.Pushes origin (rs k) f below ∧ f.resume? = some (r.pc, r.pos) ∧
      r.caps = (rs k).caps ∧ r.stack.uncounted = Stack.uncounted below ∧
      ∀ j, k < j → j ≤ n → Holds (rs j).stack f below.length := by
  obtain ⟨f, hf, ⟨k, hk, below, hpush, hbelow, hcaps, hkept⟩, -⟩ :=
    journaled_backtrack (journaled_execute hu (h.journaled hu n (Nat.le_refl n)) hi (.inr hx)) hb
  exact ⟨k, Nat.le_of_lt_succ hk, f, below, hpush, hf, hcaps, hbelow, hkept⟩

/-- `k` 歩進めた状態。止まれば、そこにとどまる。 -/
def trail (m : Matcher) (origin : Nat) : Nat → Registers
  | 0 => { pc := 0, pos := origin, caps := .fresh m.program.groups }
  | k + 1 =>
    match m.step origin (m.trail origin k) with
    | .ok (.running r) => r
    | _ => m.trail origin k

/-- 先読みの中で捕獲と分岐を積み、先読みの終わりで分岐を無効にしてから失敗する。 -/
def peeking : Matcher where
  program := {
    code := #[.push 7, .memStart 1 true, .pushPos, .push 3, .exact .one [0x61], .popPos, .memEnd 1 true, .fail,
      .accept]
    encoding := .utf8
    options := .none
    fold := .ascii
    groups := 1
    repeats := #[]
    nullChecks := 0 }
  text := #[0x61]
  searchStart := 0
  options := .none
  limits := .unlimited

/-- 無効にした枠を越えて、先読みの前の分岐へ戻る例。 -/
theorem Runs.resume_restores_peeking : ∃ s r, peeking.program.Undoes ∧ peeking.Runs 0 (peeking.trail 0) 7 ∧
    peeking.program.code[(peeking.trail 0 7).pc]? = some .fail ∧
    peeking.execute 0 .fail (peeking.trail 0 7) = .ok (.fail s) ∧ peeking.backtrack s = .ok (.running r) ∧
    ∃ k ≤ 7, ∃ f below, peeking.Pushes 0 (peeking.trail 0 k) f below ∧ f.resume? = some (r.pc, r.pos) ∧
      r.caps = (peeking.trail 0 k).caps ∧ r.stack.uncounted = Stack.uncounted below ∧
      ∀ j, k < j → j ≤ 7 → Holds (peeking.trail 0 j).stack f below.length := by
  have hu : peeking.program.Undoes := by
    unfold Program.Undoes
    decide
  have hruns : peeking.Runs 0 (peeking.trail 0) 7 := by
    refine ⟨rfl, fun k hk => ?_⟩
    have hall : ∀ k < 7, (peeking.step 0 (peeking.trail 0 k)).toOption.any Progress.isRunning := by
      decide +kernel
    obtain ⟨p, hp, hrunning⟩ := exists_ok (hall k hk)
    cases p with
    | running r => simp only [trail, hp]
    | done v => cases hrunning
    | aborted => cases hrunning
  have hpc : (peeking.trail 0 7).pc = 7 := by decide +kernel
  have hcode : peeking.program.code[(peeking.trail 0 7).pc]? = some .fail := by
    rw [hpc]
    rfl
  obtain ⟨p, hp, hrunning⟩ := exists_ok (x := peeking.backtrack (peeking.trail 0 7))
    (p := Progress.isRunning) (by decide +kernel)
  cases p with
  | done v => cases hrunning
  | aborted => cases hrunning
  | running r =>
    exact ⟨peeking.trail 0 7, r, hu, hruns, hcode, rfl, hp, hruns.resume_restores hu hcode rfl hp⟩

end Matcher
end MultibyteRegex

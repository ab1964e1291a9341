import MultibyteRegex.Proofs.Leaf
import MultibyteRegex.Proofs.Nesting
import MultibyteRegex.Proofs.WellFormed

/-! 命令の生成が成功したときの、部品への分解。生成した命令の数は、前もって計算した数に等しい。 -/
namespace MultibyteRegex

theorem relative_eq_ok {n : Nat} {addr : Int} (h : relative n = .ok addr) : addr = n := by
  unfold relative at h
  split at h
  · cases h; rfl
  · cases h

namespace Emit

variable {a b : Emit} {c c' : Counters} {code : List Instruction}

theorem append_eq_ok (h : a.append b c = .ok (code, c')) :
    ∃ xs d ys, a c = .ok (xs, d) ∧ b d = .ok (ys, c') ∧ code = xs ++ ys := by
  unfold append at h
  split at h
  · cases h
  · rename_i xs d ha
    split at h
    · cases h
    · rename_i ys d' hb
      cases h
      exact ⟨xs, d, ys, ha, hb, rfl⟩

theorem instr_eq_ok {i : Instruction} (h : instr i c = .ok (code, c')) : code = [i] ∧ c' = c := by
  cases h
  exact ⟨rfl, rfl⟩

theorem jumpTo_eq_ok {f : Int → Instruction} {n : Nat} (h : jumpTo f n c = .ok (code, c')) :
    code = [f n] ∧ c' = c := by
  unfold jumpTo at h
  split at h
  · rename_i addr ha
    cases h
    exact ⟨by rw [relative_eq_ok ha], rfl⟩
  · cases h

theorem between_eq_ok {first last : Instruction}
    (h : CodeEnv.between first last a c = .ok (code, c')) :
    ∃ body, a c = .ok (body, c') ∧ code = first :: (body ++ [last]) := by
  obtain ⟨xs, d, ys, hx, hy, rfl⟩ := append_eq_ok h
  obtain ⟨rfl, rfl⟩ := instr_eq_ok hx
  obtain ⟨body, d, zs, hb, hz, rfl⟩ := append_eq_ok hy
  obtain ⟨rfl, rfl⟩ := instr_eq_ok hz
  exact ⟨body, hb, rfl⟩

/-- 検査で挟むときは、本体より先に検査の番号を配る。 -/
theorem guarded_eq_ok {empty : EmptyBody} (h : guarded empty a c = .ok (code, c')) :
    empty = .never ∧ a c = .ok (code, c') ∨
    empty ≠ .never ∧ ∃ body captures,
      a { c with nullChecks := c.nullChecks + 1 } = .ok (body, c') ∧
      code = .nullCheckStart c.nullChecks captures ::
        (body ++ [.nullCheckEnd c.nullChecks captures]) := by
  cases empty with
  | never => exact .inl ⟨rfl, h⟩
  | possible =>
    obtain ⟨body, hb, hc⟩ := between_eq_ok h
    exact .inr ⟨EmptyBody.noConfusion, body, _, hb, hc⟩
  | possibleWithCaptures =>
    obtain ⟨body, hb, hc⟩ := between_eq_ok h
    exact .inr ⟨EmptyBody.noConfusion, body, _, hb, hc⟩

theorem times_zero_eq_ok (h : a.times 0 c = .ok (code, c')) : code = [] ∧ c' = c := by
  cases h
  exact ⟨rfl, rfl⟩

theorem optionalTimes_succ_eq_ok {size n : Nat}
    (h : a.optionalTimes size (n + 1) c = .ok (code, c')) :
    ∃ body d rest, a c = .ok (body, d) ∧ a.optionalTimes size n d = .ok (rest, c') ∧
      code = .push ↑((n + 1) * size + n) :: (body ++ rest) := by
  obtain ⟨xs, d, ys, hx, hy, rfl⟩ := append_eq_ok h
  obtain ⟨rfl, rfl⟩ := jumpTo_eq_ok hx
  obtain ⟨body, d, rest, hb, hr, rfl⟩ := append_eq_ok hy
  exact ⟨body, d, rest, hb, hr, rfl⟩

/-- 欲張りな輪の頭の分岐。本体か後に続くものの始まるバイトが分かれば、分岐を減らす。 -/
def enter (l : Loop) (addr : Int) : Instruction :=
  match l.head, l.next with
  | some b, _ => .pushOrJump addr b
  | none, some b => .pushIfPeek addr b
  | none, none => .push addr

/-- 輪の頭。欲張りなら分岐し、欲張りでなければ尾へ飛ぶ。`span` は輪の中身の命令数である。 -/
def ringHead (l : Loop) (span : Nat) : Instruction :=
  if l.greedy then enter l ↑(span + 1) else .jump ↑span

/-- 輪の尾。欲張りなら頭へ戻り、欲張りでなければ分岐する。 -/
def ringTail (l : Loop) (span : Nat) : Instruction :=
  if l.greedy then .jump (-↑(span + 2)) else .push (-↑(span + 1))

theorem ring_eq_ok {l : Loop} {size : Nat} (h : a.ring l size c = .ok (code, c')) :
    ∃ body, guarded l.emptyBody a c = .ok (body, c') ∧
      code = ringHead l (size + l.emptyBody.size) ::
        (body ++ [ringTail l (size + l.emptyBody.size)]) := by
  unfold ring at h
  unfold ringHead ringTail
  dsimp only at h
  split at h
  · rename_i hg
    obtain ⟨xs, d, ys, hx, hy, rfl⟩ := append_eq_ok h
    obtain ⟨rfl, rfl⟩ := jumpTo_eq_ok hx
    obtain ⟨body, d, zs, hb, hz, rfl⟩ := append_eq_ok hy
    obtain ⟨rfl, rfl⟩ := jumpTo_eq_ok hz
    refine ⟨body, hb, ?_⟩
    rw [if_pos hg, if_pos hg]
    unfold enter
    cases l.head <;> cases l.next <;> rfl
  · rename_i hg
    obtain ⟨xs, d, ys, hx, hy, rfl⟩ := append_eq_ok h
    obtain ⟨rfl, rfl⟩ := jumpTo_eq_ok hx
    obtain ⟨body, d, zs, hb, hz, rfl⟩ := append_eq_ok hy
    obtain ⟨rfl, rfl⟩ := jumpTo_eq_ok hz
    refine ⟨body, hb, ?_⟩
    rw [if_neg hg, if_neg hg]
    rfl

theorem counted_eq_ok {l : Loop} {size : Nat} (h : a.counted l size c = .ok (code, c')) :
    ∃ body, guarded l.emptyBody a { c with repeats := c.repeats ++ [(l.lower, l.upper)] } =
        .ok (body, c') ∧
      code = .repeatStart c.repeats.length ↑(size + l.emptyBody.size + 1) l.greedy ::
        (body ++ [.repeatNext c.repeats.length l.greedy]) := by
  obtain ⟨xs, d, ys, hx, hy, rfl⟩ := append_eq_ok h
  obtain ⟨rfl, rfl⟩ := jumpTo_eq_ok hx
  obtain ⟨body, d, zs, hb, hz, rfl⟩ := append_eq_ok hy
  obtain ⟨rfl, rfl⟩ := instr_eq_ok hz
  exact ⟨body, hb, rfl⟩

end Emit

/-! ## 生成した命令の性質 -/

/-- 機械の流れだけを変える命令。本文のバイトを見ず、捕獲に書き込まない。 -/
def Instruction.isControl : Instruction → Bool
  | .accept => true
  | .jump _ => true
  | .push _ => true
  | .repeatStart .. => true
  | .repeatNext .. => true
  | .nullCheckStart .. => true
  | .nullCheckEnd .. => true
  | .pushPos => true
  | .popPos => true
  | .pushPosNot _ => true
  | .failPos => true
  | .pushAtomic => true
  | .popAtomic => true
  | .lookBehind _ => true
  | .pushLookBehindNot .. => true
  | .failLookBehindNot => true
  | _ => false

/-- 生成した命令はどれも `P` を満たす。 -/
def Emit.Only (P : Instruction → Prop) (a : Emit) : Prop :=
  ∀ ⦃c c' code⦄, a c = .ok (code, c') → ∀ i ∈ code, P i

namespace Emit.Only

variable {P : Instruction → Prop} {a b : Emit}

theorem nil : Emit.Only P fun c => .ok ([], c) := by
  intro c c' code h i hi
  cases h
  cases hi

theorem instr {i : Instruction} (hi : P i) : (Emit.instr i).Only P := by
  intro c c' code h
  obtain ⟨rfl, -⟩ := instr_eq_ok h
  exact List.forall_mem_singleton.2 hi

theorem jumpTo {f : Int → Instruction} {n : Nat} (hf : ∀ addr, P (f addr)) : (Emit.jumpTo f n).Only P := by
  intro c c' code h
  obtain ⟨rfl, -⟩ := jumpTo_eq_ok h
  exact List.forall_mem_singleton.2 (hf _)

theorem append (ha : a.Only P) (hb : b.Only P) : (a.append b).Only P := by
  intro c c' code h
  obtain ⟨xs, d, ys, hx, hy, rfl⟩ := append_eq_ok h
  exact List.forall_mem_append.2 ⟨ha hx, hb hy⟩

theorem between {first last : Instruction} (ha : a.Only P) (hfirst : P first) (hlast : P last) :
    (CodeEnv.between first last a).Only P := (instr hfirst).append (ha.append (instr hlast))

theorem times (ha : a.Only P) (n : Nat) : (a.times n).Only P := by
  induction n with
  | zero => exact nil
  | succ n ih => exact ha.append ih

variable (hP : ∀ i : Instruction, i.isControl → P i)

include hP

theorem optionalTimes (ha : a.Only P) (size n : Nat) : (a.optionalTimes size n).Only P := by
  induction n with
  | zero => exact nil
  | succ n ih => exact (jumpTo fun _ => hP _ rfl).append (ha.append ih)

theorem guarded (ha : a.Only P) (empty : EmptyBody) : (Emit.guarded empty a).Only P := by
  cases empty with
  | never => exact ha
  | possible | possibleWithCaptures => exact fun _ _ _ h => ha.between (hP _ rfl) (hP _ rfl) h

theorem ring {l : Loop} (ha : a.Only P) (henter : ∀ addr, P (enter l addr)) (size : Nat) :
    (a.ring l size).Only P := by
  intro c c' code h
  obtain ⟨body, hb, rfl⟩ := ring_eq_ok h
  refine List.forall_mem_cons.2 ⟨?_, List.forall_mem_append.2 ⟨ha.guarded hP _ hb, ?_⟩⟩
  · unfold ringHead
    split
    · exact henter _
    · exact hP _ rfl
  · refine List.forall_mem_singleton.2 ?_
    unfold ringTail
    split <;> exact hP _ rfl

theorem counted (ha : a.Only P) (l : Loop) (size : Nat) : (a.counted l size).Only P :=
  fun _ _ _ h => ((jumpTo fun _ => hP _ rfl).append ((ha.guarded hP _).append (instr (hP _ rfl)))) h

/-- 先頭バイトの手がかりを見る命令の他は、本体の命令と、流れだけを変える命令である。 -/
theorem loop {options : Options} {l : Loop} (ha : a.Only P) (henter : ∀ addr, P (enter l addr))
    (hstar : ∀ newline, P (.anyStar newline l.next)) (size : Nat) (shape : LoopShape) :
    (a.loop options l size shape).Only P := by
  cases shape with
  | nothing => exact nil
  | anyStar => exact (ha.times _).append (instr (hstar _))
  | ring copies jumpIn =>
    refine append ?_ (ha.ring hP henter size)
    cases jumpIn
    · exact ha.times copies
    · exact instr (hP _ rfl)
  | unrolled required extra => exact (ha.times _).append (ha.optionalTimes hP ..)
  | lazyOptional => exact (instr (hP _ rfl)).append ((jumpTo fun _ => hP _ rfl).append ha)
  | counted => exact ha.counted hP l size

end Emit.Only

namespace CodeEnv

variable {env : CodeEnv} {options : Options} {P : Instruction → Prop}

theorem emit_loop_only (hP : ∀ i : Instruction, i.isControl → P i) {l : Loop} {body : Node}
    (hbody : (env.emit options body).Only P) (henter : ∀ addr, P (Emit.enter l addr))
    (hstar : ∀ newline, P (.anyStar newline l.next)) : (env.emit options (.loop l body)).Only P := by
  intro c c' code hc
  obtain ⟨size, -, hc⟩ := Except.bind_eq_ok hc
  exact hbody.loop hP henter hstar size _ hc

/-- 括弧は、捕獲の始まりと終わりの他には、流れだけを変える命令を加える。 -/
theorem emit_group_only (hP : ∀ i : Instruction, i.isControl → P i) {kind : GroupKind} {body : Node}
    (hbody : (env.emit options body).Only P)
    (hcap : ∀ n undo, kind = .capture n undo → P (.memStart n undo) ∧ P (.memEnd n undo)) :
    (env.emit options (.group kind body)).Only P := by
  cases kind with
  | capture n undo => exact hbody.between (hcap n undo rfl).1 (hcap n undo rfl).2
  | atomic | ahead => exact hbody.between (hP _ rfl) (hP _ rfl)
  | notAhead =>
    intro c c' code hc
    obtain ⟨k, -, hc⟩ := Except.bind_eq_ok hc
    obtain ⟨skip, -, hc⟩ := Except.bind_eq_ok hc
    exact hbody.between (hP _ rfl) (hP _ rfl) hc
  | behind =>
    intro c c' code hc
    obtain ⟨chars, -, hc⟩ := Except.bind_eq_ok hc
    exact Emit.Only.append (.instr (hP _ rfl)) hbody hc
  | notBehind =>
    intro c c' code hc
    obtain ⟨chars, -, hc⟩ := Except.bind_eq_ok hc
    obtain ⟨k, -, hc⟩ := Except.bind_eq_ok hc
    obtain ⟨skip, -, hc⟩ := Except.bind_eq_ok hc
    exact hbody.between (hP _ rfl) (hP _ rfl) hc

theorem emitAlt_cons_only (hP : ∀ i : Instruction, i.isControl → P i) {n m : Node} {ns : List Node}
    (hn : (env.emit options n).Only P) (hrest : Emit.Only P (env.emitAlt options (m :: ns))) :
    Emit.Only P (env.emitAlt options (n :: m :: ns)) := by
  intro c c' code hc
  obtain ⟨size, -, hc⟩ := Except.bind_eq_ok hc
  obtain ⟨rest, -, hc⟩ := Except.bind_eq_ok hc
  have hjump : ((Emit.jumpTo .jump rest).append (env.emitAlt options (m :: ns))).Only P :=
    .append (.jumpTo fun _ => hP _ rfl) hrest
  exact Emit.Only.append (.jumpTo fun _ => hP _ rfl) (hn.append hjump) hc

theorem compile_only (hP : ∀ i : Instruction, i.isControl → P i) {groups : Nat} {root : Node}
    {program : Program} (h : env.compile options groups root = .ok program)
    (hroot : (env.emit options root).Only P) : ∀ i ∈ program.code, P i := by
  obtain ⟨size, -, h⟩ := Except.bind_eq_ok h
  obtain ⟨⟨code, counters⟩, hc, h⟩ := Except.bind_eq_ok h
  dsimp only at h
  split at h
  · cases h
  · cases h
    intro i hi
    rcases List.mem_append.1 (List.mem_toArray.1 hi) with hi | hi
    · exact hroot hc i hi
    · rw [List.mem_singleton.1 hi]
      exact hP _ rfl

end CodeEnv

/-! ## 命令の数と番号 -/

/-- 番号は増えるだけで、配った繰り返しの回数は変わらない。 -/
structure Counters.Extends (c c' : Counters) : Prop where
  repeats : c.repeats <+: c'.repeats
  nullChecks : c.nullChecks ≤ c'.nullChecks

theorem Counters.Extends.refl (c : Counters) : c.Extends c := ⟨List.prefix_refl _, Nat.le_refl _⟩

theorem Counters.Extends.trans {c d e : Counters} (h : c.Extends d) (h' : d.Extends e) :
    c.Extends e := ⟨h.repeats.trans h'.repeats, Nat.le_trans h.nullChecks h'.nullChecks⟩

theorem Instruction.scope_of_isLeaf {i : Instruction} (h : i.isLeaf) (os : List Opener) :
    i.scope os = os := by
  cases i <;> first | rfl | cases h

/-- 過ぎた後に、開いている括弧や輪が元に戻る。 -/
def Balanced (code : List Instruction) : Prop := ∀ os, code.foldl (fun os i => i.scope os) os = os

namespace Balanced

variable {xs ys : List Instruction} {i j : Instruction}

theorem nil : Balanced [] := fun _ => rfl

theorem append (hx : Balanced xs) (hy : Balanced ys) : Balanced (xs ++ ys) := by
  intro os
  rw [List.foldl_append, hx, hy]

theorem cons (hi : ∀ os, i.scope os = os) (hx : Balanced xs) : Balanced (i :: xs) := by
  intro os
  rw [List.foldl_cons, hi, hx]

/-- 開く命令と閉じる命令で挟む。 -/
theorem between (h : ∀ os, j.scope (i.scope os) = os) (hx : Balanced xs) :
    Balanced (i :: (xs ++ [j])) := by
  intro os
  rw [List.foldl_cons, List.foldl_append, hx]
  exact h os

theorem of_isLeaf (h : ∀ i ∈ xs, i.isLeaf) : Balanced xs := by
  induction xs with
  | nil => exact nil
  | cons i xs ih =>
    obtain ⟨hi, h⟩ := List.forall_mem_cons.1 h
    exact cons (Instruction.scope_of_isLeaf hi) (ih h)

end Balanced

/-- 成功すれば必ず `size` 個の命令を出し、括弧や輪を閉じ終え、番号を増やすだけである。 -/
structure Emit.Regular (a : Emit) (size : Nat) : Prop where
  length_eq : ∀ {c code c'}, a c = .ok (code, c') → code.length = size
  balanced : ∀ {c code c'}, a c = .ok (code, c') → Balanced code
  extends_ : ∀ {c code c'}, a c = .ok (code, c') → c.Extends c'

namespace Emit.Regular

variable {a b : Emit} {n k : Nat}

theorem of_eq_ok
    (h : ∀ {c code c'}, a c = .ok (code, c') → code.length = n ∧ Balanced code ∧ c.Extends c') :
    a.Regular n := ⟨fun h' => (h h').1, fun h' => (h h').2.1, fun h' => (h h').2.2⟩

theorem instr (i : Instruction) (hi : ∀ os, i.scope os = os) : (instr i).Regular 1 := by
  refine of_eq_ok fun h => ?_
  obtain ⟨rfl, rfl⟩ := instr_eq_ok h
  exact ⟨rfl, .cons hi .nil, .refl _⟩

theorem append (ha : a.Regular n) (hb : b.Regular k) : (a.append b).Regular (n + k) := by
  refine of_eq_ok fun h => ?_
  obtain ⟨xs, d, ys, hx, hy, rfl⟩ := append_eq_ok h
  refine ⟨?_, (ha.balanced hx).append (hb.balanced hy), (ha.extends_ hx).trans (hb.extends_ hy)⟩
  rw [List.length_append, ha.length_eq hx, hb.length_eq hy]

theorem between (ha : a.Regular n) (first last : Instruction)
    (h : ∀ os, last.scope (first.scope os) = os) :
    (CodeEnv.between first last a).Regular (n + 2) := by
  refine of_eq_ok fun hc => ?_
  obtain ⟨body, hb, rfl⟩ := between_eq_ok hc
  exact ⟨by simp [ha.length_eq hb], .between h (ha.balanced hb), ha.extends_ hb⟩

theorem guarded (empty : EmptyBody) (ha : a.Regular n) :
    (guarded empty a).Regular (n + empty.size) := by
  refine of_eq_ok fun h => ?_
  rcases guarded_eq_ok h with ⟨rfl, hb⟩ | ⟨hne, body, captures, hb, rfl⟩
  · exact ⟨ha.length_eq hb, ha.balanced hb, ha.extends_ hb⟩
  · have hs : empty.size = 2 := by cases empty <;> first | exact absurd rfl hne | rfl
    have he := ha.extends_ hb
    exact ⟨by simp [ha.length_eq hb, hs], .between (fun _ => rfl) (ha.balanced hb), he.repeats,
      Nat.le_of_succ_le he.nullChecks⟩

theorem times (ha : a.Regular n) (k : Nat) : (a.times k).Regular (n * k) := by
  induction k with
  | zero =>
    refine of_eq_ok fun h => ?_
    obtain ⟨rfl, rfl⟩ := times_zero_eq_ok h
    exact ⟨rfl, .nil, .refl _⟩
  | succ k ih =>
    have h := ha.append ih
    rwa [Nat.add_comm, ← Nat.mul_succ] at h

theorem optionalTimes (ha : a.Regular n) (k : Nat) : (a.optionalTimes n k).Regular (k * (n + 1)) := by
  induction k with
  | zero =>
    refine of_eq_ok fun h => ?_
    cases h
    exact ⟨by simp, .nil, .refl _⟩
  | succ k ih =>
    refine of_eq_ok fun h => ?_
    obtain ⟨body, d, rest, hb, hr, rfl⟩ := optionalTimes_succ_eq_ok h
    refine ⟨?_, .cons (fun _ => rfl) ((ha.balanced hb).append (ih.balanced hr)),
      (ha.extends_ hb).trans (ih.extends_ hr)⟩
    rw [List.length_cons, List.length_append, ha.length_eq hb, ih.length_eq hr, Nat.succ_mul]
    omega

theorem scope_ringHead (l : Loop) (span : Nat) (os : List Opener) :
    (ringHead l span).scope os = os := by
  unfold ringHead enter
  repeat' split
  all_goals rfl

theorem scope_ringTail (l : Loop) (span : Nat) (os : List Opener) :
    (ringTail l span).scope os = os := by
  unfold ringTail
  split <;> rfl

theorem ring (ha : a.Regular n) (l : Loop) : (a.ring l n).Regular (n + l.emptyBody.size + 2) := by
  refine of_eq_ok fun h => ?_
  obtain ⟨body, hb, rfl⟩ := ring_eq_ok h
  have hg := ha.guarded l.emptyBody
  refine ⟨by simp [hg.length_eq hb], .between (fun os => ?_) (hg.balanced hb), hg.extends_ hb⟩
  rw [scope_ringTail, scope_ringHead]

theorem counted (ha : a.Regular n) (l : Loop) :
    (a.counted l n).Regular (n + l.emptyBody.size + 2) := by
  refine of_eq_ok fun h => ?_
  obtain ⟨body, hb, rfl⟩ := counted_eq_ok h
  have hg := ha.guarded l.emptyBody
  have he := hg.extends_ hb
  exact ⟨by simp [hg.length_eq hb], .between (fun _ => rfl) (hg.balanced hb),
    (List.prefix_append ..).trans he.repeats, he.nullChecks⟩

theorem lazyOptional (ha : a.Regular n) :
    ((Emit.instr (.push 1)).append ((jumpTo .jump n).append a)).Regular (n + 2) := by
  refine of_eq_ok fun h => ?_
  obtain ⟨xs, d, ys, hx, hy, rfl⟩ := append_eq_ok h
  obtain ⟨rfl, rfl⟩ := instr_eq_ok hx
  obtain ⟨zs, d, ws, hz, hw, rfl⟩ := append_eq_ok hy
  obtain ⟨rfl, rfl⟩ := jumpTo_eq_ok hz
  exact ⟨by simp [ha.length_eq hw], .cons (fun _ => rfl) (.cons (fun _ => rfl) (ha.balanced hw)),
    ha.extends_ hw⟩

/-- どの開き方でも、命令の数は開き方ごとの見積もりに等しい。 -/
theorem loop (ha : a.Regular n) (options : Options) (l : Loop) (shape : LoopShape)
    (hany : shape = .anyStar → n = 1) : (a.loop options l n shape).Regular (shape.total l n) := by
  cases shape with
  | nothing =>
    refine of_eq_ok fun h => ?_
    cases h
    exact ⟨rfl, .nil, .refl _⟩
  | anyStar =>
    have h := (ha.times l.lower).append
      (instr (.anyStar (options.contains .multiline) l.next) fun _ => rfl)
    rw [hany rfl, Nat.one_mul] at h
    exact h
  | ring copies jumpIn =>
    unfold LoopShape.total Emit.loop
    rw [Nat.add_assoc]
    cases jumpIn
    · exact (ha.times copies).append (ha.ring l)
    · exact (instr (.jump 1) fun _ => rfl).append (ha.ring l)
  | unrolled required extra => exact (ha.times required).append (ha.optionalTimes extra)
  | lazyOptional => exact ha.lazyOptional
  | counted => exact ha.counted l

end Emit.Regular

/-- 開き方が決まったときに、回数と本体についてわかること。 -/
def LoopShape.Fits (l : Loop) (body : Node) (size : Nat) : LoopShape → Prop
  | .nothing => size = 0 ∨ l.upper = some 0
  | .anyStar => body = .any ∧ l.greedy ∧ l.upper = none
  | .ring copies jumpIn => size ≠ 0 ∧ l.upper = none ∧ if jumpIn then l.lower = 1 else copies = l.lower
  | .unrolled required extra => size ≠ 0 ∧ l.greedy ∧ ∃ u, l.upper = some u ∧ u ≠ 0 ∧
      required = l.lower ∧ extra = u - l.lower
  | .lazyOptional => size ≠ 0 ∧ l.greedy = false ∧ l.lower = 0 ∧ l.upper = some 1
  | .counted => size ≠ 0 ∧ l.upper ≠ some 0

theorem LoopShape.of_fits (limit : Nat) (l : Loop) (body : Node) (size : Nat) :
    (LoopShape.of limit l body size).Fits l body size := by
  unfold of
  split
  · rename_i h
    exact h
  · rename_i h
    obtain ⟨hsize, hupper⟩ := not_or.1 h
    split
    · rename_i hc
      simp only [Bool.and_eq_true, Loop.isInfinite, Option.isNone_iff_eq_none] at hc
      refine ⟨?_, hc.1⟩
      cases body <;> simp [isAny] at hc ⊢
    · split
      · rename_i hnone
        split
        · rename_i hc
          exact ⟨hsize, hnone, hc.1⟩
        · split
          · exact ⟨hsize, hnone, rfl⟩
          · exact ⟨hsize, hupper⟩
      · rename_i upper hsome
        split
        · rename_i hc
          refine ⟨hsize, hc.1, upper, hsome, fun h0 => hupper ?_, rfl, rfl⟩
          rw [hsome, h0]
        · split
          · rename_i hc
            refine ⟨hsize, by simpa using hc.2.1, hc.2.2, ?_⟩
            rw [hsome, hc.1]
          · exact ⟨hsize, hupper⟩

namespace CodeEnv

variable {env : CodeEnv} {options : Options}

mutual
theorem emit_regular : (n : Node) → {options : Options} → {k : Nat} → env.size options n = .ok k →
    (env.emit options n).Regular k
  | .empty, _, _, h => by
    cases h
    refine .of_eq_ok fun h => ?_
    cases h
    exact ⟨rfl, .nil, .refl _⟩
  | .list nodes, _, _, h => emitList_regular nodes h
  | .alt nodes, _, _, h => emitAlt_regular nodes h
  | .str bytes, _, _, h => by
    obtain ⟨fold, hf, h⟩ := Except.bind_eq_ok h
    cases h
    refine .of_eq_ok fun h => ?_
    obtain ⟨fold', hf', h⟩ := Except.bind_eq_ok h
    cases hf.symm.trans hf'
    cases h
    exact ⟨rfl, .of_isLeaf (Literal.isLeaf_code _ _ _), .refl _⟩
  | .raw bytes, _, _, h => by
    cases h
    refine .of_eq_ok fun h => ?_
    cases h
    exact ⟨rfl, .of_isLeaf (Literal.isLeaf_code _ _ _), .refl _⟩
  | .cclass c, _, _, h => by
    cases h
    exact .instr _ (Instruction.scope_of_isLeaf (isLeaf_classInstruction ..))
  | .word _, _, _, h => by cases h; exact .instr _ fun _ => rfl
  | .any, _, _, h => by cases h; exact .instr _ fun _ => rfl
  | .anchor a, _, _, h => by
    cases h
    exact .instr _ (Instruction.scope_of_isLeaf (isLeaf_anchorInstruction ..))
  | .backref _, _, _, h => by cases h; exact .instr _ fun _ => rfl
  | .scoped _ body, _, _, h => emit_regular body h
  | .loop l body, options, _, h => by
    obtain ⟨k, hk, h⟩ := Except.bind_eq_ok h
    cases h
    refine .of_eq_ok fun h => ?_
    obtain ⟨k', hk', h⟩ := Except.bind_eq_ok h
    cases hk.symm.trans hk'
    have hl := (emit_regular body hk).loop options l (.of env.expandLimit l body k) fun hs => by
      have hf := LoopShape.of_fits env.expandLimit l body k
      rw [hs] at hf
      obtain ⟨rfl, _⟩ := hf
      cases hk
      rfl
    exact ⟨hl.length_eq h, hl.balanced h, hl.extends_ h⟩
  | .group kind body, _, _, h => by
    refine .of_eq_ok fun hc => ?_
    cases kind with
    | capture n undo =>
      obtain ⟨k, hk, h⟩ := Except.bind_eq_ok h
      cases h
      have hb := (emit_regular body hk).between (.memStart n undo) (.memEnd n undo) fun _ => rfl
      exact ⟨hb.length_eq hc, hb.balanced hc, hb.extends_ hc⟩
    | atomic =>
      obtain ⟨k, hk, h⟩ := Except.bind_eq_ok h
      cases h
      have hb := (emit_regular body hk).between .pushAtomic .popAtomic fun _ => rfl
      exact ⟨hb.length_eq hc, hb.balanced hc, hb.extends_ hc⟩
    | ahead =>
      obtain ⟨k, hk, h⟩ := Except.bind_eq_ok h
      cases h
      have hb := (emit_regular body hk).between .pushPos .popPos fun _ => rfl
      exact ⟨hb.length_eq hc, hb.balanced hc, hb.extends_ hc⟩
    | notAhead =>
      obtain ⟨k, hk, h⟩ := Except.bind_eq_ok h
      cases h
      obtain ⟨k', hk', hc⟩ := Except.bind_eq_ok hc
      obtain ⟨skip, hs, hc⟩ := Except.bind_eq_ok hc
      have hb := (emit_regular body hk).between (.pushPosNot skip) .failPos fun _ => rfl
      exact ⟨hb.length_eq hc, hb.balanced hc, hb.extends_ hc⟩
    | behind =>
      obtain ⟨k, hk, h⟩ := Except.bind_eq_ok h
      cases h
      obtain ⟨chars, _, hc⟩ := Except.bind_eq_ok hc
      have hb := (Emit.Regular.instr (.lookBehind chars) fun _ => rfl).append (emit_regular body hk)
      exact ⟨by rw [hb.length_eq hc, Nat.add_comm], hb.balanced hc, hb.extends_ hc⟩
    | notBehind =>
      obtain ⟨k, hk, h⟩ := Except.bind_eq_ok h
      cases h
      obtain ⟨chars, _, hc⟩ := Except.bind_eq_ok hc
      obtain ⟨k', hk', hc⟩ := Except.bind_eq_ok hc
      obtain ⟨skip, hs, hc⟩ := Except.bind_eq_ok hc
      have hb := (emit_regular body hk).between (.pushLookBehindNot skip chars) .failLookBehindNot
        fun _ => rfl
      exact ⟨hb.length_eq hc, hb.balanced hc, hb.extends_ hc⟩

theorem emitList_regular : (ns : List Node) → {options : Options} → {k : Nat} →
    env.sizeList options ns = .ok k → Emit.Regular (env.emitList options ns) k
  | [], _, _, h => by
    cases h
    refine .of_eq_ok fun h => ?_
    cases h
    exact ⟨rfl, .nil, .refl _⟩
  | n :: ns, _, _, h => by
    obtain ⟨k, hk, h⟩ := Except.bind_eq_ok h
    obtain ⟨k', hk', h⟩ := Except.bind_eq_ok h
    cases h
    exact (emit_regular n hk).append (emitList_regular ns hk')

theorem emitAlt_regular : (ns : List Node) → {options : Options} → {k : Nat} →
    env.sizeAlt options ns = .ok k → Emit.Regular (env.emitAlt options ns) k
  | [], _, _, h => by
    cases h
    refine .of_eq_ok fun h => ?_
    cases h
    exact ⟨rfl, .nil, .refl _⟩
  | [n], _, _, h => emit_regular n h
  | n :: m :: ns, _, _, h => by
    obtain ⟨k, hk, h⟩ := Except.bind_eq_ok h
    obtain ⟨k', hk', h⟩ := Except.bind_eq_ok h
    cases h
    refine .of_eq_ok fun h => ?_
    obtain ⟨size, hs, h⟩ := Except.bind_eq_ok h
    obtain ⟨rest, hr, h⟩ := Except.bind_eq_ok h
    obtain ⟨xs, d, ys, hx, hy, rfl⟩ := Emit.append_eq_ok h
    obtain ⟨rfl, rfl⟩ := Emit.jumpTo_eq_ok hx
    obtain ⟨zs, d, ws, hz, hw, rfl⟩ := Emit.append_eq_ok hy
    obtain ⟨us, d', vs, hu, hv, rfl⟩ := Emit.append_eq_ok hw
    obtain ⟨rfl, rfl⟩ := Emit.jumpTo_eq_ok hu
    have hn := emit_regular n hk
    have hm := emitAlt_regular (m :: ns) hk'
    refine ⟨?_, .cons (fun _ => rfl) ((hn.balanced hz).append (.cons (fun _ => rfl) (hm.balanced hv))),
      (hn.extends_ hz).trans (hm.extends_ hv)⟩
    simp only [List.length_append, List.length_cons, List.length_nil, hn.length_eq hz,
      hm.length_eq hv]
    omega
end

end CodeEnv

end MultibyteRegex

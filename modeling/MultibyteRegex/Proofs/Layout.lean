import MultibyteRegex.Proofs.Safety

/-!
# 命令の配置

生成した命令は前もって計算した数だけ並び、どの相対位置もその中か、すぐ後ろを指す。生成が失敗するのは、後読みの
長さが決まらないときと、命令が相対位置に収まらないほど多いときだけである。
-/

namespace MultibyteRegex

namespace Instruction

variable {i : Instruction}

/-- 命令が持つ相対位置。 -/
def address? : Instruction → Option Int
  | .jump addr => some addr
  | .push addr => some addr
  | .pushOrJump addr _ => some addr
  | .pushIfPeek addr _ => some addr
  | .repeatStart _ addr _ => some addr
  | .pushPosNot addr => some addr
  | .pushLookBehindNot addr _ => some addr
  | _ => none

/-- 命令が持つ、数える繰り返しの番号。 -/
def counter? : Instruction → Option Nat
  | .repeatStart id _ _ => some id
  | .repeatNext id _ => some id
  | _ => none

def isNullCheckEnd : Instruction → Bool
  | .nullCheckEnd .. => true
  | _ => false

/-- 相対位置も番号も持たず、空の検査の終わりでもない。 -/
def isFree (i : Instruction) : Bool := i.address?.isNone && i.counter?.isNone && !i.isNullCheckEnd

theorem isFree_of_isLeaf (h : i.isLeaf) : i.isFree := by
  cases i <;> first | rfl | cases h

end Instruction

/-! ## 命令の列 -/

/-- 前に `before` 個、後に `after` 個の命令が続くとき、どの命令の行き先もそこからはみ出さない。 -/
inductive Placed (repeats : Nat) : Nat → Nat → List Instruction → Prop
  | nil {before after : Nat} : Placed repeats before after []
  | cons {before after : Nat} {i : Instruction} {rest : List Instruction}
    (address : ∀ addr ∈ i.address?, 0 ≤ before + 1 + addr ∧ addr ≤ rest.length + after)
    (counter : ∀ id ∈ i.counter?, id < repeats)
    (loopEnd : i.isNullCheckEnd → rest.head?.any Matcher.isLoopEnd)
    (tail : Placed repeats (before + 1) after rest) : Placed repeats before after (i :: rest)

namespace Placed

variable {repeats repeats' before before' after after' : Nat} {xs ys : List Instruction} {i : Instruction}

theorem free (hi : i.isFree) (h : Placed repeats (before + 1) after xs) : Placed repeats before after (i :: xs) := by
  simp only [Instruction.isFree, Bool.and_eq_true, Option.isNone_iff_eq_none, Bool.not_eq_true'] at hi
  exact .cons (by simp [hi]) (by simp [hi]) (by simp [hi]) h

theorem single (hi : i.isFree) : Placed repeats before after [i] := free hi .nil

theorem of_isFree (h : ∀ i ∈ xs, i.isFree) : Placed repeats before after xs := by
  induction xs generalizing before with
  | nil => exact .nil
  | cons i xs ih => exact .free (h i List.mem_cons_self) (ih fun j hj => h j (List.mem_cons_of_mem i hj))

theorem mono (h : Placed repeats before after xs) (hr : repeats ≤ repeats') (hb : before ≤ before')
    (ha : after ≤ after') : Placed repeats' before' after' xs := by
  induction h generalizing before' with
  | nil => exact .nil
  | cons address counter loopEnd _ ih =>
    apply Placed.cons
    · intro addr haddr
      have := address addr haddr
      omega
    · exact fun id hid => Nat.lt_of_lt_of_le (counter id hid) hr
    · exact loopEnd
    · exact ih (Nat.succ_le_succ hb) ha

/-- 空の検査の終わりは列の最後には来ないから、つないでも次の命令は変わらない。 -/
theorem append (hx : Placed repeats before (ys.length + after) xs)
    (hy : Placed repeats (before + xs.length) after ys) : Placed repeats before after (xs ++ ys) := by
  generalize hk : ys.length + after = k at hx
  induction hx with
  | nil => exact hy
  | @cons before k i rest address counter loopEnd _ ih =>
    subst hk
    have hnext := ih (by simpa [Nat.add_assoc, Nat.add_comm 1] using hy) rfl
    rw [List.cons_append]
    apply Placed.cons _ counter _ hnext
    · intro addr haddr
      have := address addr haddr
      rw [List.length_append]
      omega
    · intro hend
      have := loopEnd hend
      cases rest <;> simp_all

/-- それぞれで閉じた列は、つないでも閉じている。 -/
theorem closed_append (hx : Placed repeats 0 0 xs) (hy : Placed repeats' 0 0 ys) (hr : repeats ≤ repeats') :
    Placed repeats' 0 0 (xs ++ ys) :=
  .append (hx.mono hr (Nat.le_refl 0) (Nat.zero_le _)) (hy.mono (Nat.le_refl _) (Nat.zero_le _) (Nat.le_refl 0))

/-- 一つの命令の後に閉じた列を置く。 -/
theorem cons_closed (address : ∀ addr ∈ i.address?, 0 ≤ 1 + addr ∧ addr ≤ xs.length)
    (counter : ∀ id ∈ i.counter?, id < repeats) (hend : i.isNullCheckEnd = false) (h : Placed repeats 0 0 xs) :
    Placed repeats 0 0 (i :: xs) := by
  refine .cons (fun addr haddr => ?_) counter (by simp [hend])
    (h.mono (Nat.le_refl _) (Nat.zero_le 1) (Nat.le_refl 0))
  have := address addr haddr
  omega

theorem getElem? (h : Placed repeats before after xs) {n : Nat} (hn : xs[n]? = some i) :
    (∀ addr ∈ i.address?, 0 ≤ before + n + 1 + addr ∧ n + 1 + addr ≤ xs.length + after) ∧
      (∀ id ∈ i.counter?, id < repeats) ∧ (i.isNullCheckEnd → xs[n + 1]?.any Matcher.isLoopEnd) := by
  induction h generalizing n with
  | nil => cases hn
  | @cons before after j rest address counter loopEnd _ ih =>
    cases n with
    | zero =>
      obtain rfl : j = i := by simpa using hn
      refine ⟨fun addr haddr => ?_, counter, fun hend => ?_⟩
      · have := address addr haddr
        rw [List.length_cons]
        omega
      · simpa [List.head?_eq_getElem?] using loopEnd hend
    | succ n =>
      obtain ⟨haddress, hcounter, hloop⟩ := ih (by simpa using hn)
      refine ⟨fun addr haddr => ?_, hcounter, fun hend => by simpa using hloop hend⟩
      have := haddress addr haddr
      simp only [List.length_cons]
      omega

end Placed

/-! ## 生成の部品 -/

/-- 生成の失敗の原因。後読みの長さが決まらないのは `Unfixed` のときだけで、相対位置が収まらないのは `size` が符号つき
32 ビットの最大を越えるときだけである。 -/
def CompileError.Excused (Unfixed : Prop) (size : Nat) (err : CompileError) : Prop :=
  err = .invalidLookBehind ∧ Unfixed ∨ err = .addressOverflow ∧ 0x7fffffff < size

theorem relative_eq_error {n : Nat} {err : CompileError} (h : relative n = .error err) :
    err = .addressOverflow ∧ 0x7fffffff < n := by
  unfold relative at h
  split at h
  · cases h
  · cases h
    exact ⟨rfl, by omega⟩

/-- 失敗するのは、許された原因によるときだけである。 -/
def Emit.Fails (Unfixed : Prop) (a : Emit) (size : Nat) : Prop :=
  ∀ ⦃c err⦄, a c = .error err → err.Excused Unfixed size

namespace Emit.Fails

variable {Unfixed : Prop} {a b : Emit} {n k : Nat}

theorem of_ok (h : ∀ c, ∃ r, a c = .ok r) : a.Fails Unfixed n := by
  intro c err herr
  obtain ⟨r, hr⟩ := h c
  cases herr.symm.trans hr

theorem instr (i : Instruction) : (Emit.instr i).Fails Unfixed n := of_ok fun _ => ⟨_, rfl⟩

theorem mono (ha : a.Fails Unfixed n) (h : n ≤ k) : a.Fails Unfixed k :=
  fun _ _ herr => (ha herr).imp_right fun herr => ⟨herr.1, Nat.lt_of_lt_of_le herr.2 h⟩

/-- 跳ぶ先の遠さは、部品の全体の命令の数を越えない。 -/
theorem jumpTo {f : Int → Instruction} (h : n ≤ k) : (Emit.jumpTo f n).Fails Unfixed k := by
  intro c err herr
  unfold Emit.jumpTo at herr
  split at herr
  · cases herr
  · rename_i hrelative
    cases herr
    obtain ⟨rfl, hlt⟩ := relative_eq_error hrelative
    exact .inr ⟨rfl, Nat.lt_of_lt_of_le hlt h⟩

theorem append (ha : a.Fails Unfixed n) (hb : b.Fails Unfixed n) : (a.append b).Fails Unfixed n := by
  intro c err herr
  unfold Emit.append at herr
  split at herr
  · rename_i hx
    cases herr
    exact ha hx
  · split at herr
    · rename_i hy
      cases herr
      exact hb hy
    · cases herr

theorem between (ha : a.Fails Unfixed n) (first last : Instruction) :
    (CodeEnv.between first last a).Fails Unfixed n := (instr first).append (ha.append (instr last))

theorem guarded (ha : a.Fails Unfixed n) (empty : EmptyBody) : (Emit.guarded empty a).Fails Unfixed n := by
  cases empty with
  | never => exact ha
  | possible | possibleWithCaptures => exact fun _ _ herr => ha.between _ _ herr

theorem ring (ha : a.Fails Unfixed n) (l : Loop) : (a.ring l n).Fails Unfixed (n + l.emptyBody.size + 2) := by
  have hbody := (ha.mono (k := n + l.emptyBody.size + 2) (by omega)).guarded l.emptyBody
  unfold Emit.ring
  dsimp only
  split <;> exact (jumpTo (by omega)).append (hbody.append (jumpTo (by omega)))

theorem counted (ha : a.Fails Unfixed n) (l : Loop) :
    (a.counted l n).Fails Unfixed (n + l.emptyBody.size + 2) := by
  have hbody := (ha.mono (k := n + l.emptyBody.size + 2) (by omega)).guarded l.emptyBody
  exact fun _ _ herr => (jumpTo (by omega)).append (hbody.append (instr _)) herr

end Emit.Fails

/-- 成功すれば閉じた `size` 個の命令が並び、失敗するのは許された原因によるときだけである。 -/
structure Emit.Laid (Unfixed : Prop) (a : Emit) (size : Nat) : Prop extends a.Regular size where
  placed : ∀ {c code c'}, a c = .ok (code, c') → Placed c'.repeats.length 0 0 code
  fails : a.Fails Unfixed size

namespace Emit.Laid

variable {Unfixed : Prop} {a b : Emit} {n k : Nat}

theorem leaves (code : List Instruction) (h : ∀ i ∈ code, i.isLeaf) :
    Emit.Laid Unfixed (fun c => .ok (code, c)) code.length where
  toRegular := .of_eq_ok fun hc => by
    cases hc
    exact ⟨rfl, .of_isLeaf h, .refl _⟩
  placed hc := by
    cases hc
    exact .of_isFree fun i hi => Instruction.isFree_of_isLeaf (h i hi)
  fails := .of_ok fun _ => ⟨_, rfl⟩

theorem of_eq_error {err : CompileError} (h : ∀ c, a c = .error err) (herr : err.Excused Unfixed n) :
    a.Laid Unfixed n where
  toRegular := .of_eq_ok fun {c _ _} hc => by cases (h c).symm.trans hc
  placed {c _ _} hc := by cases (h c).symm.trans hc
  fails c _ hc := by
    cases (h c).symm.trans hc
    exact herr

theorem nil : Emit.Laid Unfixed (fun c => .ok ([], c)) 0 := leaves [] (by simp)

theorem instr (i : Instruction) (hscope : ∀ os, i.scope os = os) (hfree : i.isFree) :
    (Emit.instr i).Laid Unfixed 1 where
  toRegular := .instr i hscope
  placed h := by
    obtain ⟨rfl, rfl⟩ := instr_eq_ok h
    exact .single hfree
  fails := .instr i

theorem append (ha : a.Laid Unfixed n) (hb : b.Laid Unfixed k) : (a.append b).Laid Unfixed (n + k) where
  toRegular := ha.toRegular.append hb.toRegular
  placed h := by
    obtain ⟨xs, d, ys, hx, hy, rfl⟩ := append_eq_ok h
    exact (ha.placed hx).closed_append (hb.placed hy) (hb.extends_ hy).repeats.length_le
  fails := (ha.fails.mono (Nat.le_add_right n k)).append (hb.fails.mono (Nat.le_add_left k n))

/-- 前後に一つずつ命令を置く。前の命令は、後の命令のすぐ後ろへ跳ぶ。 -/
theorem between (ha : a.Laid Unfixed n) (first last : Instruction) (hscope : ∀ os, last.scope (first.scope os) = os)
    (haddress : ∀ addr ∈ first.address?, addr = n + 1) (hcounter : first.counter? = none)
    (hend : first.isNullCheckEnd = false) (hlast : last.isFree) :
    (CodeEnv.between first last a).Laid Unfixed (n + 2) where
  toRegular := ha.toRegular.between first last hscope
  placed h := by
    obtain ⟨body, hb, rfl⟩ := between_eq_ok h
    refine .cons_closed (fun addr haddr => ?_) (by simp [hcounter]) hend
      ((ha.placed hb).closed_append (.single hlast) (Nat.le_refl _))
    rw [haddress addr haddr, List.length_append, ha.length_eq hb]
    simp
    omega
  fails := (ha.fails.mono (Nat.le_add_right n 2)).between first last

/-- 失敗したときに本体を飛ばす括弧。 -/
theorem skipping (ha : a.Laid Unfixed n) {first : Int → Instruction} {last : Instruction}
    (hscope : ∀ skip os, last.scope ((first skip).scope os) = os) (haddress : ∀ skip, (first skip).address? = some skip)
    (hcounter : ∀ skip, (first skip).counter? = none) (hend : ∀ skip, (first skip).isNullCheckEnd = false)
    (hlast : last.isFree) :
    Emit.Laid Unfixed (fun c => relative (n + 1) >>= fun skip => CodeEnv.between (first skip) last a c) (n + 2) := by
  have hbetween := ha.between (first ↑(n + 1)) last (hscope _) (by simp [haddress]) (hcounter _) (hend _) hlast
  cases hrelative : relative (n + 1) with
  | error err =>
    obtain ⟨rfl, hlt⟩ := relative_eq_error hrelative
    exact of_eq_error (fun _ => rfl) (.inr ⟨rfl, Nat.lt_succ_of_lt hlt⟩)
  | ok skip =>
    obtain rfl := relative_eq_ok hrelative
    exact hbetween

/-- 二つの枝。初めの枝が終われば、残りの枝を飛び越す。 -/
theorem branch (ha : a.Laid Unfixed n) (hb : b.Laid Unfixed k) :
    ((jumpTo .push (n + 1)).append (a.append ((jumpTo .jump k).append b))).Laid Unfixed (n + 2 + k) := by
  have hcode : ∀ {c code c'}, ((jumpTo .push (n + 1)).append (a.append ((jumpTo .jump k).append b))) c =
      .ok (code, c') → ∃ xs d ys, a c = .ok (xs, d) ∧ b d = .ok (ys, c') ∧
        code = .push ↑(n + 1) :: (xs ++ .jump ↑k :: ys) := by
    intro c code c' h
    obtain ⟨_, _, _, hx, hy, rfl⟩ := append_eq_ok h
    obtain ⟨rfl, rfl⟩ := jumpTo_eq_ok hx
    obtain ⟨xs, _, _, ha, hz, rfl⟩ := append_eq_ok hy
    obtain ⟨_, _, ys, hu, hb, rfl⟩ := append_eq_ok hz
    obtain ⟨rfl, rfl⟩ := jumpTo_eq_ok hu
    exact ⟨xs, _, ys, ha, hb, rfl⟩
  refine ⟨.of_eq_ok fun h => ?_, fun h => ?_, ?_⟩
  · obtain ⟨xs, d, ys, hx, hy, rfl⟩ := hcode h
    refine ⟨?_, .cons (fun _ => rfl) ((ha.balanced hx).append (.cons (fun _ => rfl) (hb.balanced hy))),
      (ha.extends_ hx).trans (hb.extends_ hy)⟩
    simp only [List.length_cons, List.length_append, ha.length_eq hx, hb.length_eq hy]
    omega
  · obtain ⟨xs, d, ys, hx, hy, rfl⟩ := hcode h
    have hjump : Placed _ 0 0 (.jump ↑k :: ys) := .cons_closed
      (by simp [Instruction.address?, hb.length_eq hy]; omega) (by simp [Instruction.counter?]) rfl (hb.placed hy)
    refine .cons_closed ?_ (by simp [Instruction.counter?]) rfl
      ((ha.placed hx).closed_append hjump (hb.extends_ hy).repeats.length_le)
    simp [Instruction.address?, ha.length_eq hx]
    omega
  · have ha := ha.fails.mono (k := n + 2 + k) (by omega)
    have hb := hb.fails.mono (k := n + 2 + k) (by omega)
    exact (Fails.jumpTo (by omega)).append (ha.append ((Fails.jumpTo (by omega)).append hb))

theorem times (ha : a.Laid Unfixed n) (k : Nat) : (a.times k).Laid Unfixed (n * k) := by
  induction k with
  | zero => exact nil
  | succ k ih =>
    have h := ha.append ih
    rwa [Nat.add_comm, ← Nat.mul_succ] at h

theorem optionalTimes (ha : a.Laid Unfixed n) (k : Nat) : (a.optionalTimes n k).Laid Unfixed (k * (n + 1)) := by
  induction k with
  | zero =>
    rw [Nat.zero_mul]
    exact nil
  | succ k ih =>
    have hrest := ha.append ih
    refine ⟨ha.toRegular.optionalTimes (k + 1), fun h => ?_, ?_⟩
    · obtain ⟨body, d, rest, hb, hr, rfl⟩ := optionalTimes_succ_eq_ok h
      have hclosed := (ha.placed hb).closed_append (ih.placed hr) (ih.extends_ hr).repeats.length_le
      refine .cons_closed (fun addr haddr => ?_) (by simp [Instruction.counter?]) rfl hclosed
      have hlen : ((body ++ rest).length : Int) = ↑((k + 1) * n + k) := by
        rw [List.length_append, ha.length_eq hb, ih.length_eq hr, Nat.succ_mul, Nat.mul_succ]
        omega
      simp only [Instruction.address?, Option.mem_def, Option.some.injEq] at haddr
      omega
    · exact (Fails.jumpTo (by rw [Nat.mul_succ]; omega)).append
        (hrest.fails.mono (by rw [Nat.succ_mul]; omega))

/-- 輪の一周り。空の検査の終わりには、輪を回す命令 `last` が続く。 -/
theorem placed_turn (ha : a.Laid Unfixed n) {empty : EmptyBody} {c c' : Counters} {code : List Instruction}
    (h : Emit.guarded empty a c = .ok (code, c')) {first last : Instruction}
    (hfirst : ∀ addr ∈ first.address?, 0 ≤ 1 + addr ∧ addr ≤ code.length + 1)
    (hlast : ∀ addr ∈ last.address?, 0 ≤ code.length + 2 + addr ∧ addr ≤ 0)
    (hcounter : ∀ id, id ∈ first.counter? ∨ id ∈ last.counter? → id < c'.repeats.length)
    (hend : first.isNullCheckEnd = false) (hloop : Matcher.isLoopEnd last) :
    Placed c'.repeats.length 0 0 (first :: (code ++ [last])) := by
  have hlast : Placed c'.repeats.length (code.length + 1) 0 [last] := by
    refine .cons (fun addr haddr => ?_) (fun id hid => hcounter id (.inr hid)) (fun hend => ?_) .nil
    · have := hlast addr haddr
      simp
      omega
    · cases last <;> cases hend
      cases hloop
  refine .cons (fun addr haddr => ?_) (fun id hid => hcounter id (.inl hid)) (by simp [hend]) ?_
  · have := hfirst addr haddr
    simp
    omega
  · rcases guarded_eq_ok h with ⟨-, hb⟩ | ⟨-, body, captures, hb, rfl⟩
    · exact .append ((ha.placed hb).mono (Nat.le_refl _) (Nat.zero_le 1) (Nat.zero_le _))
        (by simpa [Nat.add_comm] using hlast)
    · rw [List.cons_append, List.append_assoc]
      refine .free rfl (.append ((ha.placed hb).mono (Nat.le_refl _) (Nat.zero_le _) (Nat.zero_le _)) ?_)
      refine .cons (by simp [Instruction.address?]) (by simp [Instruction.counter?]) (by simp [hloop]) ?_
      simpa [Nat.add_comm, Nat.add_left_comm, Nat.add_assoc] using hlast

theorem ring (ha : a.Laid Unfixed n) (l : Loop) : (a.ring l n).Laid Unfixed (n + l.emptyBody.size + 2) where
  toRegular := ha.toRegular.ring l
  placed h := by
    obtain ⟨body, hb, rfl⟩ := ring_eq_ok h
    rw [← (ha.toRegular.guarded l.emptyBody).length_eq hb]
    apply ha.placed_turn hb <;> simp only [ringHead, ringTail, enter] <;>
      grind [Instruction.address?, Instruction.counter?, Instruction.isNullCheckEnd, Matcher.isLoopEnd]
  fails := ha.fails.ring l

theorem counted (ha : a.Laid Unfixed n) (l : Loop) : (a.counted l n).Laid Unfixed (n + l.emptyBody.size + 2) where
  toRegular := ha.toRegular.counted l
  placed h := by
    obtain ⟨body, hb, rfl⟩ := counted_eq_ok h
    rw [← (ha.toRegular.guarded l.emptyBody).length_eq hb]
    have hrepeats := ((ha.toRegular.guarded l.emptyBody).extends_ hb).repeats.length_le
    simp only [List.length_append, List.length_singleton] at hrepeats
    apply ha.placed_turn hb <;>
      grind [Instruction.address?, Instruction.counter?, Instruction.isNullCheckEnd, Matcher.isLoopEnd]
  fails := ha.fails.counted l

theorem lazyOptional (ha : a.Laid Unfixed n) :
    ((Emit.instr (.push 1)).append ((jumpTo .jump n).append a)).Laid Unfixed (n + 2) where
  toRegular := ha.toRegular.lazyOptional
  placed {_ _ c'} h := by
    obtain ⟨xs, d, ys, hx, hy, rfl⟩ := append_eq_ok h
    obtain ⟨rfl, rfl⟩ := instr_eq_ok hx
    obtain ⟨zs, d, ws, hz, hw, rfl⟩ := append_eq_ok hy
    obtain ⟨rfl, rfl⟩ := jumpTo_eq_ok hz
    have hjump : Placed c'.repeats.length 0 0 (.jump ↑n :: ws) := by
      refine .cons_closed ?_ (by simp [Instruction.counter?]) rfl (ha.placed hw)
      simp [Instruction.address?, ha.length_eq hw]
      omega
    show Placed c'.repeats.length 0 0 (.push 1 :: .jump ↑n :: ws)
    refine .cons_closed ?_ (by simp [Instruction.counter?]) rfl hjump
    rintro _ ⟨⟩
    rw [List.length_cons]
    omega
  fails := (Fails.instr _).append ((Fails.jumpTo (by omega)).append (ha.fails.mono (by omega)))

/-- 初めの一回だけ輪の本体へ飛び込む。 -/
theorem jumpIn (ha : a.Laid Unfixed n) (l : Loop) :
    ((Emit.instr (.jump 1)).append (a.ring l n)).Laid Unfixed (1 + (n + l.emptyBody.size + 2)) where
  toRegular := (Regular.instr (.jump 1) fun _ => rfl).append (ha.toRegular.ring l)
  placed h := by
    obtain ⟨xs, d, ys, hx, hy, rfl⟩ := append_eq_ok h
    obtain ⟨rfl, rfl⟩ := instr_eq_ok hx
    have hlen := (ha.toRegular.ring l).length_eq hy
    refine .cons_closed ?_ (by simp [Instruction.counter?]) rfl ((ha.ring l).placed hy)
    simp [Instruction.address?]
    omega
  fails := (Fails.instr _).append ((ha.ring l).fails.mono (by omega))

theorem loop (ha : a.Laid Unfixed n) (options : Options) (l : Loop) (shape : LoopShape)
    (hany : shape = .anyStar → n = 1) : (a.loop options l n shape).Laid Unfixed (shape.total l n) := by
  cases shape with
  | nothing => exact nil
  | anyStar =>
    have h := (ha.times l.lower).append
      (instr (.anyStar (options.contains .multiline) l.next) (fun _ => rfl) rfl)
    rwa [hany rfl, Nat.one_mul] at h
  | ring copies jumpIn =>
    unfold LoopShape.total Emit.loop
    rw [Nat.add_assoc]
    cases jumpIn
    · exact (ha.times copies).append (ha.ring l)
    · exact ha.jumpIn l
  | unrolled required extra => exact (ha.times required).append (ha.optionalTimes extra)
  | lazyOptional => exact ha.lazyOptional
  | counted => exact ha.counted l

end Emit.Laid

/-! ## 木の全体 -/

namespace Node

mutual
/-- どの後読みの本体も、決まった数の文字に合う。 -/
def BehindsFixed (e : Encoding) : Node → Prop
  | .list nodes => BehindsFixedIn e nodes
  | .alt nodes => BehindsFixedIn e nodes
  | .loop _ body => body.BehindsFixed e
  | .scoped _ body => body.BehindsFixed e
  | .group .behind body => (body.charCount e).isFixed ∧ body.BehindsFixed e
  | .group .notBehind body => (body.charCount e).isFixed ∧ body.BehindsFixed e
  | .group _ body => body.BehindsFixed e
  | _ => True

def BehindsFixedIn (e : Encoding) : List Node → Prop
  | [] => True
  | n :: ns => n.BehindsFixed e ∧ BehindsFixedIn e ns
end

theorem behindsFixedIn_of_forall {e : Encoding} {ns : List Node} (h : ∀ n ∈ ns, n.BehindsFixed e) :
    BehindsFixedIn e ns := by
  induction ns with
  | nil => trivial
  | cons n ns ih =>
    obtain ⟨hn, hns⟩ := List.forall_mem_cons.1 h
    exact ⟨hn, ih hns⟩

end Node

namespace CodeEnv

variable {env : CodeEnv} {Unfixed : Prop} {options : Options} {body : Node} {k : Nat} {err : CompileError}

theorem foldFor_eq_error (h : env.foldFor options = .error err) : err = .foldTableMissing := by
  unfold foldFor at h
  grind

mutual
/-- 命令の数を計算できないのは、要る表がないときだけである。 -/
theorem size_eq_error : (n : Node) → {options : Options} → env.size options n = .error err →
    err = .foldTableMissing
  | .list nodes, _, h => sizeList_eq_error nodes h
  | .alt nodes, _, h => sizeAlt_eq_error nodes h
  | .str _, _, h => by
    rcases Except.bind_eq_error h with h | ⟨_, -, h⟩
    · exact foldFor_eq_error h
    · cases h
  | .loop _ body, _, h => by
    rcases Except.bind_eq_error h with h | ⟨_, -, h⟩
    · exact size_eq_error body h
    · cases h
  | .scoped _ body, _, h => size_eq_error body h
  | .group kind body, options, h => by
    have hbody : env.size options body = .error err := by
      cases kind <;> rcases Except.bind_eq_error h with h | ⟨_, -, h⟩ <;> first | exact h | cases h
    exact size_eq_error body hbody
  | .empty, _, h | .raw _, _, h | .cclass _, _, h | .word _, _, h | .any, _, h | .anchor _, _, h
  | .backref _, _, h => by cases h

theorem sizeList_eq_error : (ns : List Node) → {options : Options} → env.sizeList options ns = .error err →
    err = .foldTableMissing
  | [], _, h => by cases h
  | n :: ns, _, h => by
    rcases Except.bind_eq_error h with h | ⟨_, -, h⟩
    · exact size_eq_error n h
    · rcases Except.bind_eq_error h with h | ⟨_, -, h⟩
      · exact sizeList_eq_error ns h
      · cases h

theorem sizeAlt_eq_error : (ns : List Node) → {options : Options} → env.sizeAlt options ns = .error err →
    err = .foldTableMissing
  | [], _, h => by cases h
  | [n], _, h => size_eq_error n h
  | n :: m :: ns, _, h => by
    rcases Except.bind_eq_error h with h | ⟨_, -, h⟩
    · exact size_eq_error n h
    · rcases Except.bind_eq_error h with h | ⟨_, -, h⟩
      · exact sizeAlt_eq_error (m :: ns) h
      · cases h
end

/-- 計算に成功する式を先に置いても、生成は変わらない。 -/
theorem laid_bind {α : Type} {x : Except CompileError α} {f : α → Emit} {v : α} (hx : x = .ok v)
    (h : (f v).Laid Unfixed k) : Emit.Laid Unfixed (fun c => x >>= fun v => f v c) k := by
  subst hx
  exact h

/-- 後読みで戻る文字数が決まらないのは、`Unfixed` のときだけである。 -/
theorem laid_behind {f : Nat → Emit} (hfixed : ¬Unfixed → (body.charCount env.encoding).isFixed)
    (h : ∀ chars, (f chars).Laid Unfixed k) :
    Emit.Laid Unfixed (fun c => env.charsBehind body >>= fun chars => f chars c) k := by
  cases hcount : body.charCount env.encoding with
  | fixed chars =>
    apply laid_bind _ (h chars)
    simp [charsBehind, hcount]
  | _ =>
    have hbehind : env.charsBehind body = .error .invalidLookBehind := by simp [charsBehind, hcount]
    have hunfixed : Unfixed := Classical.byContradiction fun hn => by
      simpa [hcount, CharCount.isFixed] using hfixed hn
    rw [hbehind]
    exact .of_eq_error (fun _ => rfl) (.inl ⟨rfl, hunfixed⟩)

mutual
theorem emit_laid : (n : Node) → {options : Options} → {k : Nat} → env.size options n = .ok k →
    (¬Unfixed → n.BehindsFixed env.encoding) → Emit.Laid Unfixed (env.emit options n) k
  | .empty, _, _, h, _ => by
    cases h
    exact .nil
  | .list nodes, _, _, h, hf => emitList_laid nodes h hf
  | .alt nodes, _, _, h, hf => emitAlt_laid nodes h hf
  | .str bytes, _, _, h, _ => by
    obtain ⟨fold, hfold, h⟩ := Except.bind_eq_ok h
    cases h
    exact laid_bind (f := fun fold c => .ok (Literal.code env.encoding fold bytes, c)) hfold
      (.leaves _ (Literal.isLeaf_code _ _ _))
  | .raw bytes, _, _, h, _ => by
    cases h
    exact .leaves _ (Literal.isLeaf_code _ _ _)
  | .cclass c, _, _, h, _ => by
    cases h
    exact .leaves _ (List.forall_mem_singleton.2 (isLeaf_classInstruction env.encoding c))
  | .word isWord, _, _, h, _ => by
    cases h
    exact .leaves [.word isWord] (List.forall_mem_singleton.2 rfl)
  | .any, options, _, h, _ => by
    cases h
    exact .leaves [.any (options.contains .multiline)] (List.forall_mem_singleton.2 rfl)
  | .anchor a, options, _, h, _ => by
    cases h
    exact .leaves _ (List.forall_mem_singleton.2 (isLeaf_anchorInstruction options a))
  | .backref n, options, _, h, _ => by
    cases h
    exact .leaves [.backref n (options.contains .ignoreCase)] (List.forall_mem_singleton.2 rfl)
  | .scoped _ body, _, _, h, hf => emit_laid body h hf
  | .loop l body, options, _, h, hf => by
    obtain ⟨k, hk, h⟩ := Except.bind_eq_ok h
    cases h
    apply laid_bind (f := fun k => Emit.loop (env.emit options body) options l k (.of env.expandLimit l body k)) hk
    refine (emit_laid body hk hf).loop options l _ fun hs => ?_
    have hfits := LoopShape.of_fits env.expandLimit l body k
    rw [hs] at hfits
    obtain ⟨rfl, _⟩ := hfits
    cases hk
    rfl
  | .group kind body, _, _, h, hf => by
    cases kind with
    | capture n undo =>
      obtain ⟨k, hk, h⟩ := Except.bind_eq_ok h
      cases h
      exact (emit_laid body hk hf).between (.memStart n undo) (.memEnd n undo) (fun _ => rfl)
        (by simp [Instruction.address?]) rfl rfl rfl
    | atomic =>
      obtain ⟨k, hk, h⟩ := Except.bind_eq_ok h
      cases h
      exact (emit_laid body hk hf).between .pushAtomic .popAtomic (fun _ => rfl)
        (by simp [Instruction.address?]) rfl rfl rfl
    | ahead =>
      obtain ⟨k, hk, h⟩ := Except.bind_eq_ok h
      cases h
      exact (emit_laid body hk hf).between .pushPos .popPos (fun _ => rfl) (by simp [Instruction.address?]) rfl rfl rfl
    | notAhead =>
      obtain ⟨k, hk, h⟩ := Except.bind_eq_ok h
      cases h
      exact laid_bind (f := fun k c => relative (k + 1) >>= fun skip => between (.pushPosNot skip) .failPos _ c) hk
        ((emit_laid body hk hf).skipping (fun _ _ => rfl) (fun _ => rfl) (fun _ => rfl) (fun _ => rfl) rfl)
    | behind =>
      obtain ⟨k, hk, h⟩ := Except.bind_eq_ok h
      cases h
      refine laid_behind (fun h => (hf h).1) fun chars => ?_
      have hbody := (Emit.Laid.instr (.lookBehind chars) (fun _ => rfl) rfl).append
        (emit_laid body hk fun h => (hf h).2)
      rwa [Nat.add_comm] at hbody
    | notBehind =>
      obtain ⟨k, hk, h⟩ := Except.bind_eq_ok h
      cases h
      refine laid_behind (fun h => (hf h).1) fun chars => ?_
      exact laid_bind (f := fun k c => relative (k + 1) >>= fun skip =>
          between (.pushLookBehindNot skip chars) .failLookBehindNot _ c) hk
        ((emit_laid body hk fun h => (hf h).2).skipping (fun _ _ => rfl) (fun _ => rfl) (fun _ => rfl)
          (fun _ => rfl) rfl)

theorem emitList_laid : (ns : List Node) → {options : Options} → {k : Nat} →
    env.sizeList options ns = .ok k → (¬Unfixed → Node.BehindsFixedIn env.encoding ns) →
    Emit.Laid Unfixed (env.emitList options ns) k
  | [], _, _, h, _ => by
    cases h
    exact .nil
  | n :: ns, _, _, h, hf => by
    obtain ⟨k, hk, h⟩ := Except.bind_eq_ok h
    obtain ⟨k', hk', h⟩ := Except.bind_eq_ok h
    cases h
    exact (emit_laid n hk fun h => (hf h).1).append (emitList_laid ns hk' fun h => (hf h).2)

theorem emitAlt_laid : (ns : List Node) → {options : Options} → {k : Nat} →
    env.sizeAlt options ns = .ok k → (¬Unfixed → Node.BehindsFixedIn env.encoding ns) →
    Emit.Laid Unfixed (env.emitAlt options ns) k
  | [], _, _, h, _ => by
    cases h
    exact .nil
  | [n], _, _, h, hf => emit_laid n h fun h => (hf h).1
  | n :: m :: ns, options, _, h, hf => by
    obtain ⟨k, hk, h⟩ := Except.bind_eq_ok h
    obtain ⟨k', hk', h⟩ := Except.bind_eq_ok h
    cases h
    have hbranch := (emit_laid n hk fun h => (hf h).1).branch (emitAlt_laid (m :: ns) hk' fun h => (hf h).2)
    exact laid_bind (f := fun size c => env.sizeAlt options (m :: ns) >>= fun rest =>
        ((Emit.jumpTo .push (size + 1)).append ((env.emit options n).append
          ((Emit.jumpTo .jump rest).append (env.emitAlt options (m :: ns))))) c) hk
      (laid_bind hk' hbranch)
end

/-- 生成が失敗するのは、文字数の決まらない後読みがあるときと、命令が相対位置に収まらないほど多いときだけである。 -/
theorem emit_excused {n : Node} {options : Options} {k : Nat} (h : env.size options n = .ok k) {c : Counters}
    {err : CompileError} (herr : env.emit options n c = .error err) :
    err.Excused (¬n.BehindsFixed env.encoding) k := by
  have hlaid : Emit.Laid (¬n.BehindsFixed env.encoding) (env.emit options n) k := emit_laid n h Classical.not_not.1
  exact hlaid.fails herr

/-- 命令の数を計算できれば、翻訳が失敗するのは、命令の生成が失敗するときだけである。 -/
theorem compile_eq_error {root : Node} {groups : Nat} (h : env.compile options groups root = .error err) :
    env.size options root = .error err ∨
      ∃ k, env.size options root = .ok k ∧ err.Excused (¬root.BehindsFixed env.encoding) k := by
  rcases Except.bind_eq_error h with h | ⟨k, hk, h⟩
  · exact .inl h
  · rcases Except.bind_eq_error h with h | ⟨⟨code, c⟩, hc, h⟩
    · exact .inr ⟨k, hk, emit_excused hk h⟩
    · simp only [(emit_regular root hk).length_eq hc, ne_eq, not_true_eq_false, if_false] at h
      cases h

/-- 後読みの文字数が決まっていれば、翻訳が失敗するのは命令が多すぎるときだけである。 -/
theorem compile_eq_overflow {root : Node} {groups : Nat} (hsize : env.size options root = .ok k)
    (hfixed : root.BehindsFixed env.encoding) (h : env.compile options groups root = .error err) :
    err = .addressOverflow ∧ 0x7fffffff < k := by
  rcases compile_eq_error h with h | ⟨k', h, hexcused⟩ <;> rw [hsize] at h <;> cases h
  rcases hexcused with ⟨-, hunfixed⟩ | hlarge
  · exact absurd hfixed hunfixed
  · exact hlarge

end CodeEnv

/-- どの相対位置もコードの中を指し、どの番号にも回数があり、空の検査の終わりには輪を回す命令が続く。 -/
structure Program.Closed (p : Program) : Prop where
  address : ∀ (pc : Nat) i, p.code[pc]? = some i → ∀ addr ∈ i.address?,
    ∃ target < p.code.size, (pc : Int) + 1 + addr = target
  counter : ∀ i ∈ p.code, ∀ id ∈ i.counter?, id < p.repeats.size
  loopEnd : ∀ (pc : Nat) i, p.code[pc]? = some i → i.isNullCheckEnd → (p.code[pc + 1]?).any Matcher.isLoopEnd

namespace CodeEnv

theorem compile_closed {env : CodeEnv} {options : Options} {groups : Nat} {root : Node} {p : Program}
    (h : env.compile options groups root = .ok p) : p.Closed := by
  obtain ⟨k, code, c, hk, hc, rfl⟩ := compile_eq_ok h
  have hlaid : Emit.Laid True (env.emit options root) k := emit_laid root hk (absurd trivial)
  have hplaced := hlaid.placed hc
  have haccept {pc : Nat} {i : Instruction} (hi : (code ++ [Instruction.accept])[pc]? = some i) :
      code[pc]? = some i ∨ i = .accept := by
    grind
  refine ⟨fun pc i hi addr haddr => ?_, fun i hi id hid => ?_, fun pc i hi hend => ?_⟩
  · rcases haccept (by simpa using hi) with hi | rfl
    · obtain ⟨hlow, hhigh⟩ := (hplaced.getElem? hi).1 addr haddr
      obtain ⟨target, htarget⟩ := Int.eq_ofNat_of_zero_le (a := pc + 1 + addr) (by omega)
      refine ⟨target, ?_, htarget⟩
      -- 最後に `accept` があるので、木の命令のすぐ後ろも添字になる。
      simp only [List.size_toArray, List.length_append, List.length_singleton]
      omega
    · cases haddr
  · rw [List.mem_toArray, List.mem_append, List.mem_singleton] at hi
    rcases hi with hi | rfl
    · obtain ⟨pc, hpc⟩ := List.getElem?_of_mem hi
      simpa using (hplaced.getElem? hpc).2.1 id hid
    · cases hid
  · rcases haccept (by simpa using hi) with hi | rfl
    · have hloop := (hplaced.getElem? hi).2.2 hend
      grind
    · cases hend

/-- 命令の数は前もって計算した数に等しく、どのプログラムも、コードの外へ跳ばず、配った番号だけを使う。 -/
theorem emit_compile_closed (env : CodeEnv) (options : Options) (groups : Nat) (root : Node) :
    (∀ k c code c', env.size options root = .ok k → env.emit options root c = .ok (code, c') → code.length = k) ∧
    env.compile options groups root ≠ .error .unexpectedLength ∧
    ∀ p, env.compile options groups root = .ok p → p.Closed := by
  refine ⟨fun k c code c' hk hc => (emit_regular root hk).length_eq hc, fun h => ?_, fun p => compile_closed⟩
  rcases compile_eq_error h with h | ⟨k, -, ⟨h, -⟩ | ⟨h, -⟩⟩
  · cases size_eq_error root h
  · cases h
  · cases h

/-- 数える輪の中に、空の検査の付いた輪と、選択と、否定の後読みを置いた木。 -/
def nestedLoops : Node :=
  .loop { lower := 2, upper := some 200, greedy := true }
    (.list [.loop { lower := 0, upper := none, greedy := false, emptyBody := .possible }
      (.alt [.str [0x61], .empty, .backref 1]), .group .notBehind (.str [0x62]), .any])

theorem emit_compile_closed_nestedLoops : let env : CodeEnv := { encoding := .utf8, fold := none }
    (∃ k code c, env.size .none nestedLoops = .ok k ∧ env.emit .none nestedLoops {} = .ok (code, c) ∧
      code.length = k ∧ k = 16) ∧
    ∃ p, env.compile .none 1 nestedLoops = .ok p ∧ p.Closed := by
  intro env
  obtain ⟨hlength, -, hclosed⟩ := emit_compile_closed env .none 1 nestedLoops
  have hsize : (env.size .none nestedLoops).toOption.any (· == 16) := by decide +kernel
  obtain ⟨k, hsize, hk⟩ := exists_ok hsize
  obtain rfl := eq_of_beq hk
  have hcompile : (env.compile .none 1 nestedLoops).toOption.any fun _ => true := by decide +kernel
  obtain ⟨p, hp, -⟩ := exists_ok hcompile
  obtain ⟨_, code, c, -, hemit, -⟩ := compile_eq_ok hp
  exact ⟨⟨16, code, c, hsize, hemit, hlength 16 {} code c hsize hemit, rfl⟩, p, hp, hclosed p hp⟩

end CodeEnv
end MultibyteRegex

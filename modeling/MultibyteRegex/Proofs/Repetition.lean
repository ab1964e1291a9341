import MultibyteRegex.Proofs.Enumeration

/-!
# 繰り返しの合い方

輪と、任意の文字の繰り返しと、回数を数える繰り返しは、どれも続ける回数の優先順に合い方を試す。分かれ目を
一度過ぎるごとに少なくとも一歩進むので、見通しの `fuel` が尽きるまでは、機械も止まらない。
-/

namespace MultibyteRegex
namespace Emit.Follows

variable {m : Matcher} {origin fuel f n t j : Nat} {reads : Nat → Bool} {a : Emit} {W : Garbage}
  {R : Cont Outlook → Cont Outlook}

/-! ## 空回りの検査 -/

theorem guarded_of_ne {empty : EmptyBody} (hne : empty ≠ .never) (a : Emit) (c : Counters) :
    guarded empty a c = CodeEnv.between (.nullCheckStart c.nullChecks (empty == .possibleWithCaptures))
      (.nullCheckEnd c.nullChecks (empty == .possibleWithCaptures)) a
      { c with nullChecks := c.nullChecks + 1 } := by
  cases empty <;> first | exact absurd rfl hne | rfl

/-- 検査の終わりでは、空回りしていれば輪を回す命令を飛ばす。 -/
theorem execute_nullCheckEnd {empty : EmptyBody} {id p retries : Nat} {best : Answer} {o o₁ : Outcome}
    {st : Stack} (hne : empty ≠ .never)
    (hfind : st.findNullCheck? id =
      some (o.pos, if empty == .possibleWithCaptures then some o.caps else none))
    (hloop : (m.program.code[p + 1]?).any Matcher.isLoopEnd) {caps₁ : Captures}
    (hcaps : empty = .possibleWithCaptures → caps₁ = o₁.caps) :
    m.execute origin (.nullCheckEnd id (empty == .possibleWithCaptures))
      { pc := p, pos := o₁.pos, caps := caps₁, stack := st, retries, best } =
        .ok (.go
          { pc := if empty.isStuck o o₁ then p + 2 else p + 1
            pos := o₁.pos, caps := caps₁, stack := st, retries, best }) := by
  simp only [Matcher.execute, Matcher.nullCheckEnd, hfind]
  cases empty with
  | never => exact absurd rfl hne
  | possible =>
    by_cases hpos : o.pos = o₁.pos <;>
      simp [EmptyBody.isStuck, hpos, hloop, Registers.jump, Registers.next]
  | possibleWithCaptures =>
    obtain rfl := hcaps rfl
    by_cases hstuck : o.pos = o₁.pos ∧ o.caps = o₁.caps
    · simp [EmptyBody.isStuck, hstuck.1, hstuck.2, hloop, Registers.jump]
    · have hpos : (o.pos == o₁.pos && o.caps == o₁.caps) = false := by
        simpa [Bool.and_eq_false_iff] using fun h => fun h' => hstuck ⟨h, h'⟩
      simp [EmptyBody.isStuck, hpos, Registers.next]

section

variable {c c' : Counters} {code : List Instruction} {p : Nat} {K : Garbage} {F : Cont Outlook}
  {o : Outcome} {caps : Captures} {st : Stack} {res : Outlook}

/-- 検査で挟んだ本体は、空回りしていれば輪を回す命令を飛ばし、していなければその命令へ続く。 -/
theorem guarded_ends (hm : m.limits = .unlimited) (h : a.Follows m origin fuel reads none W R)
    {empty : EmptyBody} (hsafe : empty = .possibleWithCaptures → K = .none ∧ W = .none)
    (hc : guarded empty a c = .ok (code, c')) (hp : c'.repeats <+: m.program.repeats.toList)
    (hcode : CodeAt m.program p code) (hloop : (m.program.code[p + code.length]?).any Matcher.isLoopEnd)
    (hn : n ≤ fuel) (hK : K.Avoids reads) (ho : o.Valid m)
    (hcont : ∀ o₁ : Outcome, o₁.Valid m → ∀ k ≤ n, ∀ (caps₁ : Captures) (st₁ : Stack) (a₁ : Outlook),
      (o₁.level st₁ K).Fits caps₁ → (o₁.level st₁ K).Over c (o.level st (K.or W)) →
      (o₁.level st₁ K).Falls m origin k a₁ →
      m.Ends origin k (if empty.isStuck o o₁ then p + code.length + 1 else p + code.length) o₁.pos caps₁
        st₁ (F o₁ a₁))
    (hfit : (o.level st (K.or W)).Fits caps) (hfalls : (o.level st (K.or W)).Falls m origin n res) :
    m.Ends origin n p o.pos caps st (R F o res) := by
  by_cases hne : empty = .never
  · subst hne
    exact h.ends hc hp hcode hn hK (by simp) ho hcont hfit hfalls
  rw [guarded_of_ne hne] at hc
  obtain ⟨body, hb, rfl⟩ := between_eq_ok hc
  simp only [List.length_cons, List.length_append, List.length_nil] at hloop hcont
  let snapshot := if empty == .possibleWithCaptures then some caps else none
  let mark : Frame := .nullCheck c.nullChecks o.pos snapshot
  have hext : c.Extends { c with nullChecks := c.nullChecks + 1 } :=
    ⟨List.prefix_refl _, Nat.le_succ _⟩
  have hmark : (o.level (mark :: st) (K.or W)).Over c (o.level st (K.or W)) :=
    .push_inert (Nat.le_refl _) fun _ _ => rfl
  have hfalls' : (o.level (mark :: st) (K.or W)).Falls m origin n res := fun caps hc =>
    .undo rfl rfl (hfalls caps hc)
  have hfit' : (o.level (mark :: st) (K.or W)).Fits caps := hfit
  refine .of_go hcode.head (fun retries best => ?_) (h.ends hb hp hcode.tail.left hn hK
    (by simp) ho ?_ hfit' hfalls')
  · simp only [Matcher.execute, Matcher.push_unlimited hm]
    rfl
  intro o₁ ho₁ k hk caps₁ st₁ a₁ hfit₁ hover₁ hfalls₁
  obtain ⟨above, habove, hsettled⟩ := hover₁.above
  have hfind : st₁.findNullCheck? c.nullChecks =
      some (o.pos, if empty == .possibleWithCaptures then some o.caps else none) := by
    have hmine : snapshot = if empty == .possibleWithCaptures then some o.caps else none := by
      by_cases he : empty = .possibleWithCaptures
      · obtain ⟨rfl, rfl⟩ := hsafe he
        rw [Garbage.or_none] at hfit
        simp only [snapshot, hfit.eq]
        rfl
      · simp [snapshot, he]
    change st₁ = above ++ mark :: st at habove
    rw [habove, ← hmine]
    exact Stack.findNullCheck?_append fun f hf => (hsettled f hf).nullCheck_ne (Nat.lt_succ_self _)
  have hcaps : empty = .possibleWithCaptures → caps₁ = o₁.caps := by
    intro he
    obtain ⟨rfl, -⟩ := hsafe he
    exact hfit₁.eq
  refine .of_go hcode.tail.right.head (fun retries best => execute_nullCheckEnd hne hfind ?_ hcaps) ?_
  · rw [show p + 1 + body.length + 1 = p + (body.length + (0 + 1) + 1) by omega]
    exact hloop
  · have hends := hcont o₁ ho₁ k hk caps₁ st₁ a₁ hfit₁ ((hover₁.mono hext).trans hmark) hfalls₁
    rw [show p + 1 + body.length + 2 = p + (body.length + (0 + 1) + 1) + 1 by omega,
      show p + 1 + body.length + 1 = p + (body.length + (0 + 1) + 1) by omega]
    exact hends

end

/-- 輪を一回続ける。空回りしたら、輪を抜ける。 -/
abbrev turn (l : Loop) (R : Cont Outlook → Cont Outlook) (F : Cont Outlook) (fuel k : Nat) :
    Cont Outlook :=
  fun o => R (fun o' res' => if l.emptyBody.isStuck o o' then F o' res'
    else l.explore (fun _ => none) R F fuel (k + 1) o' res') o

section

variable {l : Loop} {F : Cont Outlook} {o : Outcome} {res : Outlook}

theorem explore_of_lt (hu : ∀ u ∈ l.upper, j < u) (h : j < l.lower) :
    l.explore (fun _ => none) R F (f + 1) j o res = turn l R F f j o res := by
  have hall : l.upper.all (j < ·) = true := by simpa [Option.all_eq_true] using hu
  simp [Loop.explore, hall, h, turn]

theorem explore_of_le (hu : ∀ u ∈ l.upper, j < u) (h : l.lower ≤ j) :
    l.explore (fun _ => none) R F (f + 1) j o res =
      if l.greedy then turn l R F f j o (F o res) else F o (turn l R F f j o res) := by
  have hall : l.upper.all (j < ·) = true := by simpa [Option.all_eq_true] using hu
  simp [Loop.explore, hall, Nat.not_lt.2 h, turn]

theorem explore_of_upper (hf : 0 < f) (hu : l.upper = some j) :
    l.explore (fun _ => none) R F f j o res = F o res := by
  obtain ⟨f, rfl⟩ := Nat.exists_eq_succ_of_ne_zero (Nat.ne_of_gt hf)
  simp [Loop.explore, hu]

end

/-! ## 輪 -/

section

variable {l : Loop} {c c' : Counters} {body : List Instruction} {p : Nat} {K : Garbage}
  {F : Cont Outlook}

/-- 欲張りな輪の頭。止まる合い方を捨てるのは、そこで続きが必ず失敗するときだけである。 -/
theorem ends_enter (hm : m.limits = .unlimited) {span : Nat} {o : Outcome} {caps : Captures}
    {st : Stack} {G : Outlook → Outlook} {res : Outlook}
    (hi : m.program.code[p]? = some (enter l ↑(span + 1)))
    (hhead : ∀ b ∈ l.head, ∀ a, m.text[o.pos]? ≠ some b → G a = a)
    (hdead : ∀ b ∈ l.next, m.text[o.pos]? ≠ some b → F o res = res)
    (hfit : (o.level st K).Fits caps) (hfalls : (o.level st K).Falls m origin n res)
    (hstop : ∀ caps : Captures, caps.Agree K o.caps →
      m.Ends origin n (p + span + 2) o.pos caps st (F o res))
    (hbody : ∀ (st' : Stack) (res' : Outlook), (o.level st' K).Over c (o.level st K) →
      (o.level st' K).Falls m origin n res' → m.Ends origin n (p + 1) o.pos caps st' (G res')) :
    m.Ends origin (n + 1) p o.pos caps st (G (F o res)) := by
  have ht : ∀ retries best, Registers.target
      { pc := p, pos := o.pos, caps, stack := st, retries, best } ↑(span + 1) = .ok (p + span + 2) :=
    fun _ _ => Matcher.target_eq (by
      simp only
      omega)
  have hbranch := hbody (.alt (p + span + 2) o.pos :: st) _ over_branch (falls_branch hstop)
  unfold enter at hi
  split at hi
  · rename_i b hb
    by_cases hc : m.text[o.pos]? = some b
    · refine .step_go hi (fun retries best => ?_) hbranch
      simp only [Matcher.execute, ht, hc, beq_self_eq_true, if_true, Matcher.push_unlimited hm]
      rfl
    · rw [hhead b hb _ hc]
      refine .step_go hi (fun retries best => ?_) (hstop caps hfit)
      simp only [Matcher.execute, ht, beq_iff_eq, hc, if_false]
      rfl
  · rename_i b _ hb
    by_cases hc : m.text[o.pos]? = some b
    · refine .step_go hi (fun retries best => ?_) hbranch
      simp only [Matcher.execute, ht, hc, beq_self_eq_true, if_true, Matcher.push_unlimited hm]
      rfl
    · rw [hdead b hb hc]
      refine .step_go hi (fun retries best => ?_) (hbody st res (.refl _) hfalls)
      simp only [Matcher.execute, beq_iff_eq, hc, if_false]
      rfl
  · refine ends_push hm hi ?_ hbranch
    omega

/-- 欲張りな輪の尾は、分かれ目に戻る。欲張りでなければ、尾が分かれ目である。 -/
theorem ends_ringTail {span : Nat} {o : Outcome} {caps : Captures} {st : Stack} {res : Outlook}
    (hi : m.program.code[p + 1 + span]? = some (ringTail l span))
    (h : m.Ends origin n (if l.greedy then p else p + 1 + span) o.pos caps st res) :
    m.Ends origin n (p + 1 + span) o.pos caps st res := by
  cases hg : l.greedy with
  | false => simpa [hg] using h
  | true =>
    simp only [ringTail, hg, if_true] at hi h
    exact .mono (ends_jump hi (by omega) h) (Nat.le_succ n)

theorem isLoopEnd_ringTail (l : Loop) (span : Nat) : Matcher.isLoopEnd (ringTail l span) := by
  unfold ringTail
  split <;> rfl

/-- 輪の本体から始めると、一回続けてから、空回りしていなければ分かれ目に戻る。 -/
theorem ring_turn (hm : m.limits = .unlimited) (h : a.Follows m origin fuel reads none .none R)
    (hsafe : l.emptyBody = .possibleWithCaptures → K = .none)
    (hb : guarded l.emptyBody a c = .ok (body, c')) (hp : c'.repeats <+: m.program.repeats.toList)
    (hcode : CodeAt m.program p (ringHead l body.length :: (body ++ [ringTail l body.length])))
    (hK : K.Avoids reads) (hn : n ≤ fuel) {o : Outcome} (ho : o.Valid m) {st : Stack}
    (hcont : Continues m origin n c (p + body.length + 2) K F (o.level st K))
    (hpoint : ∀ o₁ : Outcome, o₁.Valid m → ∀ k ≤ n, ∀ (caps₁ : Captures) (st₁ : Stack) (a₁ : Outlook),
      (o₁.level st₁ K).Fits caps₁ → (o₁.level st₁ K).Over c (o.level st K) →
      (o₁.level st₁ K).Falls m origin k a₁ →
      m.Ends origin k (if l.greedy then p else p + 1 + body.length) o₁.pos caps₁ st₁
        (l.explore (fun _ => none) R F f (j + 1) o₁ a₁))
    {caps : Captures} {st' : Stack} {res : Outlook} (hfit : (o.level st' K).Fits caps)
    (hover : (o.level st' K).Over c (o.level st K)) (hfalls : (o.level st' K).Falls m origin n res) :
    m.Ends origin n (p + 1) o.pos caps st' (turn l R F f j o res) := by
  have hloop : (m.program.code[p + 1 + body.length]?).any Matcher.isLoopEnd := by
    rw [hcode.tail.right.head]
    exact isLoopEnd_ringTail l body.length
  refine guarded_ends hm h (fun he => ⟨hsafe he, rfl⟩) hb hp hcode.tail.left hloop hn hK ho ?_
    (Garbage.or_none ▸ hfit) (Garbage.or_none ▸ hfalls)
  intro o₁ ho₁ k hk caps₁ st₁ a₁ hfit₁ hover₁ hfalls₁
  rw [Garbage.or_none] at hover₁
  have hover₂ := hover₁.trans hover
  by_cases hstuck : l.emptyBody.isStuck o o₁
  · rw [if_pos hstuck, if_pos hstuck,
      show p + 1 + body.length + 1 = p + body.length + 2 by omega]
    exact hcont o₁ ho₁ k hk caps₁ st₁ a₁ hfit₁ hover₂ hfalls₁
  · rw [if_neg hstuck, if_neg hstuck]
    exact ends_ringTail hcode.tail.right.head (hpoint o₁ ho₁ k hk caps₁ st₁ a₁ hfit₁ hover₂ hfalls₁)

/-- 輪の分かれ目から始めると、本体を何回でも続ける。分かれ目を過ぎるたびに `f` が一つ減る。 -/
theorem ring_point (hm : m.limits = .unlimited) (h : a.Follows m origin fuel reads none .none R)
    (hupper : l.upper = none)
    (hhead : ∀ b ∈ l.head, ∀ (F : Cont Outlook) (o : Outcome) (a : Outlook),
      m.text[o.pos]? ≠ some b → R F o a = a)
    (hsafe : l.emptyBody = .possibleWithCaptures → K = .none)
    (hb : guarded l.emptyBody a c = .ok (body, c')) (hp : c'.repeats <+: m.program.repeats.toList)
    (hcode : CodeAt m.program p (ringHead l body.length :: (body ++ [ringTail l body.length])))
    (hK : K.Avoids reads)
    (hdead : ∀ b ∈ l.next, ∀ (o : Outcome) (a : Outlook), m.text[o.pos]? ≠ some b → F o a = a)
    (hf : f ≤ fuel) (hn : n ≤ f) (hj : l.lower ≤ j) {o : Outcome} {caps : Captures} {st : Stack}
    {res : Outlook} (ho : o.Valid m)
    (hcont : Continues m origin n c (p + body.length + 2) K F (o.level st K))
    (hfit : (o.level st K).Fits caps) (hfalls : (o.level st K).Falls m origin n res) :
    m.Ends origin n (if l.greedy then p else p + 1 + body.length) o.pos caps st
      (l.explore (fun _ => none) R F f j o res) := by
  induction f generalizing n j o caps st res with
  | zero =>
    obtain rfl := Nat.le_zero.1 hn
    exact .unsettled
  | succ f ih =>
    have hcont' := hcont.mono (Nat.sub_le n 1) (.refl c) (.refl _)
    have hfalls' := hfalls.mono (Nat.sub_le n 1)
    have hturn : ∀ (caps' : Captures) (st' : Stack) (res' : Outlook), (o.level st' K).Fits caps' →
        (o.level st' K).Over c (o.level st K) → (o.level st' K).Falls m origin (n - 1) res' →
        m.Ends origin (n - 1) (p + 1) o.pos caps' st' (turn l R F f j o res') := fun _ _ _ =>
      ring_turn hm h hsafe hb hp hcode hK (by omega) ho hcont'
        fun o₁ ho₁ k hk caps₁ st₁ a₁ hfit₁ hover₁ hfalls₁ =>
          ih (by omega) (by omega) (by omega) ho₁ (hcont'.mono hk (.refl c) hover₁) hfit₁ hfalls₁
    have hstop : ∀ caps : Captures, caps.Agree K o.caps →
        m.Ends origin (n - 1) (p + body.length + 2) o.pos caps st (F o res) :=
      fun caps hc => hcont'.here ho hc hfalls'
    rw [explore_of_le (by simp [hupper]) hj]
    refine Matcher.Ends.mono (n := n - 1 + 1) ?_ (by omega)
    cases hg : l.greedy with
    | true =>
      have hi := hcode.head
      simp only [ringHead, hg, if_true] at hi
      rw [if_pos rfl, if_pos rfl]
      exact ends_enter (G := turn l R F f j o) hm hi (fun b hb a hne => hhead b hb _ o a hne) (fun b hb => hdead b hb o res) hfit
        hfalls' hstop fun st' res' hover' hfalls' => hturn caps st' res' hfit hover' hfalls'
    | false =>
      have hi : m.program.code[p + 1 + body.length]? = some (ringTail l body.length) :=
        hcode.tail.right.head
      simp only [ringTail, hg, Bool.false_eq_true, if_false] at hi
      rw [if_neg Bool.false_ne_true, if_neg Bool.false_ne_true]
      refine ends_push hm (q := p + 1) hi (by omega) ?_
      rw [show p + 1 + body.length + 1 = p + body.length + 2 by omega]
      exact hcont' o ho _ (Nat.le_refl _) caps (.alt (p + 1) o.pos :: st) _ hfit over_branch
        (falls_branch fun caps hc => hturn caps st res hc (.refl _) hfalls')

end

theorem ring (hm : m.limits = .unlimited) (ha : a.Regular t)
    (h : a.Follows m origin fuel reads none .none R) {l : Loop} (hupper : l.upper = none)
    (hlower : l.lower = 0)
    (hhead : ∀ b ∈ l.head, ∀ (F : Cont Outlook) (o : Outcome) (a : Outlook),
      m.text[o.pos]? ≠ some b → R F o a = a) :
    (a.ring l t).Follows m origin fuel
      (fun n => reads n || l.emptyBody == .possibleWithCaptures) l.next .none
      fun F => l.explore (fun _ => none) R F fuel 0 := by
  refine of_silent ?_
  intro c c' code hc hp p hcode n K F o caps st res hn hK hF ho hcont hfit hfalls
  obtain ⟨body, hb, rfl⟩ := ring_eq_ok hc
  have hlen : t + l.emptyBody.size = body.length := ((ha.guarded l.emptyBody).length_eq hb).symm
  simp only [hlen, List.length_cons, List.length_append, List.length_nil] at hcode hcont
  have hsafe : l.emptyBody = .possibleWithCaptures → K = .none := fun he =>
    hK.eq_none fun n => by simp [he]
  have hpoint := ring_point hm h hupper hhead hsafe hb hp hcode (hK.mono fun n h => by simp [h]) hF
    (Nat.le_refl fuel) hn (Nat.le_of_eq hlower) ho hcont hfit hfalls
  cases hg : l.greedy with
  | true => simpa [hg] using hpoint
  | false =>
    have hi := hcode.head
    simp only [ringHead, hg, Bool.false_eq_true, if_false] at hi hpoint
    exact .mono (ends_jump hi (by omega) hpoint) (Nat.le_succ n)

/-- 輪の本体へ飛び込むと、本体を少なくとも一回続ける。 -/
theorem ring_jumpIn (hm : m.limits = .unlimited) (ha : a.Regular t)
    (h : a.Follows m origin fuel reads none .none R) {l : Loop} (hupper : l.upper = none)
    (hlower : l.lower = 1)
    (hhead : ∀ b ∈ l.head, ∀ (F : Cont Outlook) (o : Outcome) (a : Outlook),
      m.text[o.pos]? ≠ some b → R F o a = a) :
    ((instr (.jump 1)).append (a.ring l t)).Follows m origin fuel
      (fun n => reads n || l.emptyBody == .possibleWithCaptures) l.next .none
      fun F => l.explore (fun _ => none) R F fuel 0 := by
  refine of_silent ?_
  intro c c' code hc hp p hcode n K F o caps st res hn hK hF ho hcont hfit hfalls
  obtain ⟨xs, d, ys, hx, hy, rfl⟩ := append_eq_ok hc
  obtain ⟨rfl, rfl⟩ := instr_eq_ok hx
  obtain ⟨body, hb, rfl⟩ := ring_eq_ok hy
  have hlen : t + l.emptyBody.size = body.length := ((ha.guarded l.emptyBody).length_eq hb).symm
  simp only [hlen, List.cons_append, List.nil_append, List.length_cons, List.length_append,
    List.length_nil] at hcode hcont
  have hsafe : l.emptyBody = .possibleWithCaptures → K = .none := fun he =>
    hK.eq_none fun n => by simp [he]
  have hKb : K.Avoids reads := hK.mono fun n h => by simp [h]
  cases fuel with
  | zero =>
    obtain rfl := Nat.le_zero.1 hn
    exact .unsettled
  | succ f =>
    have hcont' := hcont.mono (Nat.sub_le n 1) (.refl _) (.refl _)
    rw [show p + (body.length + (0 + 1) + 1 + 1) = p + 1 + body.length + 2 by omega] at hcont'
    rw [explore_of_lt (by simp [hupper]) (by omega)]
    refine Matcher.Ends.mono (n := n - 1 + 1) ?_ (by omega)
    refine ends_jump (q := p + 2) hcode.head (by omega) ?_
    refine ring_turn hm h hsafe hb hp hcode.tail hKb (by omega) ho hcont' ?_ hfit (.refl _)
      (hfalls.mono (Nat.sub_le n 1))
    intro o₁ ho₁ k hk caps₁ st₁ a₁ hfit₁ hover₁ hfalls₁
    exact ring_point hm h hupper hhead hsafe hb hp hcode.tail hKb hF (Nat.le_succ f) (by omega)
      (by omega) ho₁ (hcont'.mono hk (.refl _) hover₁) hfit₁ hfalls₁

/-! ## 任意の文字の繰り返し -/

section

variable {l : Loop} {newline : Bool} {peek : Option UInt8} {p : Nat} {c : Counters} {K : Garbage}
  {F : Cont Outlook}

/-- 任意の一文字に合えば、続ける。 -/
def anyThen (m : Matcher) (newline : Bool) (F : Cont Outlook) : Cont Outlook := fun o res =>
  match m.setting.anyEnd? newline o.pos with
  | some s => F (o.moveTo s) res
  | none => res

theorem anyThen_of_lt {o : Outcome} {res : Outlook} (hlt : o.pos < m.text.size)
    (hb : ¬(!newline && m.text[o.pos] == 0x0a) = true) :
    anyThen m newline F o res = F (o.moveTo (m.encoding.nextHead m.text o.pos)) res := by
  have hget : m.setting.text[o.pos]? = some m.text[o.pos] := Array.getElem?_eq_getElem hlt
  have hend : m.setting.anyEnd? newline o.pos = some (m.encoding.nextHead m.text o.pos) := by
    simp only [Setting.anyEnd?, hget]
    rw [if_neg hb, Encoding.nextHead_eq _ hlt]
    rfl
  simp [anyThen, hend]

theorem anyThen_of_stopped {o : Outcome} {res : Outlook} (h : ∀ hlt : o.pos < m.text.size,
    (!newline && m.text[o.pos] == 0x0a) = true) : anyThen m newline F o res = res := by
  have hend : m.setting.anyEnd? newline o.pos = none := by
    simp only [Setting.anyEnd?, Matcher.setting]
    split
    · rfl
    · rename_i c hc
      obtain ⟨hlt, rfl⟩ := Array.getElem?_eq_some_iff.1 hc
      rw [if_pos (h hlt)]
  simp [anyThen, hend]

/-- 一文字ごとに分岐を積みながら進み、最後の文字から順に、止まる合い方を試す。一つの命令で済むので、
`f` は本文の残りより多くなければならない。 -/
theorem anyStar_moves (hm : m.limits = .unlimited) (hupper : l.upper = none) (hlower : l.lower = 0)
    (hgreedy : l.greedy) (hempty : l.emptyBody = .never) (newline : Bool) {o : Outcome}
    {caps : Captures} {st : Stack} {res : Outlook} {lo : Level} (hf : m.text.size - o.pos < f)
    (hdead : ∀ b ∈ peek, ∀ (o : Outcome) (a : Outlook), m.text[o.pos]? ≠ some b → F o a = a)
    (ho : o.Valid m) (hcont : Continues m origin n c (p + 1) K F lo) (hfit : (o.level st K).Fits caps)
    (hover : (o.level st K).Over c lo) (hfalls : (o.level st K).Falls m origin n res) :
    ∃ pos' st',
      (∀ retries best,
          m.anyStar newline peek { pc := p, pos := o.pos, caps, stack := st, retries, best } =
            .ok (.go { pc := p + 1, pos := pos', caps, stack := st', retries, best })) ∧
        m.Ends origin n (p + 1) pos' caps st'
          (l.explore (fun _ => none) (anyThen m newline) F f j o res) ∨
      (∀ retries best,
          m.anyStar newline peek { pc := p, pos := o.pos, caps, stack := st, retries, best } =
            .ok (.fail { pc := p, pos := pos', caps, stack := st', retries, best })) ∧
        m.Gives origin n caps st' (l.explore (fun _ => none) (anyThen m newline) F f j o res) := by
  induction f generalizing j o st res with
  | zero => exact absurd hf (Nat.not_lt_zero _)
  | succ f ih =>
    have hturn : ∀ res, turn l (anyThen m newline) F f j o res =
        anyThen m newline (l.explore (fun _ => none) (anyThen m newline) F f (j + 1)) o res := by
      intro res
      simp [turn, hempty, EmptyBody.isStuck]
    rw [explore_of_le (by simp [hupper]) (by omega), if_pos hgreedy, hturn]
    have hstop : ∀ caps : Captures, caps.Agree K o.caps →
        m.Ends origin n (p + 1) o.pos caps st (F o res) :=
      fun caps hc => hcont o ho n (Nat.le_refl n) caps st res hc hover hfalls
    by_cases hlt : o.pos < m.text.size
    · -- 分岐を積まないのは、ここで止まると続きが必ず失敗するときだけである。
      obtain ⟨st₁, hpush, hover₁, hfalls₁⟩ : ∃ st₁,
          (∀ retries best, (if peek.all (· == m.text[o.pos]) then
            m.push { pc := p, pos := o.pos, caps, stack := st, retries, best } (.alt (p + 1) o.pos)
          else .ok { pc := p, pos := o.pos, caps, stack := st, retries, best }) =
            .ok { pc := p, pos := o.pos, caps, stack := st₁, retries, best }) ∧
          (o.level st₁ K).Over c lo ∧ (o.level st₁ K).Falls m origin n (F o res) := by
        by_cases hpeek : peek.all (· == m.text[o.pos])
        · refine ⟨.alt (p + 1) o.pos :: st, fun retries best => ?_, over_branch.trans hover,
            falls_branch hstop⟩
          rw [if_pos hpeek, Matcher.push_unlimited hm]
        · refine ⟨st, fun retries best => by rw [if_neg hpeek], hover, ?_⟩
          cases peek with
          | none => exact absurd rfl hpeek
          | some b =>
            have hne : m.text[o.pos]? ≠ some b := by
              rw [Array.getElem?_eq_getElem hlt]
              intro hb
              exact hpeek (by simpa using (Option.some.inj hb).symm)
            rw [hdead b rfl o res hne]
            exact hfalls
      by_cases hnl : (!newline && m.text[o.pos] == 0x0a) = true
      · refine ⟨o.pos, st₁, .inr ⟨fun retries best => ?_, ?_⟩⟩
        · rw [Matcher.anyStar, dif_pos hlt]
          simp only [hpush, hnl, if_true]
        · rw [anyThen_of_stopped fun _ => hnl]
          exact hfalls₁ caps hfit
      · let o₁ := o.moveTo (m.encoding.nextHead m.text o.pos)
        have hnext := Encoding.lt_nextHead m.encoding m.text o.pos
        have hle : m.encoding.nextHead m.text o.pos ≤ m.text.size := by
          rw [Encoding.nextHead_eq _ hlt]
          exact Encoding.lengthAt_le _ _ _ ho.pos
        have hleft : m.text.size - o₁.pos < f := by
          simp only [o₁, Outcome.moveTo]
          omega
        rw [anyThen_of_lt hlt hnl]
        have hfit₁ : (o₁.level st₁ K).Fits caps := hfit
        obtain ⟨pos', st', h⟩ := @ih (j + 1) o₁ st₁ (F o res) hleft (ho.moveTo hle) hfit₁ hover₁ hfalls₁
        have hstep : ∀ retries best,
            m.anyStar newline peek { pc := p, pos := o.pos, caps, stack := st, retries, best } =
              m.anyStar newline peek { pc := p, pos := o₁.pos, caps, stack := st₁, retries, best } := by
          intro retries best
          rw [Matcher.anyStar, dif_pos hlt]
          simp only [hpush]
          rw [if_neg hnl]
          rfl
        exact ⟨pos', st', h.imp (fun h => ⟨fun retries best => (hstep _ _).trans (h.1 _ _), h.2⟩)
          fun h => ⟨fun retries best => (hstep _ _).trans (h.1 _ _), h.2⟩⟩
    · refine ⟨o.pos, st, .inl ⟨fun retries best => ?_, ?_⟩⟩
      · rw [Matcher.anyStar, dif_neg hlt]
        rfl
      · rw [anyThen_of_stopped fun h => absurd h hlt]
        exact hstop caps hfit

theorem anyStar (hm : m.limits = .unlimited) (hupper : l.upper = none) (hlower : l.lower = 0)
    (hgreedy : l.greedy) (hempty : l.emptyBody = .never) (newline : Bool)
    (hfuel : m.text.size < fuel) :
    (instr (.anyStar newline peek)).Follows m origin fuel reads peek .none
      fun F => l.explore (fun _ => none) (anyThen m newline) F fuel 0 := by
  refine of_silent ?_
  intro c c' code hc hp p hcode n K F o caps st res hn hK hF ho hcont hfit hfalls
  obtain ⟨rfl, rfl⟩ := instr_eq_ok hc
  obtain ⟨pos', st', h⟩ := anyStar_moves (j := 0) (f := fuel) hm hupper hlower hgreedy hempty newline
    (by omega) hF ho hcont hfit (.refl _) hfalls
  rcases h with ⟨hgo, hends⟩ | ⟨hfail, hgives⟩
  · exact .of_go hcode.head hgo hends
  · exact .of_fail hm hcode.head hfail hgives

end

/-! ## 回数を数える繰り返し -/

section

variable {l : Loop} {id p q k : Nat} {c : Counters} {K J : Garbage} {F : Cont Outlook} {o : Outcome}
  {caps : Captures} {above st : Stack} {res : Outlook} {lo : Level}

/-- 回数を増やしたことの記録を外すと、元の回数に戻って失敗する。 -/
theorem falls_repeatNext (above : Stack)
    (h : (o.level (above ++ .repeatStart id p k :: st) K).Falls m origin n res) :
    (o.level (.repeatNext st.length :: (above ++ .repeatStart id p (k + 1) :: st)) K).Falls
      m origin n res := by
  intro caps hc
  have hundo : Stack.undo (.repeatNext st.length) (above ++ .repeatStart id p (k + 1) :: st) caps =
      some (above ++ .repeatStart id p k :: st, caps) := by
    simp [Stack.undo, Stack.setCount?_append]
  exact .undo rfl hundo (h caps hc)

theorem over_repeatNext (hid : c.repeats.length ≤ id) (above : Stack) (hlo : lo.stack = st)
    (h : (o.level (above ++ .repeatStart id p k :: st) K).Over c lo) :
    (o.level (.repeatNext st.length :: (above ++ .repeatStart id p (k + 1) :: st)) K).Over c lo := by
  subst hlo
  obtain ⟨xs, hxs, hsettled⟩ := h.above
  have hxs : above ++ [.repeatStart id p k] = xs := by
    have hxs : (above ++ [.repeatStart id p k]) ++ lo.stack = xs ++ lo.stack := by
      simpa [Outcome.level] using hxs
    exact List.append_cancel_right hxs
  subst hxs
  refine ⟨⟨.repeatNext lo.stack.length :: (above ++ [.repeatStart id p (k + 1)]), ?_, ?_⟩, ?_⟩
  · simp [Outcome.level]
  · intro f hf
    simp only [List.mem_cons, List.mem_append, List.not_mem_nil, or_false] at hf
    rcases hf with rfl | hf | rfl
    · trivial
    · exact hsettled f (List.mem_append_left _ hf)
    · exact hid
  · intro caps hc
    obtain ⟨caps', hc', hu⟩ := h.unwinds caps hc
    have hundo : Stack.undo (.repeatNext lo.stack.length)
        (above ++ .repeatStart id p (k + 1) :: lo.stack) caps =
          some (above ++ .repeatStart id p k :: lo.stack, caps) := by
      simp [Stack.undo, Stack.setCount?_append]
    exact ⟨caps', hc', .pop trivial hundo hu⟩

/-- 一回の終わり。本体へ戻るか、先へ進むか、その両方を順に試す。 -/
theorem ends_repeatNext (hm : m.limits = .unlimited)
    (hid : m.program.repeats[id]? = some (l.lower, l.upper)) (hge : c.repeats.length ≤ id)
    (hi : m.program.code[p]? = some (.repeatNext id l.greedy)) (hl : ∀ u ∈ l.upper, l.lower ≤ u)
    (hk : ∀ u ∈ l.upper, k < u) (habove : ∀ f ∈ above, f.opener? ≠ some (.counter id))
    (hlo : lo.stack = st) (hfit : (o.level (above ++ .repeatStart id q k :: st) J).Fits caps)
    (hover : (o.level (above ++ .repeatStart id q k :: st) J).Over c lo)
    (hfalls : (o.level (above ++ .repeatStart id q k :: st) J).Falls m origin n res)
    (hexit : l.lower ≤ k + 1 → ∀ (caps : Captures) (st' : Stack) (res : Outlook), caps.Agree J o.caps →
      (o.level st' J).Over c lo → (o.level st' J).Falls m origin n res →
      m.Ends origin n (p + 1) o.pos caps st' (F o res))
    (hagain : (∀ u ∈ l.upper, k + 1 < u) → ∀ (caps : Captures) (xs : Stack) (res : Outlook),
      caps.Agree J o.caps → (∀ f ∈ xs, f = .repeatNext st.length ∨ f = .alt (p + 1) o.pos) →
      (o.level (xs ++ above ++ .repeatStart id q (k + 1) :: st) J).Over c lo →
      (o.level (xs ++ above ++ .repeatStart id q (k + 1) :: st) J).Falls m origin n res →
      m.Ends origin n q o.pos caps (xs ++ above ++ .repeatStart id q (k + 1) :: st)
        (turn l R F f (k + 1) o res)) :
    m.Ends origin (n + 1) p o.pos caps (above ++ .repeatStart id q k :: st)
      (l.explore (fun _ => none) R F (f + 1) (k + 1) o res) := by
  have hfind : (above ++ .repeatStart id q k :: st).findRepeat? id = some st.length :=
    Stack.findRepeat?_append habove
  have hat := Stack.repeatAt?_append above id q k st
  have hset := Stack.setCount?_append above id q k st (· + 1)
  have hover₁ := over_repeatNext hge above hlo hover
  have hfalls₁ := falls_repeatNext above hfalls
  by_cases hmore : ∀ u ∈ l.upper, k + 1 < u
  · have hall : l.upper.all (k + 1 < ·) = true := by simpa [Option.all_eq_true] using hmore
    by_cases hlt : k + 1 < l.lower
    · -- 下限に届くまでは、本体へ戻る他にない。
      rw [explore_of_lt hmore hlt]
      refine .step_go hi (fun retries best => ?_) (hagain hmore caps [.repeatNext st.length] res hfit
        (by simp) hover₁ hfalls₁)
      cases hg : l.greedy <;>
        simp [Matcher.execute, Matcher.repeatNext, hid, hfind, hat, hset, hall, Nat.not_le.2 hlt,
          Matcher.push_unlimited hm, Registers.jump, bind, Except.bind, pure, Except.pure]
    · have hle : l.lower ≤ k + 1 := Nat.not_lt.1 hlt
      rw [explore_of_le hmore hle]
      cases hg : l.greedy with
      | true =>
        rw [if_pos rfl]
        have hstop := fun caps hc => hexit hle caps _ res hc hover hfalls
        refine .step_go hi (fun retries best => ?_) (hagain hmore caps
          [.repeatNext st.length, .alt (p + 1) o.pos] _ hfit (by simp)
          (over_repeatNext hge (.alt (p + 1) o.pos :: above) hlo (over_branch.trans hover))
          (falls_repeatNext (.alt (p + 1) o.pos :: above) (falls_branch hstop)))
        simp [Matcher.execute, Matcher.repeatNext, hid, hfind, hat, hset, hall, hg, hle,
          Matcher.push_unlimited hm, Registers.jump, bind, Except.bind, pure, Except.pure]
      | false =>
        rw [if_neg Bool.false_ne_true]
        have hbody := fun caps hc => hagain hmore caps [.repeatNext st.length] res hc (by simp) hover₁
          hfalls₁
        refine .step_go hi (fun retries best => ?_) (hexit hle caps _ _ hfit (over_branch.trans hover₁)
          (falls_branch hbody))
        simp [Matcher.execute, Matcher.repeatNext, hid, hfind, hat, hset, hall, hg, hle,
          Matcher.push_unlimited hm, Registers.next, bind, Except.bind, pure, Except.pure]
  · -- 上限に届いたら、先へ進む他にない。
    obtain ⟨u, hu, hku⟩ : ∃ u, l.upper = some u ∧ ¬k + 1 < u := by simpa using hmore
    have hlu := hl u hu
    have hku' := hk u hu
    obtain rfl : u = k + 1 := by omega
    rw [explore_of_upper (Nat.succ_pos f) hu]
    refine .step_go hi (fun retries best => ?_) (hexit hlu caps _ res hfit hover₁ hfalls₁)
    cases hg : l.greedy <;>
      simp [Matcher.execute, Matcher.repeatNext, hid, hfind, hat, hset, hu,
        Matcher.push_unlimited hm, Registers.next, bind, Except.bind, pure, Except.pure]

end

/-- `k` 回続けた所で決まらない端。下限に届くまでは、次の本体が必ず書き直す端もまだ決まらない。 -/
def pending (l : Loop) (K W : Garbage) (k : Nat) : Garbage := K.or fun n b => k < l.lower ∧ W n b

theorem pending_of_le {l : Loop} {K : Garbage} {k : Nat} (h : l.lower ≤ k) : pending l K W k = K := by
  funext n b
  simp only [pending, Garbage.or, eq_iff_iff]
  exact ⟨fun h' => h'.elim id fun h' => by omega, .inl⟩

theorem pending_of_none {l : Loop} {K : Garbage} {k : Nat} (h : W = .none) : pending l K W k = K := by
  subst h
  funext n b
  simp [pending, Garbage.or, Garbage.none]

theorem pending_succ {l : Loop} {K : Garbage} {k : Nat} (h : k < l.lower ∨ W = .none) :
    (pending l K W (k + 1)).or W = pending l K W k := by
  rcases h with h | h
  · funext n b
    simp only [pending, Garbage.or, eq_iff_iff]
    exact ⟨fun h' => h'.elim (fun h' => h'.imp_right fun h' => ⟨h, h'.2⟩) fun h' => .inr ⟨h, h'⟩,
      fun h' => h'.elim (fun h' => .inl (.inl h')) fun h' => .inr h'.2⟩
  · rw [pending_of_none h, pending_of_none h, h, Garbage.or_none]

section

variable {l : Loop} {c c' : Counters} {body : List Instruction} {p : Nat} {K : Garbage}
  {F : Cont Outlook}

/-- 本体の番号を配る前に、回数を一つ配る。 -/
abbrev counting (c : Counters) (l : Loop) : Counters :=
  { c with repeats := c.repeats ++ [(l.lower, l.upper)] }

theorem extends_counting (c : Counters) (l : Loop) : c.Extends (counting c l) :=
  ⟨List.prefix_append .., Nat.le_refl _⟩

/-- 数える繰り返しの本体を一回続けると、空回りしていなければ、数える命令に着く。 -/
theorem counted_turn (hm : m.limits = .unlimited) (h : a.Follows m origin fuel reads none W R)
    (hWr : W.Avoids reads) (hW : l.isFixed ∨ W = .none) (hempty : l.emptyBody ≠ .never → W = .none)
    (hsafe : l.emptyBody = .possibleWithCaptures → K = .none)
    (hb : guarded l.emptyBody a (counting c l) = .ok (body, c'))
    (hp : c'.repeats <+: m.program.repeats.toList) (hcode : CodeAt m.program p body)
    (hi : m.program.code[p + body.length]? = some (.repeatNext c.repeats.length l.greedy))
    (hK : K.Avoids reads) (hn : n ≤ fuel) {o : Outcome} {k : Nat} {caps : Captures}
    {above st : Stack} {res : Outlook} {lo : Level} (ho : o.Valid m) (hk : ∀ u ∈ l.upper, k < u)
    (habove : ∀ g ∈ above, g.opener? ≠ some (.counter c.repeats.length))
    (hcont : Continues m origin n c (p + body.length + 1) K F lo)
    (hnext : ∀ o₁ : Outcome, o₁.Valid m → ∀ i ≤ n, ∀ (caps₁ : Captures) (above₁ : Stack)
      (a₁ : Outlook), (∀ g ∈ above₁, g.opener? ≠ some (.counter c.repeats.length)) →
      (o₁.level (above₁ ++ .repeatStart c.repeats.length p k :: st) (pending l K W (k + 1))).Fits caps₁ →
      (o₁.level (above₁ ++ .repeatStart c.repeats.length p k :: st) (pending l K W (k + 1))).Over c lo →
      (o₁.level (above₁ ++ .repeatStart c.repeats.length p k :: st) (pending l K W (k + 1))).Falls
        m origin i a₁ →
      m.Ends origin i (p + body.length) o₁.pos caps₁
        (above₁ ++ .repeatStart c.repeats.length p k :: st)
        (l.explore (fun _ => none) R F f (k + 1) o₁ a₁))
    (hfit : (o.level (above ++ .repeatStart c.repeats.length p k :: st) (pending l K W k)).Fits caps)
    (hover : (o.level (above ++ .repeatStart c.repeats.length p k :: st) (pending l K W k)).Over c lo)
    (hfalls : (o.level (above ++ .repeatStart c.repeats.length p k :: st) (pending l K W k)).Falls
      m origin n res) :
    m.Ends origin n p o.pos caps (above ++ .repeatStart c.repeats.length p k :: st)
      (turn l R F f k o res) := by
  have hsucc : (pending l K W (k + 1)).or W = pending l K W k := by
    refine pending_succ (hW.imp_left fun hf => hk _ ?_)
    simpa [Loop.isFixed] using hf
  have hpend : (pending l K W (k + 1)).Avoids reads := hK.or fun n hn b hw => hWr n hn b hw.2
  have hloop : (m.program.code[p + body.length]?).any Matcher.isLoopEnd := by
    rw [hi]
    rfl
  rw [← hsucc] at hfit hover hfalls
  refine guarded_ends hm h (fun he => ?_) hb hp hcode hloop hn hpend ho ?_ hfit hfalls
  · have hnone := hempty (by rw [he]; exact EmptyBody.noConfusion)
    exact ⟨(pending_of_none hnone).trans (hsafe he), hnone⟩
  intro o₁ ho₁ i hi caps₁ st₁ a₁ hfit₁ hover₁ hfalls₁
  have hover₂ := (hover₁.mono (extends_counting c l)).trans hover
  by_cases hstuck : l.emptyBody.isStuck o o₁
  · have hnone := hempty fun he => by simp [he, EmptyBody.isStuck] at hstuck
    rw [pending_of_none hnone] at hfit₁ hover₂ hfalls₁
    rw [if_pos hstuck, if_pos hstuck]
    exact hcont o₁ ho₁ i hi caps₁ st₁ a₁ hfit₁ hover₂ hfalls₁
  · obtain ⟨ys, hys, hsettled⟩ := hover₁.above
    obtain rfl : st₁ = (ys ++ above) ++ .repeatStart c.repeats.length p k :: st := by
      rw [List.append_assoc]
      exact hys
    rw [if_neg hstuck, if_neg hstuck]
    refine hnext o₁ ho₁ i hi caps₁ (ys ++ above) a₁ (fun g hg => ?_) hfit₁ hover₂ hfalls₁
    rcases List.mem_append.1 hg with hg | hg
    · exact (hsettled g hg).counter_ne (by simp)
    · exact habove g hg

/-- 数える繰り返しの本体から始めると、残りの回数だけ続ける。 -/
theorem counted_body (hm : m.limits = .unlimited) (h : a.Follows m origin fuel reads none W R)
    (hWr : W.Avoids reads) (hl : ∀ u ∈ l.upper, l.lower ≤ u) (hW : l.isFixed ∨ W = .none)
    (hempty : l.emptyBody ≠ .never → W = .none)
    (hsafe : l.emptyBody = .possibleWithCaptures → K = .none)
    (hb : guarded l.emptyBody a (counting c l) = .ok (body, c'))
    (hp : c'.repeats <+: m.program.repeats.toList) (hcode : CodeAt m.program p body)
    (hid : m.program.repeats[c.repeats.length]? = some (l.lower, l.upper))
    (hi : m.program.code[p + body.length]? = some (.repeatNext c.repeats.length l.greedy))
    (hK : K.Avoids reads) (hf : f ≤ fuel) (hn : n ≤ f) {o : Outcome} {k : Nat} {caps : Captures}
    {above st : Stack} {res : Outlook} {lo : Level} (ho : o.Valid m) (hk : ∀ u ∈ l.upper, k < u)
    (habove : ∀ g ∈ above, g.opener? ≠ some (.counter c.repeats.length)) (hlo : lo.stack = st)
    (hcont : Continues m origin n c (p + body.length + 1) K F lo)
    (hfit : (o.level (above ++ .repeatStart c.repeats.length p k :: st) (pending l K W k)).Fits caps)
    (hover : (o.level (above ++ .repeatStart c.repeats.length p k :: st) (pending l K W k)).Over c lo)
    (hfalls : (o.level (above ++ .repeatStart c.repeats.length p k :: st) (pending l K W k)).Falls
      m origin n res) :
    m.Ends origin n p o.pos caps (above ++ .repeatStart c.repeats.length p k :: st)
      (turn l R F f k o res) := by
  induction f generalizing n o k caps above res with
  | zero =>
    refine counted_turn hm h hWr hW hempty hsafe hb hp hcode hi hK (by omega) ho hk habove hcont ?_ hfit
      hover hfalls
    intro o₁ ho₁ i hi caps₁ above₁ a₁ habove₁ hfit₁ hover₁ hfalls₁
    obtain rfl : i = 0 := by omega
    exact .unsettled
  | succ f ih =>
    refine counted_turn hm h hWr hW hempty hsafe hb hp hcode hi hK (by omega) ho hk habove hcont ?_ hfit
      hover hfalls
    intro o₁ ho₁ i hin caps₁ above₁ a₁ habove₁ hfit₁ hover₁ hfalls₁
    refine Matcher.Ends.mono (n := i - 1 + 1) ?_ (by omega)
    refine ends_repeatNext hm hid (Nat.le_refl _) hi hl hk habove₁ hlo hfit₁ hover₁
      (hfalls₁.mono (Nat.sub_le i 1)) ?_ ?_
    · intro hle caps₂ st₂ res₂ hfit₂ hover₂ hfalls₂
      rw [pending_of_le hle] at hfit₂ hover₂ hfalls₂
      exact hcont o₁ ho₁ (i - 1) (by omega) caps₂ st₂ res₂ hfit₂ hover₂ hfalls₂
    · intro hmore caps₂ xs res₂ hfit₂ hfresh hover₂ hfalls₂
      refine ih (by omega) (by omega) ho₁ hmore (fun g hg => ?_)
        (hcont.mono (by omega) (.refl c) (.refl _)) hfit₂ hover₂ hfalls₂
      rcases List.mem_append.1 hg with hg | hg
      · rcases hfresh g hg with rfl | rfl <;> simp [Frame.opener?]
      · exact habove₁ g hg

end

theorem counted (hm : m.limits = .unlimited) (ha : a.Regular t)
    (h : a.Follows m origin fuel reads none W R) (hWr : W.Avoids reads) {l : Loop}
    (hl : ∀ u ∈ l.upper, l.lower ≤ u ∧ 0 < u) (hW : l.isFixed ∨ W = .none)
    (hempty : l.emptyBody ≠ .never → W = .none) :
    (a.counted l t).Follows m origin fuel
      (fun n => reads n || l.emptyBody == .possibleWithCaptures) none (fun n b => 0 < l.lower ∧ W n b)
      fun F => l.explore (fun _ => none) R F fuel 0 := by
  refine ⟨?_⟩
  intro c c' code hc hp p hcode n K F o caps st res hn hK hF ho hcont hfit hfalls
  obtain ⟨body, hb, rfl⟩ := counted_eq_ok hc
  have hlen : t + l.emptyBody.size = body.length := ((ha.guarded l.emptyBody).length_eq hb).symm
  simp only [hlen, List.length_cons, List.length_append, List.length_nil] at hcode hcont
  have hid : m.program.repeats[c.repeats.length]? = some (l.lower, l.upper) := by
    obtain ⟨rest, hrest⟩ := ((ha.guarded l.emptyBody).extends_ hb).repeats.trans hp
    rw [← Array.getElem?_toList, ← hrest]
    simp
  have hzero : ∀ u ∈ l.upper, 0 < u := fun u hu => (hl u hu).2
  have hsafe : l.emptyBody = .possibleWithCaptures → K = .none := fun he =>
    hK.eq_none fun n => by simp [he]
  have hKb : K.Avoids reads := hK.mono fun n h => by simp [h]
  cases fuel with
  | zero =>
    obtain rfl := Nat.le_zero.1 hn
    exact .unsettled
  | succ f =>
    refine Matcher.Ends.mono (n := n - 1 + 1) ?_ (by omega)
    have hcont' := hcont.mono (Nat.sub_le n 1) (.refl _) (.refl _)
    rw [show p + (body.length + (0 + 1) + 1) = p + 1 + body.length + 1 by omega] at hcont'
    have hfalls' := hfalls.mono (Nat.sub_le n 1)
    change Continues m origin _ c _ K F (o.level st (pending l K W 0)) at hcont'
    change caps.Agree (pending l K W 0) o.caps at hfit
    change (o.level st (pending l K W 0)).Falls m origin (n - 1) res at hfalls'
    have hpush : (o.level (.repeatStart c.repeats.length (p + 1) 0 :: st) (pending l K W 0)).Over c
        (o.level st (pending l K W 0)) := .push_inert (Nat.le_refl _) fun _ _ => rfl
    have hdrop : (o.level (.repeatStart c.repeats.length (p + 1) 0 :: st) (pending l K W 0)).Falls
        m origin (n - 1) res := fun caps hc => .undo rfl rfl (hfalls' caps hc)
    have hbody := fun (above : Stack)
        (habove : ∀ g ∈ above, g.opener? ≠ some (.counter c.repeats.length)) (res' : Outlook)
        (caps : Captures) (hfit : caps.Agree (pending l K W 0) o.caps)
        (hover : Level.Over c (o.level _ _) (o.level st (pending l K W 0)))
        (hfalls : Level.Falls m origin (n - 1) _ res') =>
      counted_body hm h hWr (fun u hu => (hl u hu).1) hW hempty hsafe hb hp hcode.tail.left hid
        hcode.tail.right.head hKb (Nat.le_succ f) (by omega) ho hzero habove rfl hcont' hfit hover hfalls
    have htarget : ∀ st retries best, Registers.target
        { pc := p, pos := o.pos, caps, stack := st, retries, best } (↑body.length + 1) =
          .ok (p + 1 + body.length + 1) := fun _ _ _ => Matcher.target_eq (by
      simp only
      omega)
    by_cases h0 : l.lower = 0
    · have hK0 : pending l K W 0 = K := pending_of_le (Nat.le_of_eq h0)
      rw [explore_of_le hzero (Nat.le_of_eq h0)]
      rw [hK0] at hcont' hfit hpush hdrop hbody
      cases hg : l.greedy with
      | true =>
        rw [if_pos rfl]
        have hstop := fun caps hc =>
          hcont' o ho (n - 1) (Nat.le_refl _) caps _ res hc hpush hdrop
        refine .step_go hcode.head (fun retries best => ?_) (hbody [.alt _ o.pos]
          (by simp [Frame.opener?]) _ caps hfit (over_branch.trans hpush) (falls_branch hstop))
        simp [Matcher.execute, Matcher.repeatStart, hid, htarget, h0, hg, Matcher.push_unlimited hm,
          Registers.next, Outcome.level, bind, Except.bind, pure, Except.pure]
      | false =>
        rw [if_neg Bool.false_ne_true]
        have hagain := fun caps hc => hbody [] (by simp) res caps hc hpush hdrop
        refine .step_go hcode.head (fun retries best => ?_) (hcont' o ho (n - 1) (Nat.le_refl _) caps _ _
          hfit (over_branch.trans hpush) (falls_branch hagain))
        simp [Matcher.execute, Matcher.repeatStart, hid, htarget, h0, hg, Matcher.push_unlimited hm,
          Registers.jump, bind, Except.bind, pure, Except.pure]
    · rw [explore_of_lt hzero (Nat.pos_of_ne_zero h0)]
      refine .step_go hcode.head (fun retries best => ?_) (hbody [] (by simp) res caps hfit hpush hdrop)
      simp [Matcher.execute, Matcher.repeatStart, hid, htarget, h0, Matcher.push_unlimited hm,
        Registers.next, Outcome.level, bind, Except.bind, pure, Except.pure]

/-! ## 開き方 -/

/-- どの開き方でも、繰り返しは、並べた本体と輪とを順に続ける。 -/
theorem loop (hm : m.limits = .unlimited) (hfuel : m.text.size < fuel) (ha : a.Regular t)
    (h : a.Follows m origin fuel reads none W R) (hWr : W.Avoids reads) (options : Options) {l : Loop}
    {body : Node} {shape : LoopShape} (hf : shape.Fits l body t) (hl : l.Ordered)
    (hW : l.isFixed ∨ W = .none) (hempty : shape.isGuarded → l.emptyBody ≠ .never → W = .none)
    (hhead : ∀ b ∈ l.head, ∀ (F : Cont Outlook) (o : Outcome) (a : Outlook),
      m.text[o.pos]? ≠ some b → R F o a = a)
    (hzero : t = 0 → W = .none)
    (hany : body = .any → R = anyThen m (options.contains .multiline)) :
    (a.loop options l t shape).Follows m origin fuel
      (fun n => reads n || (shape.isGuarded && l.emptyBody == .possibleWithCaptures)) l.next
      (fun k b => 0 < l.lower ∧ W k b) (shape.explore l (fun _ => none) fuel R) := by
  have hsilent : ∀ {V : Garbage}, V = .none ∨ l.lower = 0 →
      (fun k b => 0 < l.lower ∧ V k b) = Garbage.none := by
    intro V hV
    funext k b
    rcases hV with rfl | h0
    · simp [Garbage.none]
    · simp [Garbage.none, h0]
  have hinfinite : l.upper = none → W = .none := by
    intro hu
    refine hW.resolve_left ?_
    simp [Loop.isFixed, hu]
  have htimes := fun k => h.times ha hWr k
  cases shape with
  | nothing =>
    have hnone : (fun k b => 0 < l.lower ∧ W k b) = Garbage.none := by
      rcases hf with hf | hf
      · exact hsilent (.inl (hzero hf))
      · exact hsilent (.inr (Nat.le_zero.1 (hl 0 hf)))
    exact skip.congr hnone fun F o res => explore_of_upper (Nat.zero_lt_of_lt hfuel) rfl
  | anyStar =>
    obtain ⟨hbody, hg, hu⟩ := hf
    obtain rfl := hinfinite hu
    have hR := hany hbody
    subst hR
    have hstar : Emit.Follows m origin fuel reads l.next
        (Emit.instr (.anyStar (options.contains .multiline) l.next)) .none
        fun F => Loop.explore { l with lower := 0, emptyBody := .never } (fun _ => none)
          (anyThen m (options.contains .multiline)) F fuel 0 :=
      anyStar (l := { l with lower := 0, emptyBody := .never }) hm hu rfl hg rfl
        (options.contains .multiline) hfuel
    refine (((htimes l.lower).append (ha.times _) (.instr _ fun _ => rfl) hstar .none (by simp)).mono
      (fun n hn => ?_) (Nat.le_refl _)).congr ?_ fun _ _ _ => rfl
    · simp only [Bool.or_eq_true, or_self] at hn
      simp [hn]
    · rw [hsilent (.inl rfl), Garbage.or_none]
  | ring copies jumpIn =>
    obtain ⟨-, hu, hcopies⟩ := hf
    obtain rfl := hinfinite hu
    cases jumpIn with
    | false =>
      obtain rfl : copies = l.lower := hcopies
      have hring := ring (l := { l with lower := 0 }) hm ha h hu rfl hhead
      refine (((htimes l.lower).append (ha.times _) (ha.ring l) hring .none (by simp)).mono
        (fun n hn => ?_) (Nat.le_refl _)).congr ?_ fun _ _ _ => rfl
      · simpa [LoopShape.isGuarded] using hn
      · rw [hsilent (.inl rfl), Garbage.or_none]
    | true => exact (ring_jumpIn hm ha h hu hcopies hhead).congr (hsilent (.inl rfl)) fun _ _ _ => rfl
  | unrolled required extra =>
    obtain ⟨-, hg, u, hu, -, rfl, rfl⟩ := hf
    have hrest : ∀ {V : Garbage}, a.Follows m origin fuel reads none .none R ∨ u - l.lower = 0 →
        V = .none → (a.optionalTimes t (u - l.lower)).Follows m origin fuel reads none V fun F =>
          Loop.explore { l with lower := 0, upper := some (u - l.lower), emptyBody := .never }
            (fun _ => none) R F fuel 0 := by
      rintro V (h | h0) rfl
      · exact optionalTimes (l := { l with lower := 0, upper := some (u - l.lower), emptyBody := .never })
          hm ha h rfl rfl hg rfl (u - l.lower) (Nat.zero_add _) (Nat.le_refl _)
      · rw [h0]
        exact skip.congr rfl fun F o res => explore_of_upper (Nat.zero_lt_of_lt hfuel) rfl
    have hfix : a.Follows m origin fuel reads none .none R ∨ u - l.lower = 0 := by
      by_cases hfix : l.isFixed
      · have hul : u = l.lower := by simpa [Loop.isFixed, hu] using hfix
        exact .inr (by omega)
      · obtain rfl := hW.resolve_left hfix
        exact .inl h
    refine (((htimes l.lower).append (ha.times _) (ha.optionalTimes _) (hrest hfix rfl) .none
      (by simp)).mono (fun n hn => ?_) (Nat.le_refl _)).congr ?_ (fun _ _ _ => rfl) |>.unhinted
    · simp only [Bool.or_eq_true, or_self] at hn
      simp [hn]
    · rw [Garbage.or_none]
  | lazyOptional =>
    obtain ⟨-, hg, hlower, hu⟩ := hf
    have hfix : ¬l.isFixed := by simp [Loop.isFixed, hu, hlower]
    obtain rfl := hW.resolve_left hfix
    exact (((lazyOptional (l := { l with emptyBody := .never }) hm ha h hu hlower hg rfl).mono
      (fun n hn => by simp [hn]) (Nat.le_refl _)).congr (hsilent (.inr hlower))
        fun _ _ _ => rfl).unhinted
  | counted =>
    obtain ⟨-, hu⟩ := hf
    refine (((counted hm ha h hWr (fun u hmem => ⟨hl u hmem, ?_⟩) hW (hempty rfl)).mono
      (fun n hn => by simpa [LoopShape.isGuarded] using hn) (Nat.le_refl _)).congr rfl
        fun _ _ _ => rfl).unhinted
    refine Nat.pos_of_ne_zero fun h0 => hu ?_
    rw [← h0]
    exact hmem

end Emit.Follows
end MultibyteRegex

import MultibyteRegex.Proofs.Continuation
import MultibyteRegex.Proofs.Rewriting

/-!
# 生成した命令の合い方

節から生成した断片は、節の合い方を優先順に一つずつ続きへ渡す。試し尽くせば、断片に入ったときの積み重ねまで
戻って失敗する。
-/

namespace MultibyteRegex

namespace Matcher

variable {m : Matcher} {origin n : Nat}

/-- 積み重ねに触れない命令の列を過ぎた後の位置。 -/
def pathEnd? (m : Matcher) (caps : Captures) : List Instruction → Nat → Option Nat
  | [], s => some s
  | i :: is, s => (m.leafEnd? i caps s).bind (m.pathEnd? caps is)

theorem ends_path (hm : m.limits = .unlimited) {is : List Instruction} (hleaf : ∀ i ∈ is, i.isLeaf)
    {p s : Nat} (hc : CodeAt m.program p is) {caps : Captures} {st : Stack} {a : Outlook}
    (hsome : ∀ t, m.pathEnd? caps is s = some t → m.Ends origin n (p + is.length) t caps st a)
    (hnone : m.pathEnd? caps is s = none → m.Gives origin n caps st a) :
    m.Ends origin n p s caps st a := by
  induction is generalizing p s with
  | nil => exact hsome s rfl
  | cons i is ih =>
    obtain ⟨hi, hleaf⟩ := List.forall_mem_cons.1 hleaf
    have he := fun retries best =>
      execute_leaf (m := m) hi origin { pc := p, pos := s, caps, stack := st, retries, best }
    simp only [pathEnd?] at hsome hnone
    cases hp : m.leafEnd? i caps s with
    | none =>
      simp only [hp] at he hnone
      exact .of_fail hm hc.head he (hnone rfl)
    | some t =>
      simp only [hp, Option.bind_some] at he hsome hnone
      refine .of_go hc.head he (ih hleaf hc.tail (fun u hu => ?_) hnone)
      have := hsome u hu
      rwa [List.length_cons, Nat.add_comm is.length, ← Nat.add_assoc] at this

end Matcher

namespace Emit.Follows

variable {m : Matcher} {origin fuel fuel' n k : Nat} {reads reads' : Nat → Bool}
  {next next' : Option UInt8} {a b : Emit} {W V : Garbage} {R S : Cont Outlook → Cont Outlook}

theorem mono (h : a.Follows m origin fuel reads next W R) (hr : ∀ n, reads n → reads' n)
    (hf : fuel' ≤ fuel) : a.Follows m origin fuel' reads' next W R :=
  ⟨fun hc hp _ hcode _ _ _ _ _ _ _ hn hK => h.ends hc hp hcode (Nat.le_trans hn hf) (hK.mono hr)⟩

theorem congr (h : a.Follows m origin fuel reads next W R) (hV : V = W)
    (hS : ∀ F o res, S F o res = R F o res) : a.Follows m origin fuel reads next V S := by
  obtain rfl : S = R := funext fun F => funext fun o => funext fun res => hS F o res
  exact hV ▸ h

/-- 取り消しのない書き換えをしない断片は、入ったときと同じ端が決まったまま抜ける。 -/
theorem of_silent
    (h : ∀ {c c' : Counters} {code : List Instruction}, a c = .ok (code, c') →
      c'.repeats <+: m.program.repeats.toList → ∀ {p : Nat}, CodeAt m.program p code →
      ∀ {n : Nat} {K : Garbage} {F : Cont Outlook} {o : Outcome} {caps : Captures} {st : Stack}
        {res : Outlook}, n ≤ fuel → K.Avoids reads →
        (∀ b ∈ next, ∀ (o' : Outcome) (a : Outlook), m.text[o'.pos]? ≠ some b → F o' a = a) →
        o.Valid m → Continues m origin n c (p + code.length) K F (o.level st K) →
        (o.level st K).Fits caps → (o.level st K).Falls m origin n res →
        m.Ends origin n p o.pos caps st (R F o res)) :
    a.Follows m origin fuel reads next .none R := by
  refine ⟨?_⟩
  intro c c' code hc hp p hcode n K F o caps st res hn hK hdead ho hcont hfit hfalls
  rw [Garbage.or_none] at hcont hfit hfalls
  exact h hc hp hcode hn hK hdead ho hcont hfit hfalls

theorem silent (h : a.Follows m origin fuel reads next .none R) {c c' : Counters}
    {code : List Instruction} (hc : a c = .ok (code, c'))
    (hp : c'.repeats <+: m.program.repeats.toList) {p : Nat} (hcode : CodeAt m.program p code)
    {K : Garbage} {F : Cont Outlook} {o : Outcome} {caps : Captures} {st : Stack} {res : Outlook}
    (hn : n ≤ fuel) (hK : K.Avoids reads)
    (hdead : ∀ b ∈ next, ∀ (o' : Outcome) (a : Outlook), m.text[o'.pos]? ≠ some b → F o' a = a)
    (ho : o.Valid m) (hcont : Continues m origin n c (p + code.length) K F (o.level st K))
    (hfit : (o.level st K).Fits caps) (hfalls : (o.level st K).Falls m origin n res) :
    m.Ends origin n p o.pos caps st (R F o res) := by
  have hends := @h.ends c c' code hc hp p hcode n K F o caps st res hn hK hdead ho
  rw [Garbage.or_none] at hends
  exact hends hcont hfit hfalls

theorem unhinted (h : a.Follows m origin fuel reads none W R) :
    a.Follows m origin fuel reads next W R :=
  ⟨fun hc hp _ hcode _ _ _ _ _ _ _ hn hK _ => h.ends hc hp hcode hn hK (by simp)⟩

theorem skip : Emit.Follows m origin fuel reads next (fun c => .ok ([], c)) .none fun F => F := by
  refine of_silent ?_
  intro c c' code hc hp p hcode n K F o caps st res hn hK hdead ho hcont hfit hfalls
  cases hc
  exact hcont.here ho hfit hfalls

/-- 積み重ねに触れない命令の列は、合う位置が一つだけある。 -/
theorem leaf (hm : m.limits = .unlimited) {is : List Instruction} (hleaf : ∀ i ∈ is, i.isLeaf)
    {end? : Outcome → Option Nat}
    (hle : ∀ (o : Outcome) (s : Nat), o.pos ≤ m.text.size → end? o = some s → s ≤ m.text.size)
    (hend : ∀ (K : Garbage) (o : Outcome) (caps : Captures), K.Avoids reads → o.pos ≤ m.text.size →
      caps.Agree K o.caps → m.pathEnd? caps is o.pos = end? o) :
    Emit.Follows m origin fuel reads next (fun c => .ok (is, c)) .none fun F o res =>
      match end? o with
      | some s => F (o.moveTo s) res
      | none => res := by
  refine of_silent ?_
  intro c c' code hc hp p hcode n K F o caps st res hn hK hdead ho hcont hfit hfalls
  cases hc
  have hpath := hend K o caps hK ho.pos hfit
  refine Matcher.ends_path hm hleaf hcode (fun t ht => ?_) fun ht => ?_
  · rw [hpath] at ht
    rw [ht]
    exact hcont (o.moveTo t) (ho.moveTo (hle o t ho.pos ht)) n (Nat.le_refl n) caps st res hfit
      (.refl _) hfalls
  · rw [hpath] at ht
    rw [ht]
    exact hfalls caps hfit

theorem append (ha : a.Regular n) (hb : b.Regular k)
    (hx : a.Follows m origin fuel reads next W R) (hy : b.Follows m origin fuel reads' next' V S)
    (hV : V.Avoids reads)
    (hdead : ∀ b ∈ next, ∀ (F : Cont Outlook) (o : Outcome) (a : Outlook),
      m.text[o.pos]? ≠ some b → S F o a = a) :
    (a.append b).Follows m origin fuel (fun n => reads n || reads' n) next' (W.or V)
      fun F => R (S F) := by
  refine ⟨?_⟩
  intro c c' code hc hp p hcode n K F o caps st res hn hK hF ho hcont hfit hfalls
  obtain ⟨xs, d, ys, hxs, hys, rfl⟩ := append_eq_ok hc
  rw [Garbage.or_right_comm] at hcont hfit hfalls
  have hKx : K.Avoids reads := hK.mono fun n h => by simp [h]
  have hKy : K.Avoids reads' := hK.mono fun n h => by simp [h]
  refine hx.ends hxs ((hb.extends_ hys).repeats.trans hp) hcode.left hn (hKx.or hV)
    (fun b hb o' a ho' => hdead b hb F o' a ho') ho ?_ hfit hfalls
  -- 前の断片の合い方の一つから、後の断片へ続く。
  intro o₁ ho₁ k hk caps₁ st₁ a₁ hfit₁ hover₁ hfalls₁
  refine hy.ends hys hp hcode.right (Nat.le_trans hk hn) hKy hF ho₁ ?_ hfit₁ hfalls₁
  rw [List.length_append, ← Nat.add_assoc] at hcont
  exact hcont.mono hk (ha.extends_ hxs) hover₁

theorem times (ha : a.Regular n) (h : a.Follows m origin fuel reads none W R)
    (hW : W.Avoids reads) (k : Nat) :
    (a.times k).Follows m origin fuel reads none (fun n b => 0 < k ∧ W n b)
      (Nat.repeat R k) := by
  induction k with
  | zero =>
    refine skip.congr ?_ fun _ _ _ => rfl
    funext n b
    simp [Garbage.none]
  | succ k ih =>
    have hV : Garbage.Avoids (fun n b => 0 < k ∧ W n b) reads := fun n hn b hw => hW n hn b hw.2
    refine ((h.append ha (ha.times k) ih hV (by simp)).mono (fun n hn => ?_) (Nat.le_refl _)).congr ?_
      fun _ _ _ => rfl
    · simpa using hn
    · funext n b
      simp only [Garbage.or, eq_iff_iff]
      exact ⟨fun h => .inl h.2, fun h => ⟨Nat.succ_pos k, h.elim id And.right⟩⟩

/-! ## 分岐 -/

/-- 分岐点を積んだ上で失敗すると、分岐先から始める。 -/
theorem falls_branch {pc : Nat} {o : Outcome} {st : Stack} {K : Garbage} {res : Outlook}
    (h : ∀ caps : Captures, caps.Agree K o.caps → m.Ends origin n pc o.pos caps st res) :
    (o.level (.alt pc o.pos :: st) K).Falls m origin n res :=
  fun caps hc => .resume rfl (h caps hc)

theorem over_branch {pc pos : Nat} {c : Counters} {o : Outcome} {st : Stack} {K : Garbage} :
    (o.level (.alt pc pos :: st) K).Over c (o.level st K) :=
  .push_inert trivial fun _ _ => rfl

theorem ends_push (hm : m.limits = .unlimited) {p q : Nat} {addr : Int} {o : Outcome}
    {caps : Captures} {st : Stack} {res : Outlook} (hi : m.program.code[p]? = some (.push addr))
    (hq : (q : Int) = p + 1 + addr)
    (h : m.Ends origin n (p + 1) o.pos caps (.alt q o.pos :: st) res) :
    m.Ends origin (n + 1) p o.pos caps st res := by
  refine .step_go hi (fun retries best => ?_) h
  have ht : Registers.target { pc := p, pos := o.pos, caps, stack := st, retries, best } addr = .ok q :=
    Matcher.target_eq hq
  simp only [Matcher.execute, ht, Matcher.push_unlimited hm]
  rfl

theorem ends_jump {p q : Nat} {addr : Int} {o : Outcome} {caps : Captures} {st : Stack}
    {res : Outlook} (hi : m.program.code[p]? = some (.jump addr)) (hq : (q : Int) = p + 1 + addr)
    (h : m.Ends origin n q o.pos caps st res) : m.Ends origin (n + 1) p o.pos caps st res := by
  refine .step_go hi (fun retries best => ?_) h
  have ht : Registers.target { pc := p, pos := o.pos, caps, stack := st, retries, best } addr = .ok q :=
    Matcher.target_eq hq
  simp only [Matcher.execute, ht]
  rfl

theorem either (hm : m.limits = .unlimited) (ha : a.Regular n) (hb : b.Regular k)
    (hx : a.Follows m origin fuel reads none .none R)
    (hy : b.Follows m origin fuel reads' none .none S) :
    ((jumpTo .push (n + 1)).append (a.append ((jumpTo .jump k).append b))).Follows m origin fuel
      (fun n => reads n || reads' n) none .none fun F o res => R F o (S F o res) := by
  refine of_silent ?_
  intro c c' code hc hp p hcode n K F o caps st res hn hK hF ho hcont hfit hfalls
  obtain ⟨ws, d₁, us, hws, hus, rfl⟩ := append_eq_ok hc
  obtain ⟨rfl, rfl⟩ := jumpTo_eq_ok hws
  obtain ⟨xs, d₂, vs, hxs, hvs, rfl⟩ := append_eq_ok hus
  obtain ⟨zs, d₃, ys, hzs, hys, rfl⟩ := append_eq_ok hvs
  obtain ⟨rfl, rfl⟩ := jumpTo_eq_ok hzs
  have hlen := ha.length_eq hxs
  have hlen' := hb.length_eq hys
  have hKx : K.Avoids reads := hK.mono fun n h => by simp [h]
  have hKy : K.Avoids reads' := hK.mono fun n h => by simp [h]
  simp only [List.cons_append, List.nil_append] at hcode
  simp only [List.length_append, List.length_cons, List.length_nil] at hcont
  have hsecond : ∀ caps : Captures, caps.Agree K o.caps →
      m.Ends origin n (p + 1 + xs.length + 1) o.pos caps st (S F o res) := by
    intro caps hfit
    refine hy.silent hys hp hcode.tail.right.tail hn hKy hF ho ?_ hfit hfalls
    rw [show p + 1 + xs.length + 1 + ys.length = p + (0 + 1 + (xs.length + (0 + 1 + ys.length))) by omega]
    exact hcont.mono (Nat.le_refl n) (ha.extends_ hxs) (.refl _)
  refine .mono (ends_push hm (q := p + 1 + xs.length + 1) hcode.head (by omega) ?_) (Nat.le_succ n)
  refine hx.silent hxs ((hb.extends_ hys).repeats.trans hp) hcode.tail.left hn hKx hF ho ?_ hfit
    (falls_branch hsecond)
  -- 前の枝の終わりでは、後の枝を飛び越す。
  intro o₁ ho₁ k hk caps₁ st₁ a₁ hfit₁ hover₁ hfalls₁
  refine .mono (ends_jump (q := p + (0 + 1 + (xs.length + (0 + 1 + ys.length))))
    hcode.tail.right.head (by omega) ?_) (Nat.le_succ k)
  exact hcont o₁ ho₁ k hk caps₁ st₁ a₁ hfit₁ (hover₁.trans over_branch) hfalls₁

/-- 省略できる本体を、`j` 回から上限の `u` 回まで、できるだけ多く続ける。 -/
theorem optionalTimes (hm : m.limits = .unlimited) (ha : a.Regular n)
    (h : a.Follows m origin fuel reads none .none R) {l : Loop} {u : Nat} (hu : l.upper = some u)
    (hl : l.lower = 0) (hg : l.greedy) (hempty : l.emptyBody = .never) (k : Nat) {j : Nat}
    (hj : j + k = u) (hf : fuel' ≤ fuel) :
    (a.optionalTimes n k).Follows m origin fuel' reads none .none
      fun F => l.explore (fun _ => none) R F fuel' j := by
  induction k generalizing j fuel' with
  | zero =>
    refine of_silent ?_
    intro c c' code hc hp p hcode t K F o caps st res ht hK hF ho hcont hfit hfalls
    cases hc
    cases fuel' with
    | zero =>
      obtain rfl := Nat.le_zero.1 ht
      exact .unsettled
    | succ fuel' =>
      have hstop : l.explore (fun _ => none) R F (fuel' + 1) j o res = F o res := by
        simp [Loop.explore, hu, ← hj]
      rw [hstop]
      exact hcont.here ho hfit hfalls
  | succ k ih =>
    refine of_silent ?_
    intro c c' code hc hp p hcode t K F o caps st res ht hK hF ho hcont hfit hfalls
    obtain ⟨body, d, rest, hb, hr, rfl⟩ := optionalTimes_succ_eq_ok hc
    have hrest := ha.optionalTimes k
    have hlen := ha.length_eq hb
    have hlen' := hrest.length_eq hr
    simp only [List.length_append, List.length_cons] at hcont
    cases fuel' with
    | zero =>
      obtain rfl := Nat.le_zero.1 ht
      exact .unsettled
    | succ fuel' =>
      have hmore : l.explore (fun _ => none) R F (fuel' + 1) j o res =
          R (l.explore (fun _ => none) R F fuel' (j + 1)) o (F o res) := by
        have hlt : j < u := by omega
        simp [Loop.explore, hu, hl, hg, hempty, EmptyBody.isStuck, hlt]
      rw [hmore]
      refine .mono (ends_push hm (n := t - 1) (q := p + (body.length + rest.length + 1)) hcode.head ?_ ?_)
        (by omega)
      · rw [hlen, hlen', Nat.succ_mul, Nat.mul_succ]
        omega
      · refine h.silent hb ((hrest.extends_ hr).repeats.trans hp) hcode.tail.left (by omega) hK (by simp)
          ho ?_ hfit ?_
        · intro o₁ ho₁ i hi caps₁ st₁ a₁ hfit₁ hover₁ hfalls₁
          refine (ih (by omega) (Nat.le_trans (Nat.le_succ fuel') hf)).silent hr hp hcode.tail.right
            (by omega) hK hF ho₁ ?_ hfit₁ hfalls₁
          rw [show p + 1 + body.length + rest.length = p + (body.length + rest.length + 1) by omega]
          exact hcont.mono (by omega) (ha.extends_ hb) (hover₁.trans over_branch)
        · exact falls_branch fun caps hfit =>
            (hcont.mono (Nat.sub_le t 1) (.refl c) (.refl _)).here ho hfit (hfalls.mono (Nat.sub_le t 1))

theorem lazyOptional (hm : m.limits = .unlimited) (ha : a.Regular n)
    (h : a.Follows m origin fuel reads none .none R) {l : Loop} (hu : l.upper = some 1)
    (hl : l.lower = 0) (hg : l.greedy = false) (hempty : l.emptyBody = .never) :
    ((Emit.instr (.push 1)).append ((jumpTo .jump n).append a)).Follows m origin fuel reads none .none
      fun F => l.explore (fun _ => none) R F fuel 0 := by
  refine of_silent ?_
  intro c c' code hc hp p hcode t K F o caps st res ht hK hF ho hcont hfit hfalls
  obtain ⟨ws, d₁, us, hws, hus, rfl⟩ := append_eq_ok hc
  obtain ⟨rfl, rfl⟩ := instr_eq_ok hws
  obtain ⟨zs, d₂, xs, hzs, hxs, rfl⟩ := append_eq_ok hus
  obtain ⟨rfl, rfl⟩ := jumpTo_eq_ok hzs
  have hlen := ha.length_eq hxs
  simp only [List.cons_append, List.nil_append] at hcode
  simp only [List.length_append, List.length_cons, List.length_nil] at hcont
  cases fuel with
  | zero =>
    obtain rfl := Nat.le_zero.1 ht
    exact .unsettled
  | succ fuel =>
    have hmore : l.explore (fun _ => none) R F (fuel + 1) 0 o res =
        F o (R (l.explore (fun _ => none) R F fuel 1) o res) := by
      simp [Loop.explore, hu, hl, hg, hempty, EmptyBody.isStuck]
    have hfalls' := hfalls.mono (Nat.sub_le t 1)
    have hbody : ∀ caps : Captures, caps.Agree K o.caps →
        m.Ends origin (t - 1) (p + 2) o.pos caps st (R (l.explore (fun _ => none) R F fuel 1) o res) := by
      intro caps hfit
      refine h.silent hxs hp hcode.tail.tail (by omega) hK (by simp) ho ?_ hfit hfalls'
      intro o₁ ho₁ i hi caps₁ st₁ a₁ hfit₁ hover₁ hfalls₁
      cases fuel with
      | zero =>
        obtain rfl : i = 0 := by omega
        exact .unsettled
      | succ fuel =>
        have hstop : l.explore (fun _ => none) R F (fuel + 1) 1 o₁ a₁ = F o₁ a₁ := by
          simp [Loop.explore, hu]
        rw [hstop, show p + 2 + xs.length = p + (0 + 1 + (0 + 1 + xs.length)) by omega]
        exact hcont o₁ ho₁ i (by omega) caps₁ st₁ a₁ hfit₁ hover₁ hfalls₁
    rw [hmore]
    refine .mono (ends_push hm (n := t - 1) (q := p + 2) hcode.head (by omega) ?_) (by omega)
    refine .mono (ends_jump (q := p + (0 + 1 + (0 + 1 + xs.length))) hcode.tail.head (by omega) ?_)
      (Nat.le_succ (t - 1))
    exact hcont o ho (t - 1) (Nat.sub_le t 1) caps _ _ hfit over_branch (falls_branch hbody)

end Emit.Follows

/-! ## 捕獲 -/

section

variable {m : Matcher} {origin t n p : Nat} {c : Counters} {undo : Bool} {K W : Garbage} {o : Outcome}
  {caps : Captures} {st : Stack}

/-- `n` 番の捕獲の中で決まらない端。取り消しがなければ、終わりは抜けるまで決まらない。 -/
def Garbage.inside (K : Garbage) (n : Nat) (undo : Bool) : Garbage := if undo then K else K.orStop n

/-- `n` 番の捕獲が、取り消しなしに書き換える端。 -/
def Garbage.ofCapture (W : Garbage) (n : Nat) (undo : Bool) : Garbage :=
  fun k b => (undo = false ∧ k = n) ∨ W k b

theorem memStart_opens (hm : m.limits = .unlimited) (ho : o.Valid m) (hn : n ≤ m.program.groups)
    (hi : m.program.code[p]? = some (.memStart n undo))
    (hfit : (o.level st (K.or (W.ofCapture n undo))).Fits caps) :
    ∃ (st' : Stack) (caps' : Captures),
      (∀ t a, m.Ends origin t (p + 1) o.pos caps' st' a → m.Ends origin t p o.pos caps st a) ∧
      ((o.opened n).level st' ((K.inside n undo).or W)).Fits caps' ∧
      ((o.opened n).level st' ((K.inside n undo).or W)).Over c
        (o.level st (K.or (W.ofCapture n undo))) ∧
      ∀ t a, (o.level st (K.or (W.ofCapture n undo))).Falls m origin t a →
        ((o.opened n).level st' ((K.inside n undo).or W)).Falls m origin t a := by
  have hsize : caps.size = m.program.groups + 1 := hfit.size.trans ho.caps
  have hlt : n < caps.size := by omega
  have hget : caps[n]? = some caps[n] := Array.getElem?_eq_getElem hlt
  cases undo with
  | true =>
    have hW : W.ofCapture n true = W := by
      funext k b
      simp [Garbage.ofCapture]
    rw [hW] at hfit ⊢
    have hundo : ∀ caps' : Captures, caps'.Agree (K.or W) (o.opened n).caps →
        Stack.undo (.memStart n caps[n]) st caps' = some (st, caps'.setIfInBounds n caps[n]) := by
      intro caps' hc
      have : caps'.size = o.caps.size := by simpa [Outcome.opened] using hc.size
      simp only [Stack.undo]
      rw [if_pos (by rw [this, ho.caps]; omega)]
    refine ⟨.memStart n caps[n] :: st, caps.setIfInBounds n ⟨some o.pos, none⟩, fun t a h => ?_, ?_, ?_,
      fun t a h caps' hc => ?_⟩
    · refine .of_go hi (fun retries best => ?_) h
      simp only [Matcher.execute, Matcher.memStart, hget, Matcher.push_unlimited hm]
      rfl
    · exact hfit.set fun _ => rfl
    · exact .push trivial fun caps' hc => ⟨_, hc.restore hfit hget, hundo caps' hc⟩
    · exact .undo rfl (hundo caps' hc) (h _ (hc.restore hfit hget))
  | false =>
    have hsub : ∀ k c, (K.orStop n).or W k c → K.or (W.ofCapture n false) k c := by
      rintro k c ((h | h) | h)
      · exact .inl h
      · exact .inr (.inl ⟨rfl, h.1⟩)
      · exact .inr (.inr h)
    have hboth : ∀ c, K.or (W.ofCapture n false) n c := fun c => .inr (.inl ⟨rfl, rfl⟩)
    refine ⟨st, caps.setIfInBounds n ⟨some o.pos, caps[n].stop⟩, fun t a h => ?_, ?_, ?_,
      fun t a h caps' hc => h _ (hc.of_set hsub hboth)⟩
    · refine .of_go hi (fun retries best => ?_) h
      simp only [Matcher.execute, Matcher.memStart, hget]
      rfl
    · refine Captures.Agree.set_of hfit (fun k c hk h => ?_) fun c hc => ?_
      · rcases h with h | ⟨-, h⟩ | h
        · exact .inl (.inl h)
        · exact absurd h hk
        · exact .inr h
      · cases c with
        | true => rfl
        | false => exact absurd (.inl (.inr ⟨rfl, rfl⟩)) hc
    · exact .same fun caps' hc => hc.of_set hsub hboth

theorem memEnd_closes (hm : m.limits = .unlimited) (ho : o.Valid m) (hn : n ≤ m.program.groups)
    (hi : m.program.code[p]? = some (.memEnd n undo))
    (hfit : (o.level st (K.inside n undo)).Fits caps) :
    ∃ (st' : Stack) (caps' : Captures),
      (∀ t a, m.Ends origin t (p + 1) o.pos caps' st' a → m.Ends origin t p o.pos caps st a) ∧
      ((o.closed n).level st' K).Fits caps' ∧
      ((o.closed n).level st' K).Over c (o.level st (K.inside n undo)) ∧
      ∀ t a, (o.level st (K.inside n undo)).Falls m origin t a →
        ((o.closed n).level st' K).Falls m origin t a := by
  have hsize : caps.size = m.program.groups + 1 := hfit.size.trans ho.caps
  have hlt : n < caps.size := by omega
  have hget : caps[n]? = some caps[n] := Array.getElem?_eq_getElem hlt
  have hset : caps.setIfInBounds n ⟨caps[n].start, some o.pos⟩ =
      caps.modify n fun s => { s with stop := some o.pos } := by
    refine Array.ext_getElem? fun k => ?_
    rw [Array.getElem?_setIfInBounds, Array.getElem?_modify]
    by_cases h : n = k
    · subst h
      simp [hlt]
    · simp [h]
  cases undo with
  | true =>
    have hundo : ∀ caps' : Captures, caps'.Agree K (o.closed n).caps →
        Stack.undo (.memEnd n caps[n].stop) st caps' =
          some (st, caps'.modify n fun s => { s with stop := caps[n].stop }) := by
      intro caps' hc
      have : caps'.size = o.caps.size := by simpa [Outcome.closed] using hc.size
      simp only [Stack.undo]
      rw [if_pos (by rw [this, ho.caps]; omega)]
    refine ⟨.memEnd n caps[n].stop :: st, caps.setIfInBounds n ⟨caps[n].start, some o.pos⟩,
      fun t a h => ?_, ?_, ?_, fun t a h caps' hc => ?_⟩
    · refine .of_go hi (fun retries best => ?_) h
      simp only [Matcher.execute, Matcher.memEnd, hget, Matcher.push_unlimited hm]
      rfl
    · rw [hset]
      exact Captures.Agree.stop hfit
    · exact .push trivial fun caps' hc =>
        ⟨_, Captures.Agree.restore_stop hc hfit hget, hundo caps' hc⟩
    · exact .undo rfl (hundo caps' hc) (h _ (Captures.Agree.restore_stop hc hfit hget))
  | false =>
    refine ⟨st, caps.setIfInBounds n ⟨caps[n].start, some o.pos⟩, fun t a h => ?_, ?_, ?_,
      fun t a h caps' hc => h _ (Captures.Agree.of_stop hc)⟩
    · refine .of_go hi (fun retries best => ?_) h
      simp only [Matcher.execute, Matcher.memEnd, hget]
      rfl
    · rw [hset]
      exact Captures.Agree.stop_orStop hfit
    · exact .same fun caps' hc => hc.of_stop

end

namespace Emit.Follows

variable {m : Matcher} {origin fuel : Nat} {reads : Nat → Bool} {a : Emit} {W : Garbage}
  {R : Cont Outlook → Cont Outlook}

theorem capture (hm : m.limits = .unlimited) (h : a.Follows m origin fuel reads none W R) {k : Nat}
    {undo : Bool} (hk : k ≤ m.program.groups) (hundo : reads k → undo = true) :
    Emit.Follows m origin fuel reads none (CodeEnv.between (.memStart k undo) (.memEnd k undo) a)
      (W.ofCapture k undo) fun F o res => R (fun o' => F (o'.closed k)) (o.opened k) res := by
  refine ⟨?_⟩
  intro c c' code hc hp p hcode n K F o caps st res hn hK hF ho hcont hfit hfalls
  obtain ⟨body, hb, rfl⟩ := between_eq_ok hc
  obtain ⟨st₁, caps₁, hgo, hfit₁, hover₁, hfalls₁⟩ := memStart_opens hm ho hk hcode.head hfit
  have hinside : (K.inside k undo).Avoids reads := by
    intro j hj b hw
    cases undo with
    | true => exact hK j hj b hw
    | false =>
      rcases hw with hw | ⟨rfl, -⟩
      · exact hK j hj b hw
      · cases hundo hj
  refine hgo _ _ (h.ends hb hp hcode.tail.left hn hinside (by simp) (ho.opened k) ?_ hfit₁ (hfalls₁ _ _ hfalls))
  intro o₂ ho₂ i hi caps₂ st₂ a₂ hfit₂ hover₂ hfalls₂
  obtain ⟨st₃, caps₃, hgo₃, hfit₃, hover₃, hfalls₃⟩ :=
    memEnd_closes (c := c) hm ho₂ hk hcode.tail.right.head hfit₂
  refine hgo₃ _ _ ?_
  simp only [List.length_cons, List.length_append, List.length_nil] at hcont
  rw [show p + 1 + body.length + 1 = p + (body.length + (0 + 1) + 1) by omega]
  exact hcont (o₂.closed k) (ho₂.closed k) i hi caps₃ st₃ a₂ hfit₃
    ((hover₃.trans hover₂).trans hover₁) (hfalls₃ _ _ hfalls₂)

end Emit.Follows

/-! ## 先読みと後戻りの禁止 -/

section

variable {b : Counters} {K K' : Garbage} {c c' : Captures} {st st' : Stack} {f : Frame}

/-- 目印までを無効にすると、目印の下へ直に戻る積み重ねになる。 -/
theorem voidTo_over {α : Type} {x : α} (m : Matcher) (origin : Nat) (mark : Frame → Option α)
    (hm : ∀ g, g.Settled b → mark g = none) (hr : ∀ id p k, mark (.repeatStart id p k) = none)
    (hf : mark f = some x) (h : Level.Over b ⟨st', K, c⟩ ⟨f :: st, K', c'⟩) :
    ∃ st'', st'.voidTo mark = (some x, st'') ∧ Level.Over b ⟨st'', K, c⟩ ⟨st, K', c'⟩ ∧
      ∀ n a, Level.Falls m origin n ⟨st, K', c'⟩ a → Level.Falls m origin n ⟨st'', K, c⟩ a := by
  obtain ⟨xs, hxs, hsettled⟩ := h.above
  dsimp only at hxs
  have hvoid := Stack.voidTo_append st (fun g hg => hm g (hsettled g hg)) hf
  rw [← hxs] at hvoid
  have hsnd : (st'.voidTo mark).2 =
      xs.map (fun g => if g.isResume then .void else g) ++ .void :: st := by rw [hvoid]
  refine ⟨_, hvoid, ⟨⟨xs.map (fun g => if g.isResume then .void else g) ++ [.void], ?_, ?_⟩, ?_⟩, ?_⟩
  · simp
  · intro g hg
    rcases List.mem_append.1 hg with hg | hg
    · obtain ⟨g', hg', rfl⟩ := List.mem_map.1 hg
      split
      · trivial
      · exact hsettled g' hg'
    · cases List.mem_singleton.1 hg
      trivial
  · intro caps hc
    obtain ⟨caps', hc', hu⟩ := h.unwinds caps hc
    exact ⟨caps', hc', hsnd ▸ hu.voidTo hm hr hf⟩
  · intro n a hfalls caps hc
    obtain ⟨caps', hc', hu⟩ := h.unwinds caps hc
    have hpop := hu.popResume_voidTo hm hr hf
    have hgives := hfalls caps' hc'
    unfold Matcher.Gives at hgives ⊢
    rw [hsnd] at hpop
    dsimp only
    rwa [hpop]

end

namespace Emit.Follows

variable {m : Matcher} {origin fuel n : Nat} {reads : Nat → Bool} {a : Emit} {W : Garbage}
  {R : Cont Outlook → Cont Outlook}

theorem atomic (hm : m.limits = .unlimited) (h : a.Follows m origin fuel reads none W R) :
    Emit.Follows m origin fuel reads none (CodeEnv.between .pushAtomic .popAtomic a) W
      fun F o res => R (fun o' _ => F o' res) o res := by
  refine ⟨?_⟩
  intro c c' code hc hp p hcode n K F o caps st res hn hK hF ho hcont hfit hfalls
  obtain ⟨body, hb, rfl⟩ := between_eq_ok hc
  have hfit' : (o.level (.atomic :: st) (K.or W)).Fits caps := hfit
  have hfalls' : (o.level (.atomic :: st) (K.or W)).Falls m origin n res := fun caps hc =>
    .undo rfl rfl (hfalls caps hc)
  refine .of_go hcode.head (fun retries best => ?_) (h.ends hb hp hcode.tail.left hn hK (by simp) ho ?_ hfit'
    hfalls')
  · simp only [Matcher.execute, Matcher.push_unlimited hm]
    rfl
  · -- 本体が合えば、本体の他の合い方を捨てて続ける。
    intro o₁ ho₁ k hk caps₁ st₁ a₁ hfit₁ hover₁ _
    have hunder : ∃ st₂, st₁.voidToAtomic = (some (), st₂) ∧ Level.Over c (o₁.level st₂ K)
        (o.level st (K.or W)) ∧ ∀ n a, (o.level st (K.or W)).Falls m origin n a →
          (o₁.level st₂ K).Falls m origin n a :=
      voidTo_over m origin _ (fun g hg => by cases g <;> first | rfl | cases hg) (fun _ _ _ => rfl) rfl
        hover₁
    obtain ⟨st₂, hvoid, hover₂, hfalls₂⟩ := hunder
    refine .of_go hcode.tail.right.head (fun retries best => ?_)
      (hcont o₁ ho₁ k hk caps₁ st₂ res hfit₁ hover₂ (hfalls₂ k res (hfalls.mono hk)))
    simp only [Matcher.execute, hvoid, List.length_cons, List.length_append, List.length_nil]
    rw [show p + (body.length + (0 + 1) + 1) = p + 1 + body.length + 1 by omega]
    rfl

theorem ahead (hm : m.limits = .unlimited) (h : a.Follows m origin fuel reads none W R) :
    Emit.Follows m origin fuel reads none (CodeEnv.between .pushPos .popPos a) W
      fun F o res => R (fun o' _ => F (o'.moveTo o.pos) res) o res := by
  refine ⟨?_⟩
  intro c c' code hc hp p hcode n K F o caps st res hn hK hF ho hcont hfit hfalls
  obtain ⟨body, hb, rfl⟩ := between_eq_ok hc
  have hfit' : (o.level (.ahead o.pos :: st) (K.or W)).Fits caps := hfit
  have hfalls' : (o.level (.ahead o.pos :: st) (K.or W)).Falls m origin n res := fun caps hc =>
    .undo rfl rfl (hfalls caps hc)
  refine .of_go hcode.head (fun retries best => ?_) (h.ends hb hp hcode.tail.left hn hK (by simp) ho ?_ hfit'
    hfalls')
  · simp only [Matcher.execute, Matcher.push_unlimited hm]
    rfl
  · intro o₁ ho₁ k hk caps₁ st₁ a₁ hfit₁ hover₁ _
    have hunder : ∃ st₂, st₁.voidToPos = (some o.pos, st₂) ∧ Level.Over c (o₁.level st₂ K)
        (o.level st (K.or W)) ∧ ∀ n a, (o.level st (K.or W)).Falls m origin n a →
          (o₁.level st₂ K).Falls m origin n a :=
      voidTo_over m origin _ (fun g hg => by cases g <;> first | rfl | cases hg) (fun _ _ _ => rfl) rfl
        hover₁
    obtain ⟨st₂, hvoid, hover₂, hfalls₂⟩ := hunder
    refine .of_go hcode.tail.right.head (fun retries best => ?_)
      (hcont (o₁.moveTo o.pos) (ho₁.moveTo ho.pos) k hk caps₁ st₂ res hfit₁ hover₂
        (hfalls₂ k res (hfalls.mono hk)))
    simp only [Matcher.execute, hvoid, List.length_cons, List.length_append, List.length_nil]
    rw [show p + (body.length + (0 + 1) + 1) = p + 1 + body.length + 1 by omega]
    rfl

/-- 否定の括弧の本体が合えば、目印まで外して全体を失敗させる。 -/
theorem ends_failThrough (hm : m.limits = .unlimited) {i : Instruction} {mark : Frame → Bool}
    {p k : Nat} {b : Counters} {K : Garbage} {o o₁ : Outcome} {f : Frame} {caps₁ : Captures}
    {st st₁ : Stack} {res : Outlook} (hi : m.program.code[p]? = some i)
    (he : ∀ r, m.execute origin i r = Matcher.failThrough mark r)
    (hmark : ∀ g, g.Settled b → mark g = false) (hf : mark f = true)
    (hfit : (o₁.level st₁ K).Fits caps₁)
    (hover : (o₁.level st₁ K).Over b (o.level (f :: st) K))
    (hfalls : (o.level st K).Falls m origin k res) :
    m.Ends origin k p o₁.pos caps₁ st₁ res := by
  obtain ⟨caps', hc', hu⟩ := hover.unwinds caps₁ hfit
  have hpop : st₁.popThrough mark caps₁ = ⟨st, caps', .ok ()⟩ := hu.popThrough hmark hf
  have hfail : ∀ retries best, m.execute origin i
      { pc := p, pos := o₁.pos, caps := caps₁, stack := st₁, retries, best } =
        .ok (.fail { pc := p, pos := o₁.pos, caps := caps', stack := st, retries, best }) := by
    intro retries best
    simp only [he, Matcher.failThrough, hpop]
  exact .of_fail hm hi hfail (hfalls caps' hc')

/-- 否定の先読みは、本体の合い方がないときにだけ合う。 -/
theorem notAhead (hm : m.limits = .unlimited) (ha : a.Regular n)
    (h : a.Follows m origin fuel reads none .none R) :
    Emit.Follows m origin fuel reads none (CodeEnv.between (.pushPosNot ↑(n + 1)) .failPos a) .none
      fun F o res => R (fun _ _ => res) o (F o res) := by
  refine of_silent ?_
  intro c c' code hc hp p hcode t K F o caps st res ht hK hF ho hcont hfit hfalls
  obtain ⟨body, hb, rfl⟩ := between_eq_ok hc
  have hlen := ha.length_eq hb
  simp only [List.length_cons, List.length_append, List.length_nil] at hcont
  let mark : Frame := .posNot (p + (body.length + (0 + 1) + 1)) o.pos
  have hfit' : (o.level (mark :: st) K).Fits caps := hfit
  have hfalls' : (o.level (mark :: st) K).Falls m origin t (F o res) := fun caps hc =>
    .resume rfl (hcont.here ho hc hfalls)
  refine .of_go hcode.head (fun retries best => ?_) (h.silent hb hp hcode.tail.left ht hK (by simp) ho ?_
    hfit' hfalls')
  · have ht : Registers.target { pc := p, pos := o.pos, caps, stack := st, retries, best } ↑(n + 1) =
        .ok (p + (body.length + (0 + 1) + 1)) := Matcher.target_eq (by
      simp only
      omega)
    simp only [Matcher.execute, ht, Matcher.push_unlimited hm]
    rfl
  · intro o₁ _ k hk caps₁ st₁ a₁ hfit₁ hover₁ _
    exact ends_failThrough hm hcode.tail.right.head (fun _ => rfl)
      (fun g hg => by cases g <;> first | rfl | cases hg) rfl hfit₁ hover₁ (hfalls.mono hk)

/-! ## 後読み -/

/-- 後読みは、戻った所から本体を続ける。戻れなければ失敗する。 -/
theorem behind (hm : m.limits = .unlimited) (h : a.Follows m origin fuel reads none W R) (chars : Nat)
    (hle : ∀ s s', s ≤ m.text.size → m.encoding.stepBack m.text 0 s chars = some s' →
      s' ≤ m.text.size) :
    ((Emit.instr (.lookBehind chars)).append a).Follows m origin fuel reads none W fun F o res =>
      match m.encoding.stepBack m.text 0 o.pos chars with
      | some s => R F (o.moveTo s) res
      | none => res := by
  refine ⟨?_⟩
  intro c c' code hc hp p hcode n K F o caps st res hn hK hF ho hcont hfit hfalls
  obtain ⟨xs, d, body, hx, hb, rfl⟩ := append_eq_ok hc
  obtain ⟨rfl, rfl⟩ := instr_eq_ok hx
  cases hs : m.encoding.stepBack m.text 0 o.pos chars with
  | none =>
    have hfail : ∀ retries best, m.execute origin (.lookBehind chars)
        { pc := p, pos := o.pos, caps, stack := st, retries, best } =
          .ok (.fail { pc := p, pos := o.pos, caps, stack := st, retries, best }) := by
      intro retries best
      simp only [Matcher.execute, hs]
    exact .of_fail hm hcode.head hfail (hfalls caps hfit)
  | some s =>
    simp only [List.length_append, List.length_cons, List.length_nil] at hcont
    rw [show p + (0 + 1 + body.length) = p + 1 + body.length by omega] at hcont
    refine .of_go hcode.head (fun retries best => ?_)
      (h.ends (o := o.moveTo s) hb hp hcode.tail hn hK hF (ho.moveTo (hle _ _ ho.pos hs)) hcont hfit hfalls)
    simp only [Matcher.execute, hs]
    rfl

/-- 否定の後読みは、戻れないか、戻った所から本体の合い方がないときにだけ合う。 -/
theorem notBehind (hm : m.limits = .unlimited) (ha : a.Regular n)
    (h : a.Follows m origin fuel reads none .none R) (chars : Nat)
    (hle : ∀ s s', s ≤ m.text.size → m.encoding.stepBack m.text 0 s chars = some s' →
      s' ≤ m.text.size) :
    Emit.Follows m origin fuel reads none
      (CodeEnv.between (.pushLookBehindNot ↑(n + 1) chars) .failLookBehindNot a) .none fun F o res =>
      match m.encoding.stepBack m.text 0 o.pos chars with
      | some s => R (fun _ _ => res) (o.moveTo s) (F o res)
      | none => F o res := by
  refine of_silent ?_
  intro c c' code hc hp p hcode t K F o caps st res ht hK hF ho hcont hfit hfalls
  obtain ⟨body, hb, rfl⟩ := between_eq_ok hc
  have hlen := ha.length_eq hb
  simp only [List.length_cons, List.length_append, List.length_nil] at hcont
  have htarget : ∀ retries best, Registers.target
      { pc := p, pos := o.pos, caps, stack := st, retries, best } ↑(n + 1) =
        .ok (p + (body.length + (0 + 1) + 1)) := fun _ _ => Matcher.target_eq (by
    simp only
    omega)
  cases hs : m.encoding.stepBack m.text 0 o.pos chars with
  | none =>
    refine .of_go hcode.head (fun retries best => ?_) (hcont.here ho hfit hfalls)
    simp only [Matcher.execute, htarget, hs]
    rfl
  | some s =>
    let mark : Frame := .behindNot (p + (body.length + (0 + 1) + 1)) o.pos
    have hfit' : ((o.moveTo s).level (mark :: st) K).Fits caps := hfit
    have hfalls' : ((o.moveTo s).level (mark :: st) K).Falls m origin t (F o res) := fun caps hc =>
      .resume rfl (hcont.here ho hc hfalls)
    refine .of_go hcode.head (fun retries best => ?_) (h.silent (o := o.moveTo s) hb hp hcode.tail.left
      ht hK (by simp) (ho.moveTo (hle _ _ ho.pos hs)) ?_ hfit' hfalls')
    · simp only [Matcher.execute, htarget, hs, Matcher.push_unlimited hm]
      rfl
    · intro o₁ _ k hk caps₁ st₁ a₁ hfit₁ hover₁ _
      exact ends_failThrough (o := o) hm hcode.tail.right.head (fun _ => rfl)
        (fun g hg => by cases g <;> first | rfl | cases hg) rfl hfit₁ hover₁ (hfalls.mono hk)

end Emit.Follows
end MultibyteRegex

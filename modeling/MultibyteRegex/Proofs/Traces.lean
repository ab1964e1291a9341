import Mathlib.Data.List.Basic
import MultibyteRegex.Proofs.Simulation

/-!
# 合い方の列

`fuel` を決めれば、節の合い方は、続きによらない一つの列になる。列は、尽きて失敗に戻るか、`fuel` が尽きて途中で
切れる。成功の命令に着いた見通しは、一度失敗した合い方を後でまた試しても変わらないので、列の中の重なりは答えを
変えない。
-/

namespace MultibyteRegex

/-- 合い方の列。`done` でなければ、`fuel` が尽きて途中で切れている。 -/
structure Trace where
  outcomes : List Outcome
  done : Bool

namespace Trace

variable {α : Type} {bot : α}

/-- 列を順に続きへ渡す。 -/
def run (bot : α) (t : Trace) (F : Cont α) (res : α) : α :=
  t.outcomes.foldr F (if t.done then res else bot)

/-- 尽きた列の後に、次の列を続ける。 -/
def append (t u : Trace) : Trace := if t.done then ⟨t.outcomes ++ u.outcomes, u.done⟩ else t

theorem run_append (t u : Trace) (F : Cont α) (res : α) :
    (t.append u).run bot F res = t.run bot F (u.run bot F res) := by
  obtain ⟨os, done⟩ := t
  cases done with
  | false => rfl
  | true => simp [append, run]

theorem mem_append {t u : Trace} {o : Outcome} (h : o ∈ (t.append u).outcomes) :
    o ∈ t.outcomes ∨ o ∈ u.outcomes := by
  unfold append at h
  split at h
  · exact List.mem_append.1 h
  · exact .inl h

end Trace

/-- `T` は、続きによらない一つの列を続きへ渡す。`kept` なら、どの合い方も捕獲が `caps` のままである。 -/
def TracedAt {α : Type} (bot : α) (kept : Prop) (caps : Captures) (T : Cont α → α → α) : Prop :=
  ∃ t : Trace, (∀ F res, T F res = t.run bot F res) ∧ ∀ o ∈ t.outcomes, kept → o.caps = caps

/-- どの合い方から始めても、続きによらない列になる。 -/
def Traced {α : Type} (bot : α) (kept : Prop) (R : Cont α → Cont α) : Prop :=
  ∀ o, TracedAt bot kept o.caps fun F res => R F o res

namespace TracedAt

variable {α : Type} {bot : α} {kept kept' : Prop} {caps : Captures} {T U : Cont α → α → α}
  {S : Cont α → Cont α}

theorem mono (h : TracedAt bot kept caps T) (hk : kept' → kept) : TracedAt bot kept' caps T := by
  obtain ⟨t, ht, hcaps⟩ := h
  exact ⟨t, ht, fun o ho hk' => hcaps o ho (hk hk')⟩

/-- 捕獲が変わってよいなら、どの捕獲と比べてもよい。 -/
theorem free (h : TracedAt bot kept caps T) (hk : ¬kept') (caps' : Captures) : TracedAt bot kept' caps' T := by
  obtain ⟨t, ht, -⟩ := h
  exact ⟨t, ht, fun o _ hk' => absurd hk' hk⟩

theorem point {o : Outcome} (h : kept → o.caps = caps) : TracedAt bot kept caps fun F res => F o res :=
  ⟨⟨[o], true⟩, fun _ _ => rfl, fun _ ho hk => List.mem_singleton.1 ho ▸ h hk⟩

theorem fail : TracedAt bot kept caps fun _ res => res :=
  ⟨⟨[], true⟩, fun _ _ => rfl, List.forall_mem_nil _⟩

theorem cut : TracedAt bot kept caps fun _ _ => bot :=
  ⟨⟨[], false⟩, fun _ _ => rfl, List.forall_mem_nil _⟩

theorem orElse (hT : TracedAt bot kept caps T) (hU : TracedAt bot kept caps U) :
    TracedAt bot kept caps fun F res => T F (U F res) := by
  obtain ⟨t, ht, hcaps⟩ := hT
  obtain ⟨u, hu, hcaps'⟩ := hU
  refine ⟨t.append u, fun F res => ?_, fun o ho => ?_⟩
  · rw [Trace.run_append, ← hu, ← ht]
  · exact (Trace.mem_append ho).elim (hcaps o) (hcaps' o)

/-- 一つ目の合い方ごとに、二つ目の列を続ける。 -/
theorem bind (hT : TracedAt bot kept caps T)
    (hS : ∀ o, (kept → o.caps = caps) → TracedAt bot kept caps fun F res => S F o res) :
    TracedAt bot kept caps fun F res => T (S F) res := by
  obtain ⟨⟨os, done⟩, ht, hcaps⟩ := hT
  simp only [ht, Trace.run]
  clear ht
  induction os with
  | nil =>
    cases done with
    | true => exact fail
    | false => exact cut
  | cons o os ih =>
    obtain ⟨ho, hos⟩ := List.forall_mem_cons.1 hcaps
    exact (hS o ho).orElse (ih hos)

/-- 最初の合い方だけを使う。 -/
theorem first (hT : TracedAt bot kept caps T) (move : Outcome → Outcome) (hmove : ∀ o, (move o).caps = o.caps) :
    TracedAt bot kept caps fun F res => T (fun o _ => F (move o) res) res := by
  obtain ⟨⟨os, done⟩, ht, hcaps⟩ := hT
  simp only [ht, Trace.run]
  cases os with
  | nil =>
    cases done with
    | true => exact fail
    | false => exact cut
  | cons o os => exact point fun hk => (hmove o).trans (hcaps o List.mem_cons_self hk)

/-- 合い方がなければ `U` に移り、あれば失敗する。 -/
theorem reject (hT : TracedAt bot kept' caps T) (hU : TracedAt bot kept caps U) :
    TracedAt bot kept caps fun F res => T (fun _ _ => res) (U F res) := by
  obtain ⟨⟨os, done⟩, ht, -⟩ := hT
  simp only [ht, Trace.run]
  cases os with
  | nil =>
    cases done with
    | true => exact hU
    | false => exact cut
  | cons o os => exact fail

end TracedAt

namespace Traced

variable {α : Type} {bot : α} {kept kept' : Prop} {R S : Cont α → Cont α}

theorem mono (h : Traced bot kept R) (hk : kept' → kept) : Traced bot kept' R := fun o => (h o).mono hk

theorem at_caps (h : Traced bot kept R) {o : Outcome} {caps : Captures} (ho : kept → o.caps = caps) :
    TracedAt bot kept caps fun F res => R F o res := by
  obtain ⟨t, ht, hcaps⟩ := h o
  exact ⟨t, ht, fun o' ho' hk => (hcaps o' ho' hk).trans (ho hk)⟩

theorem stay : Traced bot kept fun F => F := fun _ => .point fun _ => rfl

theorem comp (hR : Traced bot kept R) (hS : Traced bot kept S) : Traced bot kept fun F => R (S F) :=
  fun o => (hR o).bind fun _ ho' => hS.at_caps ho'

theorem times (hR : Traced bot kept R) (n : Nat) : Traced bot kept (Nat.repeat R n) := by
  induction n with
  | zero => exact stay
  | succ n ih => exact hR.comp ih

/-- 輪の合い方も、続きによらない列になる。 -/
theorem explore (hR : Traced bot kept R) (l : Loop) (fuel k : Nat) :
    Traced bot kept fun F => l.explore bot R F fuel k := by
  induction fuel generalizing k with
  | zero => exact fun _ => .cut
  | succ fuel ih =>
    have hagain : Traced bot kept fun F o res => R (fun o' res' =>
        if l.emptyBody.isStuck o o' then F o' res' else l.explore bot R F fuel (k + 1) o' res') o res := by
      intro o
      refine (hR o).bind (S := fun F o' res' =>
        if l.emptyBody.isStuck o o' then F o' res' else l.explore bot R F fuel (k + 1) o' res') fun o' ho' => ?_
      by_cases hstuck : l.emptyBody.isStuck o o'
      · simp only [hstuck, if_true]
        exact .point ho'
      · simp only [hstuck, if_false, Bool.false_eq_true]
        exact (ih (k + 1)).at_caps ho'
    intro o
    simp only [Loop.explore]
    by_cases hupper : !l.upper.all (k < ·)
    · simp only [hupper, if_true]
      exact stay o
    by_cases hlower : k < l.lower
    · simp only [hupper, hlower, if_true]
      exact hagain o
    by_cases hgreedy : l.greedy
    · simp only [hupper, hlower, hgreedy, if_true]
      exact (hagain o).orElse (stay o)
    · simp only [hupper, hlower, hgreedy, if_false]
      exact (stay o).orElse (hagain o)

end Traced

namespace CodeEnv

variable {α : Type} {bot : α} {env : CodeEnv} {x : Setting} {fuel : Nat}

theorem traced_leaf {kept : Prop} (n : Node) (options : Options) :
    Traced bot kept fun F o res => match n.leafEnd? x options o with
      | some s => F (o.moveTo s) res
      | none => res := by
  intro o
  dsimp only
  cases n.leafEnd? x options o with
  | some s => exact .point fun _ => rfl
  | none => exact .fail

mutual
/-- 節の合い方は、続きによらない一つの列になる。捕獲のない節は、捕獲を変えない。 -/
theorem traced_explore : (n : Node) → {options : Options} →
    Traced bot (n.hasCapture = false) (n.explore env x bot fuel options)
  | .empty, _ => .stay
  | .list ns, _ => traced_exploreList ns
  | .alt ns, _ => traced_exploreAlt ns
  | .loop l body, options => by
    have hbody : Traced bot (body.hasCapture = false) (body.explore env x bot fuel options) := traced_explore body
    exact (hbody.times _).comp (hbody.explore _ fuel 0)
  | .scoped _ body, _ => traced_explore body
  | .group (.capture n undo) body, _ => by
    have hwrites : ¬(Node.group (.capture n undo) body).hasCapture = false := by simp [Node.hasCapture]
    exact fun o => ((traced_explore body (o.opened n)).free hwrites o.caps).bind
      (S := fun F o' => F (o'.closed n)) fun o' _ => .point fun hk => absurd hk hwrites
  | .group .atomic body, _ => fun o => (traced_explore body o).first id fun _ => rfl
  | .group .ahead body, _ => fun o => (traced_explore body o).first (·.moveTo o.pos) fun _ => rfl
  | .group .notAhead body, _ => fun o => (traced_explore body o).reject (Traced.stay o)
  | .group .behind body, _ => by
    intro o
    simp only [Node.explore]
    cases env.behind? x body o.pos with
    | some s => exact traced_explore body (o.moveTo s)
    | none => exact .fail
  | .group .notBehind body, _ => by
    intro o
    simp only [Node.explore]
    cases env.behind? x body o.pos with
    | some s => exact (traced_explore body (o.moveTo s)).reject (Traced.stay o)
    | none => exact Traced.stay o
  | .str bytes, options => traced_leaf (.str bytes) options
  | .raw bytes, options => traced_leaf (.raw bytes) options
  | .cclass c, options => traced_leaf (.cclass c) options
  | .word isWord, options => traced_leaf (.word isWord) options
  | .any, options => traced_leaf .any options
  | .anchor e, options => traced_leaf (.anchor e) options
  | .backref n, options => traced_leaf (.backref n) options

theorem traced_exploreList : (ns : List Node) → {options : Options} →
    Traced bot (Node.anyCapture ns = false) (Node.exploreList env x bot fuel options ns)
  | [], _ => .stay
  | n :: ns, _ => ((traced_explore n).mono fun h => (Bool.or_eq_false_iff.1 h).1).comp
      ((traced_exploreList ns).mono fun h => (Bool.or_eq_false_iff.1 h).2)

theorem traced_exploreAlt : (ns : List Node) → {options : Options} →
    Traced bot (Node.anyCapture ns = false) (Node.exploreAlt env x bot fuel options ns)
  | [], _ => .stay
  | [n], _ => (traced_explore n).mono fun h => (Bool.or_eq_false_iff.1 h).1
  | n :: n' :: ns, _ => fun o => ((traced_explore n o).mono fun h => (Bool.or_eq_false_iff.1 h).1).orElse
      ((traced_exploreAlt (n' :: ns) o).mono fun h => (Bool.or_eq_false_iff.1 h).2)
end

end CodeEnv

/-! ## 二度目の失敗 -/

/-- これまでの最長の順位。 -/
def Answer.rank (a : Answer) : Nat := a.elim 0 (·.1 + 1)

namespace Outlook

/-- `best` から始めると失敗に戻って、これまでの最長が `best'` になり、その後は何度試しても何も変えない。 -/
structure Passes (T : Outlook → Outlook) (best best' : Answer) : Prop where
  le : Answer.rank best ≤ Answer.rank best'
  eq : ∀ res, T res best = res best'
  again : ∀ later, Answer.rank best' ≤ Answer.rank later → ∀ res, T res later = res later

/-- 失敗したときの見通しによらずに答えるか、失敗した後は何度試しても何も変えない。 -/
def Once (T : Outlook → Outlook) : Prop :=
  ∀ best, (∃ a, ∀ res, T res best = a) ∨ ∃ best', Passes T best best'

namespace Once

variable {T U : Outlook → Outlook}

theorem id : Once fun res => res := fun best => .inr ⟨best, Nat.le_refl _, fun _ => rfl, fun _ _ _ => rfl⟩

theorem const (a : Outlook) : Once fun _ => a := fun best => .inl ⟨a best, fun _ => rfl⟩

theorem comp (hT : Once T) (hU : Once U) : Once fun res => T (U res) := by
  intro best
  rcases hT best with ⟨a, ha⟩ | ⟨best₁, h₁⟩
  · exact .inl ⟨a, fun res => ha _⟩
  rcases hU best₁ with ⟨a, ha⟩ | ⟨best₂, h₂⟩
  · exact .inl ⟨a, fun res => (h₁.eq _).trans (ha res)⟩
  refine .inr ⟨best₂, Nat.le_trans h₁.le h₂.le, fun res => (h₁.eq _).trans (h₂.eq res), fun later hle res => ?_⟩
  exact (h₁.again later (Nat.le_trans h₂.le hle) _).trans (h₂.again later hle res)

/-- 失敗した後にまた試しても、答えは変わらない。 -/
theorem absorb (hT : Once T) (hU : Once U) (res : Outlook) : T (U (T res)) = T (U res) := by
  funext best
  rcases hT best with ⟨a, ha⟩ | ⟨best₁, h₁⟩
  · rw [ha, ha]
  rw [h₁.eq, h₁.eq]
  rcases hU best₁ with ⟨a, ha⟩ | ⟨best₂, h₂⟩
  · rw [ha, ha]
  · rw [h₂.eq, h₂.eq]
    exact h₁.again best₂ h₂.le res

theorem twice (hT : Once T) (res : Outlook) : T (T res) = T res := hT.absorb id res

/-- 列 `T`、`P`、`U` の `P` の前か後か間に、列の全体をもう一度試す。`V` は `U` の中で試し直している。 -/
theorem retried {P V W : Outlook → Outlook} (hT : Once T) (hP : Once P) (hU : Once U) (hV : Once V)
    (hW : ∀ res, W res = T (P (U res))) (h : ∀ res, T (P (V res)) = T (P (U res))) (res : Outlook) :
    T (W (P (V res))) = T (P (U res)) ∧ T (P (W (V res))) = T (P (U res)) ∧
      T (P (W (P (V res)))) = T (P (U res)) := by
  have hrest : T (P (U (V res))) = T (P (U res)) := by
    rw [← h (V res), hV.twice, h]
  refine ⟨?_, ?_, ?_⟩
  · calc T (W (P (V res))) = T (P (U (P (V res)))) := by rw [hW, hT.twice]
      _ = T (P (U (V res))) := by rw [hP.absorb hU]
      _ = T (P (U res)) := hrest
  · calc T (P (W (V res))) = T (P (U (V res))) := by rw [hW, (hT.comp hP).twice]
      _ = T (P (U res)) := hrest
  · calc T (P (W (P (V res)))) = T (P (U (P (V res)))) := by rw [hW, (hT.comp hP).twice]
      _ = T (P (U (V res))) := by rw [hP.absorb hU]
      _ = T (P (U res)) := hrest

end Once
end Outlook

/-- どの合い方から続けても、失敗した後にまた試す意味がない。 -/
def Cont.Once (F : Cont Outlook) : Prop := ∀ o, Outlook.Once (F o)

section

variable {bot : Outlook} {kept : Prop} {R : Cont Outlook → Cont Outlook} {F K M : Cont Outlook}

theorem Cont.Once.foldr (hF : F.Once) (os : List Outcome) : Outlook.Once fun res => os.foldr F res := by
  induction os with
  | nil => exact .id
  | cons o os ih => exact (hF o).comp ih

theorem Cont.Once.run (hF : F.Once) (t : Trace) : Outlook.Once (t.run bot F) := by
  obtain ⟨os, done⟩ := t
  cases done with
  | true => exact hF.foldr os
  | false => exact (hF.foldr os).comp (.const bot)

theorem Traced.once (hR : Traced bot kept R) (hF : F.Once) : (R F).Once := by
  intro o
  obtain ⟨t, ht, -⟩ := hR o
  have hrun : R F o = t.run bot F := funext (ht F)
  rw [hrun]
  exact hF.run t

/-- 続きは、届く合い方についてだけ合っていればよい。 -/
theorem Traced.congr (hR : Traced bot kept R) {o : Outcome} {G : Cont Outlook}
    (h : ∀ o', (kept → o'.caps = o.caps) → F o' = G o') : R F o = R G o := by
  obtain ⟨t, ht, hcaps⟩ := hR o
  funext res
  change (fun F res => R F o res) F res = (fun F res => R F o res) G res
  rw [ht, ht, Trace.run, Trace.run]
  exact List.foldr_ext _ _ _ fun o' ho' res => congrFun (h o' (hcaps o' ho')) res

/-- 列の中の合い方 `o` で、列の全体を先か後か間にもう一度試しても、答えは変わらない。 -/
theorem Traced.retry (hR : Traced bot kept R) (hK : K.Once) {start o : Outcome} (hne : ∀ o' ≠ o, M o' = K o')
    (hM : (∀ res, M o res = R K start (K o res)) ∨ (∀ res, M o res = K o (R K start res)) ∨
      ∀ res, M o res = K o (R K start (K o res))) :
    R M start = R K start := by
  obtain ⟨⟨os, done⟩, ht, -⟩ := hR start
  funext res
  simp only [ht, Trace.run] at hM ⊢
  let last (res : Outlook) : Outlook := if done then res else bot
  have hlast : Outlook.Once last := by
    cases done with
    | true => exact .id
    | false => exact .const bot
  have hMonce : M.Once := by
    intro o'
    by_cases ho' : o' = o
    · subst ho'
      have hW := (hK.foldr os).comp hlast
      rcases hM with hM | hM | hM <;> rw [show M o' = _ from funext hM]
      · exact hW.comp (hK o')
      · exact (hK o').comp hW
      · exact (hK o').comp (hW.comp (hK o'))
    · rw [hne o' ho']
      exact hK o'
  -- 先に試した `tried` を前に残して、列の残りについての帰納法による
  have hrest : ∀ (tried rest : List Outcome), os = tried ++ rest → ∀ res,
      tried.foldr K (rest.foldr M (last res)) = tried.foldr K (rest.foldr K (last res)) := by
    intro tried rest
    induction rest generalizing tried with
    | nil => exact fun _ _ => rfl
    | cons o' rest ih =>
      intro hos res
      have ih := ih (tried ++ [o']) (by simp [hos])
      simp only [List.foldr_append, List.foldr_cons, List.foldr_nil] at ih ⊢
      by_cases ho' : o' = o
      · subst ho'
        have hretried := (hK.foldr tried).retried (hK o') ((hK.foldr rest).comp hlast)
          ((hMonce.foldr rest).comp hlast) (W := fun res => os.foldr K (last res)) (fun res => by simp [hos]) ih res
        rcases hM with hM | hM | hM <;> rw [hM]
        · exact hretried.1
        · exact hretried.2.1
        · exact hretried.2.2
      · rw [hne o' ho']
        exact ih res
  exact hrest [] os rfl res

end
end MultibyteRegex

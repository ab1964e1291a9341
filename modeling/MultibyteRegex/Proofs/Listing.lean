import MultibyteRegex.Proofs.Rewriting
import MultibyteRegex.Proofs.Simulation

/-!
# 続きに渡す合い方の列

後読みがなく、二回以上続けられる本体が必ず進む節では、合い方を続きに渡していく意味は、優先順に並べた合い方の
うち、続きが最初に受けたものを答えにする。
-/

namespace MultibyteRegex

variable {α : Type} {size n k : Nat} {f g : Outcome → List Outcome} {R S : Cont α → Cont α}

/-- 進まずに必ず合い、他の合い方はない。 -/
def Stays (f : Outcome → List Outcome) : Prop := ∀ o, f o ≠ [] ∧ ∀ o' ∈ f o, o' = o

namespace Stays

theorem mem (h : Stays f) (o : Outcome) : o ∈ f o := by
  obtain ⟨o', ho'⟩ := List.exists_mem_of_ne_nil _ (h o).1
  exact (h o).2 o' ho' ▸ ho'

theorem findSome?_eq (h : Stays f) (o : Outcome) (G : Outcome → Option α) :
    (f o).findSome? G = G o := by
  obtain ⟨hne, heq⟩ := h o
  generalize f o = os at hne heq
  induction os with
  | nil => exact absurd rfl hne
  | cons o' os ih =>
    obtain ⟨rfl, heq⟩ := List.forall_mem_cons.1 heq
    rw [List.findSome?_cons]
    cases hG : G o' with
    | some a => rfl
    | none =>
      cases os with
      | nil => rfl
      | cons o'' os => rw [ih (List.cons_ne_nil _ _) heq, hG]

theorem single : Stays fun o => [o] := fun o => ⟨by simp, by simp⟩

theorem flatMap (hf : Stays f) (hg : Stays g) : Stays fun o => (f o).flatMap g := by
  intro o
  refine ⟨List.ne_nil_of_mem (List.mem_flatMap.2 ⟨o, hf.mem o, hg.mem o⟩), fun o' ho' => ?_⟩
  obtain ⟨o₁, ho₁, ho'⟩ := List.mem_flatMap.1 ho'
  rw [(hg o₁).2 o' ho', (hf o).2 o₁ ho₁]

/-- 進まずに必ず合う本体は、何回続けても元のままである。 -/
theorem loop (hf : Stays f) (l : Loop) : Stays (l.outcomes size f) := by
  have htimes : ∀ k, Stays (times f k) := by
    intro k
    induction k with
    | zero => exact single
    | succ k ih => exact hf.flatMap ih
  have hupTo : ∀ k, Stays (upTo l.greedy f k) := by
    intro k
    induction k with
    | zero => exact single
    | succ k ih =>
      intro o
      have hmem : ∀ o', o' ∈ upTo l.greedy f (k + 1) o ↔
          o' ∈ (f o).flatMap (upTo l.greedy f k) ∨ o' = o := by
        intro o'
        rw [upTo, Outcome.orStop]
        cases l.greedy
        · simp only [Bool.false_eq_true, if_false, List.mem_cons, or_comm]
        · simp only [if_true, List.mem_append, List.mem_singleton]
      exact ⟨List.ne_nil_of_mem ((hmem o).2 (.inr rfl)), fun o' ho' =>
        ((hmem o').1 ho').elim ((hf.flatMap ih o).2 o') id⟩
  exact (htimes l.lower).flatMap (hupTo _)

end Stays

/-- 続きが受けるか断るかだけなら、`R` は `f` の並べる合い方のうち、最初に受けられたものを答えにする。 -/
def Enumerates (size : Nat) (f : Outcome → List Outcome) (R : Cont α → Cont α) : Prop :=
  ∀ o, o.pos ≤ size → ∀ (F : Cont α) (G : Outcome → Option α) (res : α),
    (∀ o' ∈ f o, ∀ res, F o' res = (G o').getD res) → R F o res = ((f o).findSome? G).getD res

namespace Enumerates

theorem stay : Enumerates size (fun o => [o]) fun F : Cont α => F := by
  intro o _ F G res hF
  rw [List.findSome?_singleton]
  exact hF o List.mem_cons_self res

/-- 合う位置が高々一つの葉。 -/
theorem leaf {end? : Outcome → Option Nat} :
    Enumerates size (fun o => (end? o).toList.map o.moveTo) fun (F : Cont α) o res =>
      match end? o with
      | some s => F (o.moveTo s) res
      | none => res := by
  intro o _ F G res hF
  dsimp only at hF ⊢
  cases hs : end? o with
  | none => rfl
  | some s =>
    dsimp only
    rw [hF (o.moveTo s) (by simp [hs]) res]
    simp

theorem comp (hf : Enumerates size f R) (hadv : Advancing size n f) (hg : Enumerates size g S) :
    Enumerates size (fun o => (f o).flatMap g) fun F => R (S F) := by
  intro o ho F G res hF
  rw [findSome?_flatMap]
  exact hf o ho _ _ res fun o' ho' res => hg o' (hadv o ho o' ho').within F G res fun o'' ho'' =>
    hF o'' (List.mem_flatMap.2 ⟨o', ho', ho''⟩)

theorem times (hf : Enumerates size f R) (hadv : Advancing size n f) (k : Nat) :
    Enumerates size (times f k) (Nat.repeat R k) := by
  induction k with
  | zero => exact stay
  | succ k ih => exact hf.comp hadv ih

theorem either (hf : Enumerates size f R) (hg : Enumerates size g S) :
    Enumerates size (fun o => f o ++ g o) fun F o res => R F o (S F o res) := by
  intro o ho F G res hF
  dsimp only at hF ⊢
  rw [List.findSome?_append, Option.getD_or,
    hf o ho F G _ fun o' ho' => hF o' (List.mem_append_left _ ho'),
    hg o ho F G res fun o' ho' => hF o' (List.mem_append_right _ ho')]

theorem capture (hf : Enumerates size f R) (k : Nat) :
    Enumerates size (fun o => (f (o.opened k)).map (·.closed k)) fun F o res =>
      R (fun o' => F (o'.closed k)) (o.opened k) res := by
  intro o ho F G res hF
  rw [List.findSome?_map]
  exact hf (o.opened k) ho _ _ res fun o' ho' => hF (o'.closed k) (List.mem_map_of_mem ho')

/-- 最初の合い方だけを使うなら、続きは失敗の答えを外から受け取る。 -/
theorem first (hf : Enumerates size f R) (move : Outcome → Outcome → Outcome) :
    Enumerates size (fun o => ((f o).take 1).map (move o)) fun F o res =>
      R (fun o' _ => F (move o o') res) o res := by
  intro o ho F G res hF
  dsimp only at hF ⊢
  rw [hf o ho (fun o' _ => F (move o o') res) (fun o' => some (F (move o o') res)) res fun _ _ _ => rfl]
  cases hos : f o with
  | nil => rfl
  | cons o' os =>
    rw [List.findSome?_cons, Option.getD_some, hF (move o o') (by simp [hos]) res]
    simp

theorem notAhead (hf : Enumerates size f R) :
    Enumerates size (fun o => if (f o).isEmpty then [o] else []) fun F o res =>
      R (fun _ _ => res) o (F o res) := by
  intro o ho F G res hF
  dsimp only at hF ⊢
  rw [hf o ho (fun _ _ => res) (fun _ => some res) (F o res) fun _ _ _ => rfl]
  cases hos : f o with
  | nil =>
    rw [hos] at hF
    simp [hF]
  | cons o' os => simp

/-- 輪は、残りの回数だけ続ける。`fuel` は、進むごとに減る残りの長さか、残りの回数を越えていればよい。 -/
theorem explore (hf : Enumerates size f R) (hadv : Advancing size n f) {l : Loop} (bot : α)
    (hempty : l.emptyBody = .never) (hl : l.Ordered) {fuel k : Nat} (hk : ∀ u ∈ l.upper, k ≤ u)
    {o : Outcome} (ho : o.pos ≤ size)
    (hfuel : (0 < n ∧ size - o.pos < fuel) ∨ ∃ u ∈ l.upper, u < k + fuel) {F : Cont α}
    {G : Outcome → Option α} {res : α}
    (hF : ∀ o' ∈ l.remaining size f k o, ∀ res, F o' res = (G o').getD res)
    (hpos : (∀ u ∈ l.upper, 1 < u) → 0 < n) :
    l.explore bot R F fuel k o res = ((l.remaining size f k o).findSome? G).getD res := by
  induction fuel generalizing k o res with
  | zero =>
    rcases hfuel with ⟨-, h⟩ | ⟨u, hu, h⟩
    · omega
    · have := hk u hu
      omega
  | succ fuel ih =>
    -- 一回続けた後は、残りの長さか残りの回数が減っている。
    have hagain : ∀ res, (∀ u ∈ l.upper, k < u) →
        (∀ o' ∈ (f o).flatMap (l.remaining size f (k + 1)), ∀ res, F o' res = (G o').getD res) →
        R (fun o' res' => if l.emptyBody.isStuck o o' then F o' res' else
          l.explore bot R F fuel (k + 1) o' res') o res =
            (((f o).flatMap (l.remaining size f (k + 1))).findSome? G).getD res := by
      intro res hlt hF
      rw [findSome?_flatMap]
      refine hf o ho _ _ res fun o' ho' res => ?_
      have ha := hadv o ho o' ho'
      rw [hempty, EmptyBody.isStuck, if_neg Bool.false_ne_true]
      refine ih (fun u hu => hlt u hu) ha.within ?_ fun o'' ho'' =>
        hF o'' (List.mem_flatMap.2 ⟨o', ho', ho''⟩)
      rcases hfuel with ⟨hn, h⟩ | ⟨u, hu, h⟩
      · have := ha.lt hn
        have := ha.within
        exact .inl ⟨hn, by omega⟩
      · exact .inr ⟨u, hu, by omega⟩
    by_cases hupper : ∀ u ∈ l.upper, k < u
    · have hall : l.upper.all (k < ·) = true := by simpa [Option.all_eq_true] using hupper
      simp only [Loop.explore, hall, Bool.not_true, Bool.false_eq_true, if_false]
      by_cases hlower : k < l.lower
      · rw [if_pos hlower]
        rw [Loop.remaining_of_lt hlower] at hF ⊢
        exact hagain res hupper hF
      · rw [if_neg hlower]
        have hstep : l.remaining size f k o =
            Outcome.orStop l.greedy ((f o).flatMap (l.remaining size f (k + 1))) o :=
          Loop.remaining_of_le (Nat.not_lt.1 hlower) hupper
            (fun hu => hadv.mono fun _ => hpos (by simp [hu])) ho
        rw [hstep] at hF ⊢
        cases hg : l.greedy with
        | true =>
          simp only [hg, Outcome.orStop, if_true, List.mem_append, List.mem_singleton] at hF ⊢
          rw [hagain _ hupper fun o' ho' => hF o' (.inl ho'), hF o (.inr rfl), List.findSome?_append,
            List.findSome?_singleton, Option.getD_or]
        | false =>
          simp only [hg, Outcome.orStop, Bool.false_eq_true, if_false, List.mem_cons] at hF ⊢
          rw [hF o (.inl rfl), hagain _ hupper fun o' ho' => hF o' (.inr ho'), List.findSome?_cons]
          cases G o <;> rfl
    · obtain ⟨u, hu, hku⟩ : ∃ u ∈ l.upper, ¬k < u := by simpa using hupper
      obtain rfl : k = u := Nat.le_antisymm (hk u hu) (Nat.not_lt.1 hku)
      have hstop : l.remaining size f k o = [o] := Loop.remaining_of_upper (hl k hu) hu
      rw [hstop] at hF ⊢
      rw [List.findSome?_singleton, ← hF o List.mem_cons_self res]
      simp [Loop.explore, Option.mem_def.1 hu]

/-- どの開き方でも、繰り返しは許された回数だけ、優先順に本体を続ける。 -/
theorem loop (hf : Enumerates size f R) (hadv : Advancing size n f) (bot : α) {l : Loop} {body : Node}
    {shape : LoopShape} {t fuel : Nat} (hfits : shape.Fits l body t) (hl : l.Ordered)
    (hempty : l.emptyBody = .never) (hpos : (∀ u ∈ l.upper, 1 < u) → 0 < n) (hfuel : size + 2 ≤ fuel)
    (hzero : t = 0 → Stays f) :
    Enumerates size (l.outcomes size f) (shape.explore l bot fuel R) := by
  have hends : ∀ {l' : Loop}, l'.emptyBody = .never → l'.Ordered →
      ((∀ u ∈ l'.upper, 1 < u) → 0 < n) →
      Enumerates size (l'.outcomes size f) fun F => l'.explore bot R F fuel 0 := by
    intro l' hempty hl hpos o ho F G res hF
    rw [← Loop.remaining_zero] at hF ⊢
    refine hf.explore hadv bot hempty hl (fun u _ => Nat.zero_le u) ho ?_ hF hpos
    by_cases h : 0 < n
    · exact .inl ⟨h, by omega⟩
    · cases hu : l'.upper with
      | none => exact absurd (hpos (by simp [hu])) h
      | some u =>
        refine .inr ⟨u, rfl, ?_⟩
        have : ¬1 < u := fun hlt => h (hpos fun u' hu' => by
          rw [hu] at hu'
          cases hu'
          exact hlt)
        omega
  have hcopies : ∀ {l' : Loop}, l'.lower = 0 → l'.emptyBody = .never → l'.greedy = l.greedy →
      l'.upper = l.upper.map (· - l.lower) →
      Enumerates size (l.outcomes size f) fun F =>
        Nat.repeat R l.lower (l'.explore bot R F fuel 0) := by
    intro l' h0 hempty hg hu
    have hout : l.outcomes size f = fun o => (MultibyteRegex.times f l.lower o).flatMap
        (l'.outcomes size f) := by
      funext o
      unfold Loop.outcomes
      refine flatMap_congr fun o' _ => ?_
      cases hup : l.upper <;> simp [hup, hu, h0, hg, MultibyteRegex.times]
    rw [hout]
    refine (hf.times hadv l.lower).comp (hadv.times l.lower) (hends hempty ?_ ?_)
    · intro u _
      omega
    · intro h
      refine hpos fun u hmem => ?_
      have := h (u - l.lower) (by simp [hu, Option.mem_def.1 hmem])
      omega
  cases shape with
  | nothing =>
    have hstays : Stays (l.outcomes size f) := by
      rcases hfits with ht | hu
      · exact (hzero ht).loop l
      · have h0 := Nat.le_zero.1 (hl 0 hu)
        intro o
        simp [Loop.outcomes, h0, hu, MultibyteRegex.times, upTo]
    intro o ho F G res hF
    obtain ⟨fuel, rfl⟩ := Nat.exists_eq_add_of_le' hfuel
    rw [hstays.findSome?_eq, ← hF o (hstays.mem o) res]
    simp [LoopShape.explore, LoopShape.plan, Nat.repeat, Loop.explore]
  | anyStar =>
    obtain ⟨-, -, hu⟩ := hfits
    exact hcopies rfl rfl rfl (by simp [LoopShape.plan, hu])
  | ring copies jumpIn =>
    obtain ⟨-, hu, hc⟩ := hfits
    cases jumpIn with
    | true => exact hends hempty hl hpos
    | false =>
      obtain rfl : copies = l.lower := hc
      exact hcopies rfl hempty rfl (by simp [LoopShape.plan, hu])
  | unrolled required extra =>
    obtain ⟨-, -, u, hu, -, rfl, rfl⟩ := hfits
    exact hcopies rfl rfl rfl (by simp [LoopShape.plan, hu])
  | lazyOptional =>
    exact @hends { l with emptyBody := .never } rfl hl hpos
  | counted => exact hends hempty hl hpos

end Enumerates

namespace CodeEnv

variable {env : CodeEnv} {x : Setting} {B : List Nat} {groups fuel : Nat} {bot : α}

mutual
/-- 命令のない節は、進まずに必ず合う。 -/
theorem stays_of_size_eq_zero : (n : Node) → {options : Options} → n.WellFormed groups →
    env.size options n = .ok 0 → Stays (n.outcomes x options)
  | .empty, _, _, _ => .single
  | .list nodes, _, hw, h => stays_of_sizeList_eq_zero nodes hw h
  | .alt nodes, _, hw, h => stays_of_sizeAlt_eq_zero nodes hw h
  | .str bytes, _, _, h => by
    obtain ⟨fold, hf, h⟩ := Except.bind_eq_ok h
    obtain rfl := eq_nil_of_code (Except.ok.inj h)
    intro o
    simp [Node.outcomes, Node.leafEnd?, Encoding.chars, Setting.charsEnd?, Outcome.moveTo]
  | .raw bytes, _, _, h => by
    obtain rfl := eq_nil_of_code (Except.ok.inj h)
    intro o
    simp [Node.outcomes, Node.leafEnd?, Setting.charsEnd?, Outcome.moveTo]
  | .cclass _, _, _, h => by cases h
  | .word _, _, _, h => by cases h
  | .any, _, _, h => by cases h
  | .anchor _, _, _, h => by cases h
  | .backref _, _, _, h => by cases h
  | .scoped _ body, _, hw, h => stays_of_size_eq_zero body hw h
  | .loop l body, options, hw, h => by
    obtain ⟨k, hk, h⟩ := Except.bind_eq_ok h
    have h := Except.ok.inj h
    have hf := LoopShape.of_fits env.expandLimit l body k
    generalize LoopShape.of env.expandLimit l body k = shape at h hf
    have hlower : l.lower = 0 → l.upper = some 0 → Stays ((Node.loop l body).outcomes x options) := by
      intro h0 hu o
      simp [Node.outcomes, Loop.outcomes, h0, hu, times, upTo]
    cases shape with
    | nothing =>
      rcases hf with rfl | hf
      · exact (stays_of_size_eq_zero body hw.2 hk).loop l
      · exact hlower (Nat.le_zero.1 (hw.1 0 hf)) hf
    | unrolled required extra =>
      obtain ⟨hk0, -, u, hu, hu0, rfl, rfl⟩ := hf
      obtain ⟨h0, h1⟩ := Nat.add_eq_zero_iff.1 h
      have h0 := (Nat.mul_eq_zero.1 h0).resolve_left hk0
      have h1 := (Nat.mul_eq_zero.1 h1).resolve_right (Nat.succ_ne_zero k)
      omega
    | _ => simp [LoopShape.total] at h
  | .group kind body, options, hw, h => by
    cases kind <;> (obtain ⟨k, hk, h⟩ := Except.bind_eq_ok h; cases h)

theorem stays_of_sizeList_eq_zero : (ns : List Node) → {options : Options} →
    Node.AllWellFormed groups ns → env.sizeList options ns = .ok 0 →
    Stays (Node.outcomesList x options ns)
  | [], _, _, _ => .single
  | n :: ns, _, hw, h => by
    obtain ⟨k, hk, h⟩ := Except.bind_eq_ok h
    obtain ⟨k', hk', h⟩ := Except.bind_eq_ok h
    obtain ⟨rfl, rfl⟩ := Nat.add_eq_zero_iff.1 (Except.ok.inj h)
    exact (stays_of_size_eq_zero n hw.1 hk).flatMap (stays_of_sizeList_eq_zero ns hw.2 hk')

theorem stays_of_sizeAlt_eq_zero : (ns : List Node) → {options : Options} →
    Node.AllWellFormed groups ns → env.sizeAlt options ns = .ok 0 →
    Stays (Node.outcomesAlt x options ns)
  | [], _, _, _ => .single
  | [n], _, hw, h => stays_of_size_eq_zero n hw.1 h
  | n :: n' :: ns, _, _, h => by
    obtain ⟨k, hk, h⟩ := Except.bind_eq_ok h
    obtain ⟨k', hk', h⟩ := Except.bind_eq_ok h
    have := Except.ok.inj h
    omega
end

mutual
/-- 二回以上続けられる本体が必ず進む節は、合い方を優先順に続きへ渡す。 -/
theorem enumerates_explore (hfuel : x.text.size + 2 ≤ fuel) : (n : Node) → {options : Options} →
    {k : Nat} → n.WellFormed groups → n.Tame x.encoding B → env.size options n = .ok k →
    Enumerates x.text.size (n.outcomes x options) (n.explore env x bot fuel options)
  | .empty, _, _, _, _, _ => .stay
  | .list nodes, _, _, hw, ht, h => enumerates_exploreList hfuel nodes hw ht h
  | .alt nodes, _, _, hw, ht, h => enumerates_exploreAlt hfuel nodes hw ht h
  | .str _, _, _, _, _, _ => .leaf
  | .raw _, _, _, _, _, _ => .leaf
  | .cclass _, _, _, _, _, _ => .leaf
  | .word _, _, _, _, _, _ => .leaf
  | .any, _, _, _, _, _ => .leaf
  | .anchor _, _, _, _, _, _ => .leaf
  | .backref _, _, _, _, _, _ => .leaf
  | .scoped _ body, _, _, hw, ht, h => enumerates_explore hfuel body hw ht h
  | .loop l body, options, _, hw, ht, h => by
    obtain ⟨k, hk, -⟩ := Except.bind_eq_ok h
    obtain ⟨hempty, hpos, ht⟩ := ht
    have hfits := LoopShape.of_fits env.expandLimit l body k
    rw [← shape_of_size hk] at hfits
    exact (enumerates_explore hfuel body hw.2 ht hk).loop (Node.advancing_outcomes body) bot hfits hw.1
      hempty hpos hfuel fun h0 => stays_of_size_eq_zero body hw.2 (h0 ▸ hk)
  | .group (.capture n _) body, options, _, hw, ht, h => by
    obtain ⟨k, hk, -⟩ := Except.bind_eq_ok h
    exact (enumerates_explore hfuel body hw.2 ht.2 hk).capture n
  | .group .atomic body, options, _, hw, ht, h => by
    obtain ⟨k, hk, -⟩ := Except.bind_eq_ok h
    have hb := (enumerates_explore hfuel body hw.2 ht hk).first fun _ o' => o'
    simp only [List.map_id_fun'] at hb
    exact hb
  | .group .ahead body, options, _, hw, ht, h => by
    obtain ⟨k, hk, -⟩ := Except.bind_eq_ok h
    exact (enumerates_explore hfuel body hw.2 ht hk).first fun o o' => o'.moveTo o.pos
  | .group .notAhead body, options, _, hw, ht, h => by
    obtain ⟨k, hk, -⟩ := Except.bind_eq_ok h
    exact (enumerates_explore hfuel body hw.2 ht hk).notAhead
  | .group .behind _, _, _, _, ht, _ => ht.elim
  | .group .notBehind _, _, _, _, ht, _ => ht.elim

theorem enumerates_exploreList (hfuel : x.text.size + 2 ≤ fuel) : (ns : List Node) →
    {options : Options} → {k : Nat} → Node.AllWellFormed groups ns → Node.AllTame x.encoding B ns →
    env.sizeList options ns = .ok k →
    Enumerates x.text.size (Node.outcomesList x options ns)
      (Node.exploreList env x bot fuel options ns)
  | [], _, _, _, _, _ => .stay
  | n :: ns, _, _, hw, ht, h => by
    obtain ⟨k, hk, h⟩ := Except.bind_eq_ok h
    obtain ⟨k', hk', -⟩ := Except.bind_eq_ok h
    exact (enumerates_explore hfuel n hw.1 ht.1 hk).comp (Node.advancing_outcomes n)
      (enumerates_exploreList hfuel ns hw.2 ht.2 hk')

theorem enumerates_exploreAlt (hfuel : x.text.size + 2 ≤ fuel) : (ns : List Node) →
    {options : Options} → {k : Nat} → Node.AllWellFormed groups ns → Node.AllTame x.encoding B ns →
    env.sizeAlt options ns = .ok k →
    Enumerates x.text.size (Node.outcomesAlt x options ns)
      (Node.exploreAlt env x bot fuel options ns)
  | [], _, _, _, _, _ => .stay
  | [n], _, _, hw, ht, h => enumerates_explore hfuel n hw.1 ht.1 h
  | n :: n' :: ns, _, _, hw, ht, h => by
    obtain ⟨k, hk, h⟩ := Except.bind_eq_ok h
    obtain ⟨k', hk', -⟩ := Except.bind_eq_ok h
    exact (enumerates_explore hfuel n hw.1 ht.1 hk).either
      (enumerates_exploreAlt hfuel (n' :: ns) hw.2 ht.2 hk')
end

end CodeEnv
end MultibyteRegex

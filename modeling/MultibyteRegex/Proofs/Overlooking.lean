import MultibyteRegex.Proofs.Simulation

/-!
# 捕獲を読まない節

後方参照も捕獲を比べる輪もない節は、どの捕獲から始めても、同じ位置を同じ順に通り、捕獲に同じ範囲を書く。二つの
捕獲から始めた見通しは、続きが保つどの関係でも結ばれる。
-/

namespace MultibyteRegex

/-! ## 並んで進む合い方 -/

namespace Outcome

/-- `o` と `o'` は同じ位置にあり、どの捕獲も、それぞれ元の `d` と `d'` のままか、両方に同じ範囲が書いてある。 -/
structure Parallel (d d' : Captures) (o o' : Outcome) : Prop where
  pos : o'.pos = o.pos
  size : o'.caps.size = o.caps.size
  slot : ∀ n : Nat, (o.caps[n]? = d[n]? ∧ o'.caps[n]? = d'[n]?) ∨ o'.caps[n]? = o.caps[n]?

namespace Parallel

variable {d d' : Captures} {o o' o₁ o₁' : Outcome}

theorem refl (hpos : o'.pos = o.pos) (hsize : o'.caps.size = o.caps.size) : Parallel o.caps o'.caps o o' :=
  ⟨hpos, hsize, fun _ => .inl ⟨rfl, rfl⟩⟩

theorem trans (h : Parallel d d' o o') (h' : Parallel o.caps o'.caps o₁ o₁') : Parallel d d' o₁ o₁' := by
  refine ⟨h'.pos, h'.size, fun n => ?_⟩
  rcases h'.slot n with ⟨hn, hn'⟩ | hn
  · rw [hn, hn']
    exact h.slot n
  · exact .inr hn

theorem moveTo (h : Parallel d d' o o') (s : Nat) : Parallel d d' (o.moveTo s) (o'.moveTo s) := ⟨rfl, h.size, h.slot⟩

theorem opened (h : Parallel d d' o o') (n : Nat) : Parallel d d' (o.opened n) (o'.opened n) := by
  refine ⟨h.pos, by simpa [Outcome.opened] using h.size, fun k => ?_⟩
  simp only [Outcome.opened, Array.getElem?_setIfInBounds, h.pos, h.size]
  by_cases hk : n = k
  · simp [hk]
  · simpa [hk] using h.slot k

/-- 開いてから本体を過ぎた捕獲は、両方で同じ範囲になる。 -/
theorem closed (h : Parallel d d' o o') {n : Nat}
    (hbody : Parallel (o.opened n).caps (o'.opened n).caps o₁ o₁') : Parallel d d' (o₁.closed n) (o₁'.closed n) := by
  have hopened := h.opened n
  have hpos : o₁'.pos = o₁.pos := hbody.pos
  refine ⟨hpos, by simpa [Outcome.closed] using hbody.size, fun k => ?_⟩
  simp only [Outcome.closed, Array.getElem?_modify, hpos]
  by_cases hk : n = k
  · subst hk
    have hslot : (o'.opened n).caps[n]? = (o.opened n).caps[n]? := by
      simp [Outcome.opened, Array.getElem?_setIfInBounds, h.pos, h.size]
    have heq : o₁'.caps[n]? = o₁.caps[n]? := by
      rcases hbody.slot n with ⟨hn, hn'⟩ | hn
      · rw [hn, hn', hslot]
      · exact hn
    simp [heq]
  · simpa [hk] using (hopened.trans hbody).slot k

end Parallel
end Outcome

/-! ## 関係を保つ続き -/

variable {α : Type} {r : α → α → Prop} {bot : α} {d d' : Captures} {F F' : Cont α} {R S : Cont α → Cont α}

/-- 並んで進む合い方から、関係 `r` で結ばれる答えを返す。 -/
def Cont.Matches (r : α → α → Prop) (d d' : Captures) (F F' : Cont α) : Prop :=
  ∀ o o', Outcome.Parallel d d' o o' → ∀ a a', r a a' → r (F o a) (F' o' a')

/-- どの捕獲から始めても、続きの保つ関係をそのまま保つ。 -/
structure Overlooks (r : α → α → Prop) (R : Cont α → Cont α) : Prop where
  keeps : ∀ {d d' : Captures} {F F' : Cont α}, Cont.Matches r d d' F F' → Cont.Matches r d d' (R F) (R F')

/-- どの捕獲とも比べない検査は、並んで進む合い方の空回りを同じに見る。 -/
theorem EmptyBody.isStuck_parallel {e : EmptyBody} (he : e ≠ .possibleWithCaptures) {o o' o₁ o₁' : Outcome}
    (hpos : o'.pos = o.pos) (hpos₁ : o₁'.pos = o₁.pos) : e.isStuck o' o₁' = e.isStuck o o₁ := by
  cases e with
  | never => rfl
  | possible => simp [isStuck, hpos, hpos₁]
  | possibleWithCaptures => exact absurd rfl he

namespace Overlooks

theorem stay : Overlooks r fun F => F := ⟨id⟩

theorem leaf (end? : Outcome → Option Nat) (hend : ∀ o o', o'.pos = o.pos → end? o' = end? o) :
    Overlooks r fun F o res => match end? o with
      | some s => F (o.moveTo s) res
      | none => res := by
  refine ⟨fun hF o o' h a a' ha => ?_⟩
  rw [hend o o' h.pos]
  cases end? o with
  | some s => exact hF _ _ (h.moveTo s) a a' ha
  | none => exact ha

theorem comp (hR : Overlooks r R) (hS : Overlooks r S) : Overlooks r fun F => R (S F) :=
  ⟨fun hF => hR.keeps (hS.keeps hF)⟩

theorem times (hR : Overlooks r R) (n : Nat) : Overlooks r (Nat.repeat R n) := by
  induction n with
  | zero => exact stay
  | succ n ih => exact hR.comp ih

theorem either (hR : Overlooks r R) (hS : Overlooks r S) : Overlooks r fun F o res => R F o (S F o res) :=
  ⟨fun hF o o' h a a' ha => hR.keeps hF o o' h _ _ (hS.keeps hF o o' h a a' ha)⟩

theorem capture (hR : Overlooks r R) (n : Nat) :
    Overlooks r fun F o res => R (fun o' => F (o'.closed n)) (o.opened n) res :=
  ⟨fun hF _ _ h => hR.keeps (fun _ _ hbody => hF _ _ (h.closed hbody)) _ _ (.refl h.pos (h.opened n).size)⟩

/-- 最初の合い方だけを使う。 -/
theorem first (hR : Overlooks r R) (move : Outcome → Outcome → Outcome)
    (hmove : ∀ {d d' : Captures} {o o' o₁ o₁' : Outcome}, Outcome.Parallel d d' o o' → Outcome.Parallel d d' o₁ o₁' →
      Outcome.Parallel d d' (move o o₁) (move o' o₁')) :
    Overlooks r fun F o res => R (fun o' _ => F (move o o') res) o res :=
  ⟨fun hF o o' h a a' ha => hR.keeps (fun _ _ h₁ _ _ _ => hF _ _ (hmove h h₁) a a' ha) o o' h a a' ha⟩

theorem reject (hR : Overlooks r R) : Overlooks r fun F o res => R (fun _ _ => res) o (F o res) :=
  ⟨fun hF o o' h a a' ha => hR.keeps (fun _ _ _ _ _ _ => ha) o o' h _ _ (hF o o' h a a' ha)⟩

/-- 捕獲を比べない輪は、捕獲によらずに続く。一度も続けない輪の検査は問わない。 -/
theorem explore (hR : Overlooks r R) (hbot : r bot bot) {l : Loop}
    (hl : l.emptyBody ≠ .possibleWithCaptures ∨ l.upper = some 0) (fuel k : Nat) :
    Overlooks r fun F => l.explore bot R F fuel k := by
  induction fuel generalizing k with
  | zero => exact ⟨fun _ _ _ _ _ _ _ => hbot⟩
  | succ fuel ih =>
    refine ⟨fun {d d' F F'} hF o o' h a a' ha => ?_⟩
    simp only [Loop.explore]
    cases hupper : l.upper.all (k < ·) with
    | false => simpa using hF o o' h a a' ha
    | true =>
      have hempty : l.emptyBody ≠ .possibleWithCaptures := hl.resolve_right fun h0 => by simp [h0] at hupper
      have hagain : ∀ a a', r a a' →
          r (R (fun o₁ res => if l.emptyBody.isStuck o o₁ then F o₁ res else l.explore bot R F fuel (k + 1) o₁ res) o a)
            (R (fun o₁ res => if l.emptyBody.isStuck o' o₁ then F' o₁ res else l.explore bot R F' fuel (k + 1) o₁ res)
              o' a') := by
        refine hR.keeps (fun o₁ o₁' h₁ b b' hb => ?_) o o' h
        rw [EmptyBody.isStuck_parallel hempty h.pos h₁.pos]
        split
        · exact hF o₁ o₁' h₁ b b' hb
        · exact (ih (k + 1)).keeps hF o₁ o₁' h₁ b b' hb
      simp only [Bool.not_true, Bool.false_eq_true, if_false]
      split
      · exact hagain a a' ha
      · split
        · exact hagain _ _ (hF o o' h a a' ha)
        · exact hF o o' h _ _ (hagain a a' ha)

/-- どの開き方でも、捕獲を比べる検査を置かない繰り返しは、捕獲によらない。 -/
theorem loop (hR : Overlooks r R) (hbot : r bot bot) {l : Loop} {shape : LoopShape}
    (hl : shape.isGuarded → l.emptyBody ≠ .possibleWithCaptures) (fuel : Nat) :
    Overlooks r (shape.explore l bot fuel R) := by
  have hplan : (shape.plan l).2.emptyBody ≠ .possibleWithCaptures ∨ (shape.plan l).2.upper = some 0 := by
    cases shape with
    | nothing => exact .inr rfl
    | ring copies jumpIn => cases jumpIn <;> exact .inl (hl rfl)
    | counted => exact .inl (hl rfl)
    | _ => exact .inl (by simp [LoopShape.plan])
  exact (hR.times _).comp (hR.explore hbot hplan fuel 0)

end Overlooks

/-! ## 節 -/

namespace CodeEnv

mutual
/-- 後方参照も、捕獲を比べる輪もない。 -/
def isBlind (env : CodeEnv) (options : Options) : Node → Bool
  | .backref _ => false
  | .list nodes => env.allBlind options nodes
  | .alt nodes => env.allBlind options nodes
  | .loop l body => !env.comparesCaptures options l body && env.isBlind options body
  | .scoped inner body => env.isBlind inner body
  | .group _ body => env.isBlind options body
  | _ => true

def allBlind (env : CodeEnv) (options : Options) : List Node → Bool
  | [] => true
  | n :: ns => env.isBlind options n && env.allBlind options ns
end

variable {env : CodeEnv} {x : Setting} {fuel : Nat}

mutual
/-- 捕獲を読まない節は、どの捕獲から始めても、続きの保つ関係をそのまま保つ。 -/
theorem overlooks_explore (hbot : r bot bot) : (n : Node) → {options : Options} → env.isBlind options n →
    Overlooks r (n.explore env x bot fuel options)
  | .empty, _, _ => .stay
  | .list ns, _, h => overlooks_exploreList hbot ns h
  | .alt ns, _, h => overlooks_exploreAlt hbot ns h
  | .loop l body, options, h => by
    simp only [isBlind, Bool.and_eq_true, Bool.not_eq_true'] at h
    exact (overlooks_explore hbot body h.2).loop hbot (fun hg he => by simp [comparesCaptures, hg, he] at h) fuel
  | .scoped _ body, _, h => overlooks_explore hbot body h
  | .group (.capture n _) body, _, h => (overlooks_explore hbot body h).capture n
  | .group .atomic body, _, h => (overlooks_explore hbot body h).first (fun _ o' => o') fun _ h => h
  | .group .ahead body, _, h => by
    refine (overlooks_explore hbot body h).first (fun o o' => o'.moveTo o.pos) fun h h₁ => ?_
    rw [h.pos]
    exact h₁.moveTo _
  | .group .notAhead body, _, h => (overlooks_explore hbot body h).reject
  | .group .behind body, _, h => by
    refine ⟨fun hF o o' h' a a' ha => ?_⟩
    simp only [Node.explore, h'.pos]
    cases env.behind? x body o.pos with
    | some s => exact (overlooks_explore hbot body h).keeps hF _ _ (h'.moveTo s) a a' ha
    | none => exact ha
  | .group .notBehind body, _, h => by
    refine ⟨fun hF o o' h' a a' ha => ?_⟩
    simp only [Node.explore, h'.pos]
    cases env.behind? x body o.pos with
    | some s =>
      exact (overlooks_explore hbot body h).keeps (fun _ _ _ _ _ _ => ha) _ _ (h'.moveTo s) _ _
        (hF o o' h' a a' ha)
    | none => exact hF o o' h' a a' ha
  | .str bytes, options, _ => .leaf (fun o => (Node.str bytes).leafEnd? x options o)
      fun _ _ h => by simp only [Node.leafEnd?, h]
  | .raw bytes, options, _ => .leaf (fun o => (Node.raw bytes).leafEnd? x options o)
      fun _ _ h => by simp only [Node.leafEnd?, h]
  | .cclass c, options, _ => .leaf (fun o => (Node.cclass c).leafEnd? x options o)
      fun _ _ h => by simp only [Node.leafEnd?, h]
  | .word isWord, options, _ => .leaf (fun o => (Node.word isWord).leafEnd? x options o)
      fun _ _ h => by simp only [Node.leafEnd?, h]
  | .any, options, _ => .leaf (fun o => Node.any.leafEnd? x options o)
      fun _ _ h => by simp only [Node.leafEnd?, h]
  | .anchor e, options, _ => .leaf (fun o => (Node.anchor e).leafEnd? x options o)
      fun _ _ h => by simp only [Node.leafEnd?, h]

theorem overlooks_exploreList (hbot : r bot bot) : (ns : List Node) → {options : Options} →
    env.allBlind options ns → Overlooks r (Node.exploreList env x bot fuel options ns)
  | [], _, _ => .stay
  | n :: ns, _, h => by
    simp only [allBlind, Bool.and_eq_true] at h
    exact (overlooks_explore hbot n h.1).comp (overlooks_exploreList hbot ns h.2)

theorem overlooks_exploreAlt (hbot : r bot bot) : (ns : List Node) → {options : Options} →
    env.allBlind options ns → Overlooks r (Node.exploreAlt env x bot fuel options ns)
  | [], _, _ => .stay
  | [n], _, h => overlooks_explore hbot n (by simpa [allBlind] using h)
  | n :: n' :: ns, _, h => by
    rw [allBlind, Bool.and_eq_true] at h
    exact (overlooks_explore hbot n h.1).either (overlooks_exploreAlt hbot (n' :: ns) h.2)
end

end CodeEnv
end MultibyteRegex

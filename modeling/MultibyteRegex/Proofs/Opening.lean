import MultibyteRegex.Proofs.Collapsing
import MultibyteRegex.Proofs.Peeking

/-!
# 重なる繰り返しの開き方

重ねた繰り返しと直した繰り返しは、本体の大きさが違うので、違う形に開かれることがある。よく使う繰り返しは、どの形に
開いても合い方が変わらない。回数を決めた繰り返しは、下限まで本体を並べるか、数えながら回る。
-/

namespace MultibyteRegex

open Outlook (Within ordered)

/-! ## よく使う繰り返し -/

theorem Quantifier.of_ofLoop? {l : Loop} {q : Quantifier} (h : ofLoop? l = some q) :
    l.lower = q.toLoop.lower ∧ l.upper = q.toLoop.upper ∧ l.greedy = q.toLoop.greedy := by
  obtain ⟨lower, upper, greedy, e, head, next⟩ := l
  simp only [ofLoop?] at h
  split at h <;> cases h <;> exact ⟨rfl, rfl, rfl⟩

namespace Loop

variable {l : Loop} {kept : Prop} {R : Cont Outlook → Cont Outlook} {F : Cont Outlook} {f g k u : Nat} {o : Outcome}

/-- 下限まで本体を並べた後に残る輪。 -/
def rest (l : Loop) (u : Nat) : Loop := { l with lower := 0, upper := some (u - l.lower), emptyBody := .never }

theorem lt_upper (hu : l.upper = some u) (hk : k < u) : ∀ v ∈ l.upper, k < v := by
  intro v hv
  rw [hu] at hv
  exact Option.some.inj hv ▸ hk

/-- 下限に届かないうちは、続きに進まずにもう一回続ける。 -/
theorem explore_turn (hmore : ∀ v ∈ l.upper, k < v) (hk : k < l.lower) :
    l.explore (fun _ => none) R F (f + 1) k o = Emit.Follows.turn l R F f k o :=
  funext fun _ => Emit.Follows.explore_of_lt hmore hk

/-- 下限に届けば、もう一回続けるのと続きに進むのとを、順に試す。 -/
theorem explore_choose (hmore : ∀ v ∈ l.upper, k < v) (hk : l.lower ≤ k) :
    l.explore (fun _ => none) R F (f + 1) k o = ordered l.greedy (Emit.Follows.turn l R F f k o) (F o) :=
  funext fun _ => Emit.Follows.explore_of_le hmore hk

/-- 上限も下限もない輪は、手がかりの他は、空回りの検査だけで決まる。 -/
theorem explore_star (hu : l.upper = none) (hlower : l.lower = 0) :
    l.explore (fun _ => none) R F f 0 = Cont.star l.emptyBody l.greedy R F f := by
  obtain ⟨lower, upper, greedy, e, head, next⟩ := l
  obtain rfl : upper = none := hu
  obtain rfl : lower = 0 := hlower
  exact (explore_withoutHints 0).symm

theorem explore_plus (hR : Traced (fun _ => none) kept R) (hkept : l.emptyBody = .possible → kept) (hu : l.upper = none)
    (hlower : l.lower = 1) (o : Outcome) : l.explore (fun _ => none) R F (f + 1) 0 o =
      R (Cont.after l.emptyBody o F (Cont.star l.emptyBody l.greedy R F f)) o := by
  have hrest : l.explore (fun _ => none) R F f 1 = Cont.star l.emptyBody l.greedy R F f := by
    have h : explore { l with lower := 0, upper := l.upper.map (· - l.lower) } (fun _ => none) R F f 0 =
        l.explore (fun _ => none) R F f (l.lower + 0) := explore_rest
    rw [hlower] at h
    rw [← h]
    exact explore_star (l := { l with lower := 0, upper := l.upper.map (· - 1) }) (by rw [hu]; rfl) rfl
  rw [explore_turn (by simp [hu]) (by omega), ← Cont.turn_eq hR hkept, ← hrest]

theorem explore_optional (hu : l.upper = some 1) (hlower : l.lower = 0) (he : l.emptyBody = .never) :
    l.explore (fun _ => none) R F (f + 1) 0 o =
      ordered l.greedy (R (l.explore (fun _ => none) R F f 1) o) (F o) := by
  rw [explore_choose (lt_upper hu Nat.one_pos) (by omega)]
  simp only [Emit.Follows.turn, he, EmptyBody.isStuck, Bool.false_eq_true, if_false]

end Loop

namespace LoopShape.Fits

variable {l : Loop} {shape : LoopShape} {body : Node} {size u : Nat} {R : Cont Outlook → Cont Outlook}
  {F : Cont Outlook} {f : Nat}

/-- 上限も下限もない輪は、どの形に開いても同じである。 -/
theorem explore_star (h : shape.Fits l body size) (hsize : size ≠ 0) (hu : l.upper = none) (hlower : l.lower = 0)
    (he : l.emptyBody = Node.emptyBodyOf l.upper body) :
    shape.explore l (fun _ => none) f R F = Cont.star l.emptyBody l.greedy R F f := by
  have hloop : ∀ l' : Loop, l'.upper = none → l'.lower = 0 → l'.emptyBody = l.emptyBody → l'.greedy = l.greedy →
      l'.explore (fun _ => none) R F f 0 = Cont.star l.emptyBody l.greedy R F f := by
    intro l' hu' hl' he' hg'
    rw [Loop.explore_star hu' hl', he', hg']
  cases shape with
  | nothing =>
    rcases h with h | h
    · exact absurd h hsize
    · rw [hu] at h
      cases h
  | anyStar =>
    obtain ⟨rfl, -, -⟩ := h
    have hnever : l.emptyBody = .never := by rw [he, hu]; rfl
    rw [explore, plan, hlower]
    exact hloop _ hu rfl hnever.symm rfl
  | ring copies jumpIn =>
    obtain ⟨-, -, hcopies⟩ := h
    cases jumpIn with
    | true =>
      rw [hlower] at hcopies
      cases hcopies
    | false =>
      obtain rfl : copies = 0 := Eq.trans hcopies hlower
      exact hloop _ hu rfl rfl rfl
  | unrolled required extra =>
    obtain ⟨-, -, u, hu', -⟩ := h
    rw [hu] at hu'
    cases hu'
  | lazyOptional =>
    obtain ⟨-, -, -, hu'⟩ := h
    rw [hu] at hu'
    cases hu'
  | counted => exact hloop _ hu hlower rfl rfl

theorem explore_plus (h : shape.Fits l body size) (hsize : size ≠ 0) (hu : l.upper = none) (hlower : l.lower = 1)
    (he : l.emptyBody = Node.emptyBodyOf l.upper body) :
    shape.explore l (fun _ => none) f R F = R (Cont.star l.emptyBody l.greedy R F f) ∨
      shape.explore l (fun _ => none) f R F = l.explore (fun _ => none) R F f 0 := by
  cases shape with
  | nothing =>
    rcases h with h | h
    · exact absurd h hsize
    · rw [hu] at h
      cases h
  | anyStar =>
    obtain ⟨rfl, -, -⟩ := h
    have hnever : l.emptyBody = .never := by rw [he, hu]; rfl
    left
    rw [explore, plan, hlower, hnever]
    exact congrArg R (Loop.explore_star (l := { l with lower := 0, emptyBody := .never }) hu rfl)
  | ring copies jumpIn =>
    obtain ⟨-, -, hcopies⟩ := h
    cases jumpIn with
    | true => exact .inr rfl
    | false =>
      obtain rfl : copies = 1 := Eq.trans hcopies hlower
      exact .inl (congrArg R (Loop.explore_star (l := { l with lower := 0 }) hu rfl))
  | unrolled required extra =>
    obtain ⟨-, -, u, hu', -⟩ := h
    rw [hu] at hu'
    cases hu'
  | lazyOptional =>
    obtain ⟨-, -, -, hu'⟩ := h
    rw [hu] at hu'
    cases hu'
  | counted => exact .inr rfl

/-- 回数を決めた繰り返しは、下限まで本体を並べてから残りを続けるか、数えながら回る。 -/
theorem explore_of_upper (h : shape.Fits l body size) (hsize : size ≠ 0) (hu : l.upper = some u) (hpos : u ≠ 0)
    (hg : l.greedy = true ∨ l.emptyBody = .never) :
    (shape.isGuarded = false ∧ shape.explore l (fun _ => none) f R F = Nat.repeat R l.lower
        ((l.rest u).explore (fun _ => none) R F f 0)) ∨
      (l.greedy = true → shape.isGuarded = true) ∧
        shape.explore l (fun _ => none) f R F = l.explore (fun _ => none) R F f 0 := by
  cases shape with
  | nothing =>
    rcases h with h | h
    · exact absurd h hsize
    · rw [hu] at h
      exact absurd (Option.some.inj h) hpos
  | anyStar =>
    rw [h.2.2] at hu
    cases hu
  | ring copies jumpIn =>
    rw [h.2.1] at hu
    cases hu
  | unrolled required extra =>
    obtain ⟨-, -, u', hu', -, rfl, rfl⟩ := h
    cases hu.symm.trans hu'
    exact .inl ⟨rfl, rfl⟩
  | lazyOptional =>
    obtain ⟨-, hlazy, hlower, -⟩ := h
    have he : l.emptyBody = .never := hg.resolve_left (by rw [hlazy]; exact Bool.false_ne_true)
    obtain ⟨lower, upper, greedy, e, head, next⟩ := l
    obtain rfl : e = .never := he
    exact .inr ⟨fun hg => absurd (hlazy.symm.trans hg) Bool.false_ne_true, rfl⟩
  | counted => exact .inr ⟨fun _ => rfl, rfl⟩

end LoopShape.Fits

namespace Loop

variable {l : Loop} {R : Cont Outlook → Cont Outlook} {F : Cont Outlook} {T : Outlook → Outlook} {f k : Nat} {o : Outcome}

theorem explore_zero : Within (l.explore (fun _ => none) R F 0 k o) T := by
  intro res res' _ best v h
  cases h

theorem explore_stop (hF : F.Steady) (hk : l.upper = some k) (o : Outcome) :
    Within (l.explore (fun _ => none) R F f k o) (F o) := by
  cases f with
  | zero => exact explore_zero
  | succ f =>
    have h : l.explore (fun _ => none) R F (f + 1) k o = F o :=
      funext fun res => Emit.Follows.explore_of_upper (Nat.succ_pos f) hk
    rw [h]
    exact hF.mono o

theorem stop_explore (hF : F.Steady) (hk : l.upper = some k) (hf : 0 < f) (o : Outcome) :
    Within (F o) (l.explore (fun _ => none) R F f k o) := by
  have h : l.explore (fun _ => none) R F f k o = F o := funext fun res => Emit.Follows.explore_of_upper hf hk
  rw [h]
  exact hF.mono o

end Loop

namespace Quantifier

variable {l : Loop} {q : Quantifier} {shape : LoopShape} {body : Node} {size : Nat} {kept : Prop}
  {R : Cont Outlook → Cont Outlook} {F : Cont Outlook} {f : Nat} {o : Outcome}

section
variable (hq : ofLoop? l = some q) (hfit : shape.Fits l body size) (hsize : size ≠ 0)
  (he : l.emptyBody = Node.emptyBodyOf l.upper body) (hR : Traced (fun _ => none) kept R) (hF : F.Steady)
include hq hfit hsize he hR hF

theorem sandwich_optional (hu : q.toLoop.upper = some 1) (hlower : q.toLoop.lower = 0) :
    Within (shape.explore l (fun _ => none) f R F o) (ordered q.toLoop.greedy (R F o) (F o)) ∧
      Within (ordered q.toLoop.greedy (R F o) (F o)) (shape.explore l (fun _ => none) (f + 2) R F o) := by
  obtain ⟨hl, hupper, hgreedy⟩ := of_ofLoop? hq
  rw [hlower] at hl
  rw [hu] at hupper
  have hnever : l.emptyBody = .never := by rw [he, hupper]; rfl
  have hexplore (f : Nat) : ∃ l' : Loop, l'.upper = some 1 ∧
      shape.explore l (fun _ => none) f R F = l'.explore (fun _ => none) R F f 0 ∧
      ∀ f o, l'.explore (fun _ => none) R F (f + 1) 0 o =
        ordered q.toLoop.greedy (R (l'.explore (fun _ => none) R F f 1) o) (F o) := by
    rcases hfit.explore_of_upper (R := R) (F := F) (f := f) hsize hupper Nat.one_ne_zero (.inr hnever) with ⟨-, h⟩ | ⟨-, h⟩
    · have hone : (l.rest 1).upper = some 1 := congrArg (fun n => some (1 - n)) hl
      rw [hl] at h
      exact ⟨l.rest 1, hone, h, fun f o => hgreedy ▸ Loop.explore_optional hone rfl rfl⟩
    · exact ⟨l, hupper, h, fun f o => hgreedy ▸ Loop.explore_optional hupper hl hnever⟩
  constructor
  · obtain ⟨l', hu', h, hsucc⟩ := hexplore f
    rw [h]
    cases f with
    | zero => exact Loop.explore_zero
    | succ f =>
      rw [hsucc]
      exact (hR.within fun o' _ => Loop.explore_stop hF hu' o').ordered (hF.mono o)
  · obtain ⟨l', hu', h, hsucc⟩ := hexplore (f + 2)
    rw [h, hsucc]
    exact (hR.within fun o' _ => Loop.stop_explore hF hu' (Nat.succ_pos f) o').ordered (hF.mono o)

variable (hkept : Node.emptyBodyOf none body = .possible → kept)

theorem sandwich_star (hu : q.toLoop.upper = none) (hlower : q.toLoop.lower = 0) :
    Within (shape.explore l (fun _ => none) f R F o)
        (Cont.star (Node.emptyBodyOf none body) q.toLoop.greedy R F f o) ∧
      Within (Cont.star (Node.emptyBodyOf none body) q.toLoop.greedy R F f o)
        (shape.explore l (fun _ => none) (f + 2) R F o) := by
  obtain ⟨hl, hupper, hgreedy⟩ := of_ofLoop? hq
  have hstar (f : Nat) : shape.explore l (fun _ => none) f R F =
      Cont.star (Node.emptyBodyOf none body) q.toLoop.greedy R F f := by
    rw [hfit.explore_star hsize (hupper.trans hu) (hl.trans hlower) he, he, hupper, hu, hgreedy]
  rw [hstar, hstar]
  exact ⟨(Cont.star_steady hR hF).mono o, Cont.star_mono hR hF (Nat.le_add_right f 2) o⟩

include hkept

theorem sandwich_plus (hu : q.toLoop.upper = none) (hlower : q.toLoop.lower = 1) :
    Within (shape.explore l (fun _ => none) f R F o)
        (R (Cont.star (Node.emptyBodyOf none body) q.toLoop.greedy R F f) o) ∧
      Within (R (Cont.star (Node.emptyBodyOf none body) q.toLoop.greedy R F f) o)
        (shape.explore l (fun _ => none) (f + 2) R F o) := by
  obtain ⟨hl, hupper, hgreedy⟩ := of_ofLoop? hq
  rw [hu] at hupper
  rw [hlower] at hl
  rw [hupper] at he
  have hloop (f : Nat) : l.explore (fun _ => none) R F (f + 1) 0 o =
      R (Cont.after (Node.emptyBodyOf none body) o F
        (Cont.star (Node.emptyBodyOf none body) q.toLoop.greedy R F f)) o := by
    rw [Loop.explore_plus hR (he ▸ hkept) hupper hl, he, hgreedy]
  have hmore (f g : Nat) (hle : f ≤ g) :
      Within (R (Cont.star (Node.emptyBodyOf none body) q.toLoop.greedy R F f) o)
        (R (Cont.star (Node.emptyBodyOf none body) q.toLoop.greedy R F g) o) :=
    hR.within fun o' _ => Cont.star_mono hR hF hle o'
  constructor
  · rcases hfit.explore_plus (R := R) (F := F) (f := f) hsize hupper hl (hupper ▸ he) with h | h
    · rw [h, he, hgreedy]
      exact hmore f f (Nat.le_refl f)
    · rw [h]
      cases f with
      | zero => exact Loop.explore_zero
      | succ f =>
        rw [hloop]
        exact Cont.after_within_star hR hkept hF o
  · rcases hfit.explore_plus (R := R) (F := F) (f := f + 2) hsize hupper hl (hupper ▸ he) with h | h
    · rw [h, he, hgreedy]
      exact hmore f (f + 2) (Nat.le_add_right f 2)
    · rw [h, hloop]
      exact (hmore f (f + 1) (Nat.le_succ f)).trans (Cont.star_within_after hR hkept hF o)

/-- よく使う繰り返しは、どの形に開いても、その見通しと同じ答えに決まる。 -/
theorem sandwich : Within (shape.explore l (fun _ => none) f R F o) (q.run (Node.emptyBodyOf none body) f R F o) ∧
    Within (q.run (Node.emptyBodyOf none body) f R F o) (shape.explore l (fun _ => none) (f + 2) R F o) := by
  cases q with
  | optional => exact sandwich_optional hq hfit hsize he hR hF rfl rfl
  | lazyOptional => exact sandwich_optional hq hfit hsize he hR hF rfl rfl
  | star => exact sandwich_star hq hfit hsize he hR hF rfl rfl
  | lazyStar => exact sandwich_star hq hfit hsize he hR hF rfl rfl
  | plus => exact sandwich_plus hq hfit hsize he hR hF hkept rfl rfl
  | lazyPlus => exact sandwich_plus hq hfit hsize he hR hF hkept rfl rfl

end
end Quantifier

end MultibyteRegex

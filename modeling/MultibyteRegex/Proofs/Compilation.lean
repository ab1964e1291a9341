import MultibyteRegex.Proofs.Fragment
import MultibyteRegex.Proofs.Spans

/-!
# 生成した命令の健全性

節から生成した断片は、括弧や輪の目印を正しく扱い、節が合いうる範囲の終わりでだけ断片を抜ける。
-/

namespace MultibyteRegex

theorem Iterated.snoc {R : Nat → Nat → Prop} {k s u t : Nat} (h : Iterated R k s u) (hr : R u t) :
    Iterated R (k + 1) s t := by
  induction k generalizing s with
  | zero =>
    cases h
    exact ⟨t, hr, rfl⟩
  | succ k ih =>
    obtain ⟨v, hv, h⟩ := h
    exact ⟨v, hv, ih h⟩

theorem Iterated.add {R : Nat → Nat → Prop} {j k s u t : Nat} (h : Iterated R j s u)
    (h' : Iterated R k u t) : Iterated R (j + k) s t := by
  induction j generalizing s with
  | zero =>
    cases h
    rwa [Nat.zero_add]
  | succ j ih =>
    obtain ⟨v, hv, h⟩ := h
    rw [Nat.succ_add]
    exact ⟨v, hv, ih h⟩

/-- 空の一回は、いくら重ねてもよい。 -/
theorem Iterated.replicate {R : Nat → Nat → Prop} {s : Nat} (h : R s s) (k : Nat) :
    Iterated R k s s := by
  induction k with
  | zero => rfl
  | succ k ih => exact ⟨s, h, ih⟩

namespace Assertion

variable {E : Assertion} {R : Nat → Nat → Prop} {c d : Counters}

/-- 目印の番号は、これから配る番号より小さい。 -/
def Fresh (E : Assertion) (c : Counters) : Prop :=
  ∀ ms s, E ms s → ∀ f ∈ ms, (∀ id, f.opener? = some (.counter id) → id < c.repeats.length) ∧
    ∀ id, f.opener? = some (.nullCheck id) → id < c.nullChecks

theorem Fresh.after (h : E.Fresh c) : (E.after R).Fresh c := fun ms _ ⟨u, hu, _⟩ => h ms u hu

theorem Fresh.mono (h : E.Fresh c) (hcd : c.Extends d) : E.Fresh d := by
  intro ms s hE f hf
  obtain ⟨hr, hn⟩ := h ms s hE f hf
  exact ⟨fun id hid => Nat.lt_of_lt_of_le (hr id hid) hcd.repeats.length_le,
    fun id hid => Nat.lt_of_lt_of_le (hn id hid) hcd.nullChecks⟩

/-- これから配る番号の輪は、目印にない。 -/
theorem Fresh.leaves_counter (h : E.Fresh c) {ms : List Frame} {s : Nat} (hE : E ms s) :
    (Opener.counter c.repeats.length).Leaves ms :=
  ⟨rfl, fun f hf ho => Nat.lt_irrefl _ ((h ms s hE f hf).1 _ ho)⟩

theorem Fresh.leaves_nullCheck (h : E.Fresh c) {ms : List Frame} {s : Nat} (hE : E ms s) :
    (Opener.nullCheck c.nullChecks).Leaves ms :=
  ⟨rfl, fun f hf ho => Nat.lt_irrefl _ ((h ms s hE f hf).2 _ ho)⟩

end Assertion

/-- 約束 `inner` の目印は、`E` の目印に、`o` を表す枠を一つ加えたものである。 -/
def Assertion.Opens (inner E : Assertion) (o : Opener) : Prop :=
  ∀ ms s, inner ms s → ∃ f u ms', ms = f :: ms' ∧ f.opener? = some o ∧ E ms' u

namespace Assertion.Opens

variable {inner E : Assertion} {o : Opener}

theorem inScope {os : List Opener} (h : inner.Opens E o) (hE : E.InScope os) :
    inner.InScope (o :: os) := by
  intro ms s hs
  obtain ⟨f, u, ms, rfl, hf, hu⟩ := h ms s hs
  simp [hf, hE ms u hu]

theorem fresh {c d : Counters} (h : inner.Opens E o) (hF : E.Fresh c) (hcd : c.Extends d)
    (hr : ∀ id, o = .counter id → id < d.repeats.length)
    (hn : ∀ id, o = .nullCheck id → id < d.nullChecks) : inner.Fresh d := by
  intro ms s hs f hf
  obtain ⟨g, u, ms, rfl, hg, hu⟩ := h ms s hs
  rcases List.mem_cons.1 hf with rfl | hf
  · rw [hg]
    exact ⟨fun id hid => hr id (Option.some.inj hid), fun id hid => hn id (Option.some.inj hid)⟩
  · exact hF.mono hcd ms u hu f hf

end Assertion.Opens

theorem Instruction.allows_of_isPlain {m : Matcher} {Q : Promise} {T : Nat → Assertion}
    {pc pos : Nat} {ms : List Frame} {i : Instruction} (h : i.isPlain)
    (ha : ∀ p, m.Passes i pos p → T (pc + 1) ms p) : i.Allows m Q T pc ms pos := by
  cases i <;> first | exact ha | cases h

namespace LoopShape

variable {R : Nat → Nat → Prop} {l : Loop} {body : Node} {n : Nat} {shape : LoopShape}

/-- 開き方ごとの、本体を続ける回数。 -/
def Turns (l : Loop) (R : Nat → Nat → Prop) : LoopShape → Nat → Nat → Prop
  | .nothing => Eq
  | .anyStar => Comp (Iterated R l.lower) fun s t => ∃ k, Iterated R k s t
  | .ring copies false => Comp (Iterated R copies) fun s t => ∃ k, Iterated R k s t
  | .ring _ true => fun s t => ∃ k, 1 ≤ k ∧ Iterated R k s t
  | .unrolled required extra => Comp (Iterated R required) fun s t => ∃ k, k ≤ extra ∧ Iterated R k s t
  | .lazyOptional => fun s t => s = t ∨ R s t
  | .counted => l.Turns R

/-- どの開き方でも、本体を続ける回数は許されたものである。 -/
theorem Fits.turns (hf : shape.Fits l body n) (hl : ∀ u ∈ l.upper, l.lower ≤ u) (h0 : n = 0 → ∀ s, R s s)
    {s t : Nat} (h : shape.Turns l R s t) : l.Turns R s t := by
  cases shape with
  | nothing =>
    cases h
    rcases hf with hf | hf
    · exact ⟨l.lower, Nat.le_refl _, hl, .replicate (h0 hf s) _⟩
    · exact ⟨0, hl 0 hf, fun _ _ => Nat.zero_le _, rfl⟩
  | anyStar =>
    obtain ⟨-, -, hupper⟩ := hf
    obtain ⟨u, hu, k, ht⟩ := h
    exact ⟨l.lower + k, Nat.le_add_right .., by simp [hupper], hu.add ht⟩
  | ring copies jumpIn =>
    obtain ⟨-, hupper, hlower⟩ := hf
    cases jumpIn with
    | false =>
      have hlower : copies = l.lower := hlower
      obtain ⟨u, hu, k, ht⟩ := h
      exact ⟨copies + k, by omega, by simp [hupper], hu.add ht⟩
    | true =>
      have hlower : l.lower = 1 := hlower
      obtain ⟨k, hk, ht⟩ := h
      exact ⟨k, by omega, by simp [hupper], ht⟩
  | unrolled required extra =>
    obtain ⟨-, -, u, hupper, -, rfl, rfl⟩ := hf
    have hle := hl u hupper
    obtain ⟨v, hv, k, hk, ht⟩ := h
    refine ⟨l.lower + k, Nat.le_add_right .., fun w hw => ?_, hv.add ht⟩
    cases hupper.symm.trans hw
    omega
  | lazyOptional =>
    obtain ⟨-, -, hlower, hupper⟩ := hf
    rcases h with rfl | ht
    · exact ⟨0, by omega, fun _ _ => Nat.zero_le _, rfl⟩
    · refine ⟨1, by omega, fun w hw => ?_, t, ht, rfl⟩
      cases hupper.symm.trans hw
      exact Nat.le_refl _
  | counted => exact h

end LoopShape

/-- 生成した断片は、どこに置いても、関係 `R` の終わりで抜ける。 -/
structure Emit.Meets (m : Matcher) (Q : Promise) (a : Emit) (R : Nat → Nat → Prop) : Prop where
  triple : ∀ {c c' : Counters} {code : List Instruction}, a c = .ok (code, c') →
    c'.repeats <+: m.program.repeats.toList → ∀ {L : Nat → Assertion} {p : Nat} {E : Assertion},
      E.InScope (m.program.scopeAt p) → E.Fresh c → Triple m Q L p E code (E.after R)

section

variable {m : Matcher} {Q : Promise} {L : Nat → Assertion} {p : Nat} {E : Assertion}

theorem triple_plain {i : Instruction} (h : i.isPlain) (hE : E.InScope (m.program.scopeAt p)) :
    Triple m Q L p E [i] (E.after (m.Passes i)) :=
  .instr hE fun _ hX _ _ s hs => Instruction.allows_of_isPlain h fun _ ht => hX _ _ ⟨s, hs, ht⟩

theorem triple_path {is : List Instruction} (h : ∀ i ∈ is, i.isPlain)
    (hE : E.InScope (m.program.scopeAt p)) : Triple m Q L p E is (E.after (m.Path is)) := by
  induction is generalizing p E with
  | nil => exact .nil fun ms s hs => ⟨s, hs, rfl⟩
  | cons i is ih =>
    obtain ⟨hi, h⟩ := List.forall_mem_cons.1 h
    refine .of_codeAt fun hc => ?_
    have hs : m.program.scopeAt (p + 1) = m.program.scopeAt p := by
      rw [CodeAt.scopeAt_succ hc.head, Instruction.scope_of_isLeaf (Instruction.isLeaf_of_isPlain hi)]
    have hx : Triple m Q L p E [i] (E.after (m.Passes i)) := triple_plain hi hE
    have hy := ih (E := E.after (m.Passes i)) (p := p + 1) h (by rw [hs]; exact hE.after _)
    refine (hx.append hy).conseq (fun _ _ h => h) ?_ fun _ _ _ h => h
    rintro ms t ⟨u, ⟨s, hs, hu⟩, ht⟩
    exact ⟨s, hs, u, hu, ht⟩

end

namespace Emit

variable {m : Matcher} {Q : Promise} {a b : Emit} {n k : Nat} {R S : Nat → Nat → Prop}
  {c c' : Counters} {code : List Instruction}

theorem meets_instr {i : Instruction} (h : i.isPlain) : (instr i).Meets m Q (m.Passes i) := by
  refine ⟨fun {c c' code} hc _ {L p E} hE _ => ?_⟩
  obtain ⟨rfl, rfl⟩ := instr_eq_ok hc
  exact triple_plain h hE

theorem Meets.append (ha : a.Regular n) (hb : b.Regular k) (hx : a.Meets m Q R)
    (hy : b.Meets m Q S) : (a.append b).Meets m Q (Comp R S) := by
  refine ⟨fun {c c' code} hc hp {L p E} hE hF => ?_⟩
  obtain ⟨xs, d, ys, hxs, hys, rfl⟩ := append_eq_ok hc
  refine .of_codeAt fun hc => ?_
  have hs := hc.left.scopeAt_balanced (ha.balanced hxs)
  have h₁ := hx.triple hxs ((hb.extends_ hys).repeats.trans hp) (L := L) hE hF
  have h₂ := hy.triple hys hp (L := L) (p := p + xs.length) (by rw [hs]; exact hE.after R)
    (hF.after.mono (ha.extends_ hxs))
  refine (h₁.append h₂).conseq (fun _ _ h => h) ?_ fun _ _ _ h => h
  rintro ms t ⟨u, ⟨s, hs, hu⟩, ht⟩
  exact ⟨s, hs, u, hu, ht⟩

/-- 後読みの命令に着いたときの約束は、どこに置いても、断片の始まりの約束から出る。 -/
theorem Meets.behind (h : a.Meets m Q R) {chars : Nat}
    (hQ : ∀ {c c' : Counters} {code : List Instruction},
      ((instr (.lookBehind chars)).append a) c = .ok (code, c') → c'.repeats <+: m.program.repeats.toList →
      ∀ {p : Nat} {E : Assertion}, CodeAt m.program p code → E.InScope (m.program.scopeAt p) → E.Fresh c →
      ∀ ms s, E ms s → Q.behind p ms s) :
    ((instr (.lookBehind chars)).append a).Meets m Q (Comp (m.Passes (.lookBehind chars)) R) := by
  refine ⟨fun {c c' code} hc hp {L p E} hE hF => ?_⟩
  obtain ⟨xs, d, ys, hxs, hys, rfl⟩ := append_eq_ok hc
  obtain ⟨rfl, rfl⟩ := instr_eq_ok hxs
  refine .of_codeAt fun hcode => ?_
  have hs : m.program.scopeAt (p + 1) = m.program.scopeAt p := CodeAt.scopeAt_succ hcode.head
  have h₁ : Triple m Q L p E [.lookBehind chars] (E.after (m.Passes (.lookBehind chars))) :=
    .instr hE fun T hX _ ms s hms => ⟨hQ hc hp hcode hE hF ms s hms, fun t ht => hX _ _ ⟨s, hms, ht⟩⟩
  have h₂ := h.triple hys hp (L := L) (p := p + 1) (E := E.after (m.Passes (.lookBehind chars)))
    (hs ▸ hE.after _) hF.after
  refine (h₁.append h₂).conseq (fun _ _ h => h) ?_ fun _ _ _ h => h
  rintro ms t ⟨u, ⟨s, hs, hu⟩, ht⟩
  exact ⟨s, hs, u, hu, ht⟩

theorem Meets.mono (hR : ∀ s t, R s t → S s t) (h : a.Meets m Q R) : a.Meets m Q S := by
  refine ⟨fun {c c' code} hc hp {L p E} hE hF => ?_⟩
  refine (h.triple hc hp hE hF).conseq (fun _ _ h => h) ?_ fun _ _ _ h => h
  rintro ms t ⟨s, hs, ht⟩
  exact ⟨s, hs, hR _ _ ht⟩

theorem Meets.skip : Emit.Meets m Q (fun c => .ok ([], c)) Eq := by
  refine ⟨fun {c c' code} hc _ {L p E} _ _ => ?_⟩
  cases hc
  exact .nil fun ms s hs => ⟨s, hs, rfl⟩

theorem Meets.times (ha : a.Regular n) (h : a.Meets m Q R) (k : Nat) :
    (a.times k).Meets m Q (Iterated R k) := by
  induction k with
  | zero => exact Meets.skip
  | succ k ih => exact h.append ha (ha.times k) ih

/-- 省略できる本体は、高々 `k` 回続く。 -/
theorem Meets.optionalTimes (ha : a.Regular n) (h : a.Meets m Q R) (k : Nat) :
    (a.optionalTimes n k).Meets m Q fun s t => ∃ j, j ≤ k ∧ Iterated R j s t := by
  induction k with
  | zero => exact Meets.skip.mono fun s t hst => ⟨0, Nat.le_refl _, hst⟩
  | succ k ih =>
    refine ⟨fun {c c' code} hc hp {L p E} hE hF => ?_⟩
    obtain ⟨body, d, rest, hb, hr, rfl⟩ := optionalTimes_succ_eq_ok hc
    have hrest := ha.optionalTimes k
    refine .of_codeAt fun hc => ?_
    have hs : m.program.scopeAt (p + 1) = m.program.scopeAt p := CodeAt.scopeAt_succ hc.head
    have hs' := hc.tail.left.scopeAt_balanced (ha.balanced hb)
    refine .cons E (E.after R) (.instr hE fun T hX hL ms s hs => ?_) ?_ ?_
    · -- 分岐は全体の終わりへ飛ぶ。
      refine ⟨hX _ _ hs, p + 1 + body.length + rest.length, ?_, ?_⟩
      · rw [ha.length_eq hb, hrest.length_eq hr, Nat.succ_mul, Nat.mul_succ]
        omega
      · exact hL _ _ _ (.inr (.inr (.inr (.inr ⟨rfl, s, hs, 0, Nat.zero_le _, rfl⟩))))
    · exact h.triple hb ((hrest.extends_ hr).repeats.trans hp) (by rw [hs]; exact hE) hF
    · refine (ih.triple hr hp (by rw [hs', hs]; exact hE.after R) (hF.after.mono (ha.extends_ hb))).conseq
        (fun _ _ h => h) ?_ fun _ _ _ h => h
      rintro ms t ⟨u, ⟨s, hs, hu⟩, j, hj, ht⟩
      exact ⟨s, hs, j + 1, Nat.succ_le_succ hj, u, hu, ht⟩

/-- 検査で挟んだ本体。空に合えば、すぐ後の輪を回す命令を飛ばして抜ける。 -/
theorem Meets.guarded {empty : EmptyBody} (ha : a.Regular n) (h : a.Meets m Q R)
    (hc : guarded empty a c = .ok (code, c')) (hp : c'.repeats <+: m.program.repeats.toList)
    {L : Nat → Assertion} {p : Nat} {E : Assertion} (hE : E.InScope (m.program.scopeAt p))
    (hF : E.Fresh c) (hnext : (m.program.code[p + code.length]?).any Matcher.isLoopEnd)
    (hL : ∀ ms s, E ms s → R s s → Exits L (p + code.length + 1) ms s) :
    Triple m Q L p E code (E.after R) := by
  rcases guarded_eq_ok hc with ⟨-, hb⟩ | ⟨-, body, captures, hb, rfl⟩
  · exact h.triple hb hp hE hF
  · refine .of_codeAt fun hc => ?_
    have hs : m.program.scopeAt (p + 1) = .nullCheck c.nullChecks :: m.program.scopeAt p :=
      CodeAt.scopeAt_succ hc.head
    have hs' := hc.tail.left.scopeAt_balanced (ha.balanced hb)
    let inner : Assertion := fun ms s => ∃ snap ms', ms = .nullCheck c.nullChecks s snap :: ms' ∧ E ms' s
    have hopen : inner.Opens E (.nullCheck c.nullChecks) :=
      fun _ s ⟨snap, ms, he, hs⟩ => ⟨_, s, ms, he, rfl, hs⟩
    have hin : inner.InScope (m.program.scopeAt (p + 1)) := hs ▸ hopen.inScope hE
    have hinF : inner.Fresh { c with nullChecks := c.nullChecks + 1 } :=
      hopen.fresh hF ⟨List.prefix_refl _, Nat.le_succ _⟩ (fun _ h => by cases h)
        fun id h => by cases h; exact Nat.lt_succ_self _
    refine .cons inner (inner.after R) (.instr hE ?_) (h.triple hb hp hin hinF) (.instr ?_ ?_)
    · exact fun T hX _ ms s hs snap => hX _ _ ⟨snap, ms, rfl, hs⟩
    · rw [hs']
      exact hin.after R
    · rintro T hX hT _ t ⟨s, ⟨snap, ms, rfl, hs⟩, hst⟩
      refine ⟨s, snap, ms, rfl, hF.leaves_nullCheck hs, hX _ _ ⟨s, hs, hst⟩, ?_⟩
      rintro rfl
      have hlen : (Instruction.nullCheckStart c.nullChecks captures ::
          (body ++ [.nullCheckEnd c.nullChecks captures])).length = body.length + 2 := by simp
      rw [hlen] at hnext hL
      rw [show p + 1 + body.length + 1 = p + (body.length + 2) by omega,
        show p + 1 + body.length + 2 = p + (body.length + 2) + 1 by omega]
      exact ⟨hnext, (hL ms s hs hst).mono fun q ms s h => hT _ _ _ (.inl h)⟩

/-- 輪を、頭と本体と尾に分ける。 -/
def ringBlocks (l : Loop) (body : List Instruction) (B H : Assertion) : Blocks :=
  [([ringHead l body.length], B), (body, H), ([ringTail l body.length], H)]

/-- 輪。頭と尾で `H`、本体の始まりで `B` が成り立つ。 -/
theorem Meets.ring_linked {l : Loop} {body : List Instruction} (ha : a.Regular n)
    (h : a.Meets m Q R) (hb : Emit.guarded l.emptyBody a c = .ok (body, c'))
    (hp : c'.repeats <+: m.program.repeats.toList) {Λ : Nat → Assertion} {p : Nat} {B H : Assertion}
    (hc : CodeAt m.program p (ringHead l body.length :: (body ++ [ringTail l body.length])))
    (hB : B.InScope (m.program.scopeAt p)) (hH : H.InScope (m.program.scopeAt p)) (hF : B.Fresh c)
    (hHB : ∀ ms s, H ms s → B ms s) (hBH : ∀ ms s, B.after R ms s → H ms s)
    (hΛ : ∀ q ms s, Blocks.labels p H (ringBlocks l body B H) q ms s → Λ q ms s) :
    Blocks.Linked m Q Λ p H (ringBlocks l body B H) := by
  have hs : m.program.scopeAt (p + 1) = m.program.scopeAt p := by
    rw [CodeAt.scopeAt_succ hc.head, Regular.scope_ringHead]
  have hs' := hc.tail.left.scopeAt_balanced ((ha.guarded l.emptyBody).balanced hb)
  refine ⟨.instr hH fun T hX hT ms s hs => ?_, ?_, .instr ?_ fun T hX hT ms s hs => ?_, trivial⟩
  · have hend : Reaches T p ↑(body.length + 1) ms s :=
      ⟨p + 1 + body.length + 1, by omega, hT _ _ _ (hΛ _ _ _ (.inr (.inr (.inr ⟨rfl, hs⟩))))⟩
    unfold ringHead enter
    split
    · split
      · exact ⟨hX _ _ (hHB _ _ hs), hend⟩
      · exact ⟨hX _ _ (hHB _ _ hs), hend⟩
      · exact ⟨hX _ _ (hHB _ _ hs), hend⟩
    · exact ⟨p + 1 + body.length, by omega, hT _ _ _ (hΛ _ _ _ (.inr (.inr (.inl ⟨rfl, hs⟩))))⟩
  · have hnext : (m.program.code[p + 1 + body.length]?).any Matcher.isLoopEnd := by
      rw [hc.tail.right.head]
      unfold ringTail
      split <;> rfl
    refine (Meets.guarded ha h hb hp (hs ▸ hB) hF hnext ?_).conseq
      (fun _ _ h => h) hBH fun _ _ _ h => h
    exact fun ms s hs hR => .inl (hΛ _ _ _ (.inr (.inr (.inr ⟨rfl, hBH _ _ ⟨s, hs, hR⟩⟩))))
  · change H.InScope (m.program.scopeAt (p + 1 + body.length))
    rw [hs', hs]
    exact hH
  · change (ringTail l body.length).Allows m Q T (p + 1 + body.length) ms s
    unfold ringTail
    split
    · exact ⟨p, by omega, hT _ _ _ (hΛ _ _ _ (.inl ⟨rfl, hs⟩))⟩
    · exact ⟨hX _ _ hs, p + 1, by omega, hT _ _ _ (hΛ _ _ _ (.inr (.inl ⟨rfl, hHB _ _ hs⟩)))⟩

/-- 輪は、本体を何回でも続ける。 -/
theorem Meets.ring (ha : a.Regular n) (h : a.Meets m Q R) (l : Loop) :
    (a.ring l n).Meets m Q fun s t => ∃ k, Iterated R k s t := by
  refine ⟨fun {c c' code} hc hp {L p E} hE hF => ?_⟩
  obtain ⟨body, hb, rfl⟩ := ring_eq_ok hc
  rw [← (ha.guarded l.emptyBody).length_eq hb]
  let H : Assertion := E.after fun s t => ∃ k, Iterated R k s t
  have hH : H.InScope (m.program.scopeAt p) := hE.after _
  have hRH : ∀ ms s, H.after R ms s → H ms s := by
    rintro ms t ⟨u, ⟨s, hs, k, hk⟩, ht⟩
    exact ⟨s, hs, k + 1, hk.snoc ht⟩
  refine .of_codeAt fun hc => .conseq (E := H) (X := H) (L := L) ?_ (fun _ _ h => h)
    (fun _ _ _ h => h) (.blocks (ringBlocks l body H H) (by simp [ringBlocks, Blocks.code]) ?_)
  · exact fun ms s hs => ⟨s, hs, 0, rfl⟩
  · exact Meets.ring_linked ha h hb hp hc hH hH hF.after (fun _ _ h => h) hRH fun _ _ _ h => .inr h

/-- 輪の本体へ飛び込むと、本体を少なくとも一回続ける。 -/
theorem Meets.ring_jumpIn (ha : a.Regular n) (h : a.Meets m Q R) (l : Loop) :
    ((instr (.jump 1)).append (a.ring l n)).Meets m Q fun s t => ∃ k, 1 ≤ k ∧ Iterated R k s t := by
  refine ⟨fun {c c' code} hc hp {L p E} hE hF => ?_⟩
  obtain ⟨xs, d, ys, hx, hy, rfl⟩ := append_eq_ok hc
  obtain ⟨rfl, rfl⟩ := instr_eq_ok hx
  obtain ⟨body, hb, rfl⟩ := ring_eq_ok hy
  rw [← (ha.guarded l.emptyBody).length_eq hb]
  let B : Assertion := E.after fun s t => ∃ k, Iterated R k s t
  let H : Assertion := E.after fun s t => ∃ k, 1 ≤ k ∧ Iterated R k s t
  refine .of_codeAt fun hc => ?_
  have hs : m.program.scopeAt (p + 1) = m.program.scopeAt p := CodeAt.scopeAt_succ hc.head
  refine .blocks (([.jump 1], H) :: ringBlocks l body B H) (by simp [ringBlocks, Blocks.code])
    ⟨.instr hE fun T _ hT ms s hs => ?_, ?_⟩
  · exact ⟨p + 2, by omega, hT _ _ _ (.inr (.inr (.inr (.inl ⟨rfl, s, hs, 0, rfl⟩))))⟩
  · refine Meets.ring_linked ha h hb hp hc.tail ?_ ?_ hF.after ?_ ?_ fun _ _ _ h => .inr (.inr h)
    · exact hs ▸ hE.after _
    · exact hs ▸ hE.after _
    · rintro ms t ⟨s, hs, k, _, hk⟩
      exact ⟨s, hs, k, hk⟩
    · rintro ms t ⟨u, ⟨s, hs, k, hk⟩, ht⟩
      exact ⟨s, hs, k + 1, Nat.succ_pos k, hk.snoc ht⟩

/-- 数える繰り返し。空に合って途中で抜けたときは、空の一回を下限まで重ねたのと同じである。 -/
theorem Meets.counted (ha : a.Regular n) (h : a.Meets m Q R) {l : Loop}
    (hl : ∀ u ∈ l.upper, l.lower ≤ u ∧ 0 < u) : (a.counted l n).Meets m Q (l.Turns R) := by
  refine ⟨fun {c c' code} hc hp {L p E} hE hF => ?_⟩
  obtain ⟨body, hb, rfl⟩ := counted_eq_ok hc
  have hg := ha.guarded l.emptyBody
  rw [← hg.length_eq hb]
  refine .of_codeAt fun hc => ?_
  have hs : m.program.scopeAt (p + 1) = .counter c.repeats.length :: m.program.scopeAt p :=
    CodeAt.scopeAt_succ hc.head
  have hs' := hc.tail.left.scopeAt_balanced (hg.balanced hb)
  have hid : m.program.repeats[c.repeats.length]? = some (l.lower, l.upper) := by
    obtain ⟨rest, hrest⟩ := (hg.extends_ hb).repeats.trans hp
    rw [← Array.getElem?_toList, ← hrest]
    simp
  let inner : Assertion := fun ms s => ∃ k ms', ms = .repeatStart c.repeats.length (p + 1) k :: ms' ∧
    (∀ u ∈ l.upper, k < u) ∧ E.after (Iterated R k) ms' s
  have hopen : inner.Opens E (.counter c.repeats.length) :=
    fun _ _ ⟨k, ms, he, _, s, hs, _⟩ => ⟨_, s, ms, he, rfl, hs⟩
  have hin : inner.InScope (m.program.scopeAt (p + 1)) := hs ▸ hopen.inScope hE
  have hinF : inner.Fresh { c with repeats := c.repeats ++ [(l.lower, l.upper)] } :=
    hopen.fresh hF ⟨List.prefix_append .., Nat.le_refl _⟩ (fun id h => by cases h; simp)
      fun _ h => by cases h
  have hend {q k ms s} (hk : E.after (Iterated R k) ms s) (hle : l.lower ≤ k)
      (hu : ∀ u ∈ l.upper, k ≤ u) (hq : q = p + 1 + body.length + 1) :
      cornered L p body.length 1 E inner (inner.after R) (E.after (l.Turns R)) q ms s := by
    obtain ⟨s₀, hs₀, hk⟩ := hk
    exact .inr (.inr (.inr (.inr ⟨hq, s₀, hs₀, k, hle, hu, hk⟩)))
  refine .cons inner (inner.after R) (.instr hE fun T hX hT ms s hs => ?_) ?_
    (.instr (by rw [hs']; exact hin.after R) ?_)
  · refine ⟨l.lower, l.upper, hid, hF.leaves_counter hs, ?_, p + 1 + body.length + 1, by omega, ?_⟩
    · exact hX _ _ ⟨0, ms, rfl, fun u hu => (hl u hu).2, s, hs, rfl⟩
    · intro h0
      exact hT _ _ _ (hend (k := 0) ⟨s, hs, rfl⟩ (Nat.le_of_eq h0) (fun _ _ => Nat.zero_le _) rfl)
  · have hnext : (m.program.code[p + 1 + body.length]?).any Matcher.isLoopEnd := by
      rw [hc.tail.right.head]
      rfl
    refine Meets.guarded ha h hb hp hin hinF hnext ?_
    rintro _ t ⟨k, ms, rfl, hk, s, hs, hst⟩ hR
    refine .inr ⟨_, _, ms, rfl, rfl, hF.leaves_counter hs, hend (k := k + (l.lower - k)) ?_ ?_ ?_ rfl⟩
    · exact ⟨s, hs, hst.add (.replicate hR _)⟩
    · omega
    · intro u hu
      have := hk u hu
      have := hl u hu
      omega
  · rintro T hX hT _ t ⟨u, ⟨k, ms, rfl, hk, s, hs, hsu⟩, hut⟩
    refine ⟨l.lower, l.upper, p + 1, k, ms, hid, rfl, hF.leaves_counter hs, hk, fun hm => ?_,
      fun hx => ?_⟩
    · exact hT _ _ _ (.inr (.inr (.inl ⟨rfl, k + 1, ms, rfl, hm, s, hs, hsu.snoc hut⟩)))
    · refine hX _ _ ⟨s, hs, k + 1, ?_, hk, hsu.snoc hut⟩
      rcases hx with hx | hx
      · exact hx
      · exact (hl _ hx).1

/-- 欲張りでない省略可能な本体。 -/
theorem Meets.lazyOptional (ha : a.Regular n) (h : a.Meets m Q R) :
    ((instr (.push 1)).append ((jumpTo .jump n).append a)).Meets m Q fun s t => s = t ∨ R s t := by
  refine ⟨fun {c c' code} hc hp {L p E} hE hF => ?_⟩
  obtain ⟨xs, d, ys, hx, hy, rfl⟩ := append_eq_ok hc
  obtain ⟨rfl, rfl⟩ := instr_eq_ok hx
  obtain ⟨zs, d, ws, hz, hw, rfl⟩ := append_eq_ok hy
  obtain ⟨rfl, rfl⟩ := jumpTo_eq_ok hz
  refine .of_codeAt fun hc => ?_
  have hs : m.program.scopeAt (p + 1) = m.program.scopeAt p := CodeAt.scopeAt_succ hc.head
  have hs' : m.program.scopeAt (p + 1 + 1) = m.program.scopeAt (p + 1) :=
    CodeAt.scopeAt_succ hc.tail.head
  change Triple m Q L p E (.push 1 :: ([.jump ↑n] ++ ws)) _
  refine .cons E E (.instr hE fun T hX hT ms s hs => ?_) (.instr (hs ▸ hE) fun T _ hT ms s hs => ?_) ?_
  · exact ⟨hX _ _ hs, p + 2, by omega, hT _ _ _ (.inr (.inr (.inr (.inl ⟨rfl, hs⟩))))⟩
  · refine ⟨p + 2 + n, by omega, hT _ _ _ (.inr (.inr (.inr (.inr ⟨?_, s, hs, .inl rfl⟩))))⟩
    rw [ha.length_eq hw]
    rfl
  · refine (h.triple hw hp (by rw [← hs, ← hs'] at hE; exact hE) hF).conseq (fun _ _ h => h) ?_
      fun _ _ _ h => h
    rintro ms t ⟨s, hs, hst⟩
    exact ⟨s, hs, .inr hst⟩

/-- 任意の文字の繰り返しの命令は、一文字を何回でも続ける。 -/
theorem meets_anyStar (newline : Bool) (peek : Option UInt8) :
    (instr (.anyStar newline peek)).Meets m Q fun s t => ∃ k, Iterated (m.Passes (.any newline)) k s t := by
  refine ⟨fun {c c' code} hc _ {L p E} hE _ => ?_⟩
  obtain ⟨rfl, rfl⟩ := instr_eq_ok hc
  exact .instr hE fun T hX _ ms s hs k t ht => hX _ _ ⟨s, hs, k, ht⟩

/-- どの開き方でも、繰り返しは許された回数だけ本体を続ける。 -/
theorem Meets.loop (ha : a.Regular n) (h : a.Meets m Q R) (options : Options) {l : Loop}
    {body : Node} {shape : LoopShape} (hf : shape.Fits l body n) (hl : ∀ u ∈ l.upper, l.lower ≤ u)
    (h0 : n = 0 → ∀ s, R s s)
    (hany : body = .any → R = m.Passes (.any (options.contains .multiline))) :
    (a.loop options l n shape).Meets m Q (l.Turns R) := by
  refine Meets.mono (R := shape.Turns l R) (fun s t => hf.turns hl h0) ?_
  cases shape with
  | nothing => exact .skip
  | anyStar =>
    obtain rfl := hany hf.1
    exact (h.times ha l.lower).append (ha.times _) (.instr _ fun _ => rfl) (meets_anyStar ..)
  | ring copies jumpIn =>
    cases jumpIn with
    | false => exact (h.times ha copies).append (ha.times _) (ha.ring l) (h.ring ha l)
    | true => exact h.ring_jumpIn ha l
  | unrolled required extra =>
    exact (h.times ha required).append (ha.times _) (ha.optionalTimes _) (h.optionalTimes ha _)
  | lazyOptional => exact h.lazyOptional ha
  | counted =>
    refine h.counted ha fun u hu => ⟨hl u hu, Nat.pos_of_ne_zero fun h0 => hf.2 ?_⟩
    rw [← h0]
    exact hu

/-! ## 括弧 -/

theorem Meets.capture (ha : a.Regular n) (h : a.Meets m Q R) {i : Nat} (undo : Bool)
    (hi : i ≤ m.program.groups) :
    (CodeEnv.between (.memStart i undo) (.memEnd i undo) a).Meets m Q R := by
  refine ⟨fun {c c' code} hc hp {L p E} hE hF => ?_⟩
  obtain ⟨body, hb, rfl⟩ := between_eq_ok hc
  refine .of_codeAt fun hc => ?_
  have hs : m.program.scopeAt (p + 1) = m.program.scopeAt p := CodeAt.scopeAt_succ hc.head
  have hs' := hc.tail.left.scopeAt_balanced (ha.balanced hb)
  refine .cons E (E.after R) (.instr hE fun T hX _ ms s hs => ⟨hi, hX _ _ hs⟩)
    (h.triple hb hp (hs ▸ hE) hF) (.instr ?_ fun T hX _ ms s hs => ⟨hi, hX _ _ hs⟩)
  rw [hs', hs]
  exact hE.after R

theorem Meets.atomic (ha : a.Regular n) (h : a.Meets m Q R) :
    (CodeEnv.between .pushAtomic .popAtomic a).Meets m Q R := by
  refine ⟨fun {c c' code} hc hp {L p E} hE hF => ?_⟩
  obtain ⟨body, hb, rfl⟩ := between_eq_ok hc
  refine .of_codeAt fun hc => ?_
  have hs : m.program.scopeAt (p + 1) = .atomic :: m.program.scopeAt p :=
    CodeAt.scopeAt_succ hc.head
  have hs' := hc.tail.left.scopeAt_balanced (ha.balanced hb)
  let inner : Assertion := fun ms s => ∃ ms', ms = .atomic :: ms' ∧ E ms' s
  have hopen : inner.Opens E .atomic := fun _ s ⟨ms, he, hs⟩ => ⟨_, s, ms, he, rfl, hs⟩
  have hin := hopen.inScope hE
  rw [← hs] at hin
  refine .cons inner (inner.after R) (.instr hE fun T hX _ ms s hs => hX _ _ ⟨ms, rfl, hs⟩)
    (h.triple hb hp hin (hopen.fresh hF (.refl c) (fun _ h => by cases h) fun _ h => by cases h))
    (.instr (hs' ▸ hin.after R) ?_)
  rintro T hX _ _ t ⟨s, ⟨ms, rfl, hs⟩, hst⟩
  exact ⟨ms, rfl, hX _ _ ⟨s, hs, hst⟩⟩

theorem Meets.ahead (ha : a.Regular n) (h : a.Meets m Q R) :
    (CodeEnv.between .pushPos .popPos a).Meets m Q Eq := by
  refine ⟨fun {c c' code} hc hp {L p E} hE hF => ?_⟩
  obtain ⟨body, hb, rfl⟩ := between_eq_ok hc
  refine .of_codeAt fun hc => ?_
  have hs : m.program.scopeAt (p + 1) = .ahead :: m.program.scopeAt p := CodeAt.scopeAt_succ hc.head
  have hs' := hc.tail.left.scopeAt_balanced (ha.balanced hb)
  let inner : Assertion := fun ms s => ∃ ms', ms = .ahead s :: ms' ∧ E ms' s
  have hopen : inner.Opens E .ahead := fun _ s ⟨ms, he, hs⟩ => ⟨_, s, ms, he, rfl, hs⟩
  have hin := hopen.inScope hE
  rw [← hs] at hin
  refine .cons inner (inner.after R) (.instr hE fun T hX _ ms s hs => hX _ _ ⟨ms, rfl, hs⟩)
    (h.triple hb hp hin (hopen.fresh hF (.refl c) (fun _ h => by cases h) fun _ h => by cases h))
    (.instr (hs' ▸ hin.after R) ?_)
  rintro T hX _ _ t ⟨s, ⟨ms, rfl, hs⟩, _⟩
  exact ⟨s, ms, rfl, hX _ _ ⟨s, hs, rfl⟩⟩

theorem Meets.notAhead (ha : a.Regular n) (h : a.Meets m Q R) :
    (CodeEnv.between (.pushPosNot ↑(n + 1)) .failPos a).Meets m Q Eq := by
  refine ⟨fun {c c' code} hc hp {L p E} hE hF => ?_⟩
  obtain ⟨body, hb, rfl⟩ := between_eq_ok hc
  rw [← ha.length_eq hb]
  refine .of_codeAt fun hc => ?_
  have hs : m.program.scopeAt (p + 1) = .posNot :: m.program.scopeAt p :=
    CodeAt.scopeAt_succ hc.head
  have hs' := hc.tail.left.scopeAt_balanced (ha.balanced hb)
  let inner : Assertion := fun ms s => ∃ t ms', ms = .posNot t s :: ms' ∧ E ms' s
  have hopen : inner.Opens E .posNot := fun _ s ⟨_, ms, he, hs⟩ => ⟨_, s, ms, he, rfl, hs⟩
  have hin := hopen.inScope hE
  rw [← hs] at hin
  refine .cons inner (inner.after R) (.instr hE fun T hX hT ms s hs => ?_)
    (h.triple hb hp hin (hopen.fresh hF (.refl c) (fun _ h => by cases h) fun _ h => by cases h))
    (.instr (hs' ▸ hin.after R) ?_)
  · exact ⟨p + 1 + body.length + 1, by omega, hT _ _ _ (.inr (.inr (.inr (.inr ⟨rfl, s, hs, rfl⟩)))),
      hX _ _ ⟨_, ms, rfl, hs⟩⟩
  · rintro T _ _ _ t ⟨s, ⟨q, ms, rfl, _⟩, _⟩
    exact ⟨q, s, ms, rfl⟩

theorem Meets.notBehind (ha : a.Regular n) (h : a.Meets m Q R) (chars : Nat) :
    (CodeEnv.between (.pushLookBehindNot ↑(n + 1) chars) .failLookBehindNot a).Meets m Q Eq := by
  refine ⟨fun {c c' code} hc hp {L p E} hE hF => ?_⟩
  obtain ⟨body, hb, rfl⟩ := between_eq_ok hc
  rw [← ha.length_eq hb]
  refine .of_codeAt fun hc => ?_
  have hs : m.program.scopeAt (p + 1) = .behindNot :: m.program.scopeAt p :=
    CodeAt.scopeAt_succ hc.head
  have hs' := hc.tail.left.scopeAt_balanced (ha.balanced hb)
  let inner : Assertion := fun ms _ => ∃ t s ms', ms = .behindNot t s :: ms' ∧ E ms' s
  have hopen : inner.Opens E .behindNot := fun _ _ ⟨_, s, ms, he, hs⟩ => ⟨_, s, ms, he, rfl, hs⟩
  have hin := hopen.inScope hE
  rw [← hs] at hin
  refine .cons inner (inner.after R) (.instr hE fun T hX hT ms s hs => ?_)
    (h.triple hb hp hin (hopen.fresh hF (.refl c) (fun _ h => by cases h) fun _ h => by cases h))
    (.instr (hs' ▸ hin.after R) ?_)
  · exact ⟨p + 1 + body.length + 1, by omega, hT _ _ _ (.inr (.inr (.inr (.inr ⟨rfl, s, hs, rfl⟩)))),
      fun q _ => hX _ _ ⟨_, s, ms, rfl, hs⟩⟩
  · rintro T _ _ _ t ⟨_, ⟨q, s, ms, rfl, _⟩, _⟩
    exact ⟨q, s, ms, rfl⟩

/-- 二つの枝の選択。 -/
theorem Meets.either (ha : a.Regular n) (hb : b.Regular k) (hx : a.Meets m Q R)
    (hy : b.Meets m Q S) :
    ((jumpTo .push (n + 1)).append (a.append ((jumpTo .jump k).append b))).Meets m Q
      fun s t => R s t ∨ S s t := by
  refine ⟨fun {c c' code} hc hp {L p E} hE hF => ?_⟩
  obtain ⟨us, d, vs, hu, hv, rfl⟩ := append_eq_ok hc
  obtain ⟨rfl, rfl⟩ := jumpTo_eq_ok hu
  obtain ⟨xs, d, ws, hxs, hw, rfl⟩ := append_eq_ok hv
  obtain ⟨zs, d', ys, hz, hys, rfl⟩ := append_eq_ok hw
  obtain ⟨rfl, rfl⟩ := jumpTo_eq_ok hz
  rw [← ha.length_eq hxs, ← hb.length_eq hys]
  change Triple m Q L p E (.push ↑(xs.length + 1) :: (xs ++ .jump ↑ys.length :: ys)) _
  refine .of_codeAt fun hc => ?_
  have hs : m.program.scopeAt (p + 1) = m.program.scopeAt p := CodeAt.scopeAt_succ hc.head
  have hs' := hc.tail.left.scopeAt_balanced (ha.balanced hxs)
  have hs'' : m.program.scopeAt (p + 1 + xs.length + 1) = m.program.scopeAt (p + 1 + xs.length) :=
    CodeAt.scopeAt_succ hc.tail.right.head
  refine .blocks [([.push ↑(xs.length + 1)], E), (xs, E.after R), ([.jump ↑ys.length], E),
    (ys, E.after fun s t => R s t ∨ S s t)] (by simp [Blocks.code])
    ⟨.instr hE fun T hX hT ms s hs => ?_, ?_, .instr ?_ fun T _ hT ms t ht => ?_, ?_, trivial⟩
  · refine ⟨hX _ _ hs, p + 1 + xs.length + 1, by omega, hT _ _ _ ?_⟩
    exact .inr (.inr (.inr (.inr (.inl ⟨rfl, hs⟩))))
  · exact hx.triple hxs ((hb.extends_ hys).repeats.trans hp) (hs ▸ hE) hF
  · change (E.after R).InScope (m.program.scopeAt (p + 1 + xs.length))
    rw [hs', hs]
    exact hE.after R
  · obtain ⟨s, hs, ht⟩ := ht
    refine ⟨p + 1 + xs.length + 1 + ys.length, ?_, hT _ _ _ ?_⟩
    · simp only [List.length_singleton]
      omega
    · exact .inr (.inr (.inr (.inr (.inr ⟨rfl, s, hs, .inl ht⟩))))
  · refine (hy.triple hys hp ?_ (hF.mono (ha.extends_ hxs))).conseq (fun _ _ h => h) ?_
      fun _ _ _ h => h
    · change E.InScope (m.program.scopeAt (p + 1 + xs.length + 1))
      rw [hs'', hs', hs]
      exact hE
    · rintro ms t ⟨s, hs, ht⟩
      exact ⟨s, hs, .inr ht⟩

end Emit

/-! ## 節 -/

namespace CodeEnv

variable {env : CodeEnv} {m : Matcher} {Q : Promise}

mutual
/-- 命令のない節は、空に合う。 -/
theorem spans_of_size_eq_zero : (n : Node) → {options : Options} → n.WellFormed m.program.groups →
    env.size options n = .ok 0 → ∀ s, n.Spans env m options s s
  | .empty, _, _, _, _ => rfl
  | .list nodes, _, hw, h, s => spansList_of_size_eq_zero nodes hw h s
  | .alt nodes, _, hw, h, s => spansAlt_of_size_eq_zero nodes hw h s
  | .str bytes, _, _, h, s => by
    obtain ⟨fold, hf, h⟩ := Except.bind_eq_ok h
    have h0 : Literal.code env.encoding fold bytes = [] :=
      List.eq_nil_of_length_eq_zero (Except.ok.inj h)
    refine ⟨fold, hf, ?_⟩
    rw [h0]
    rfl
  | .raw bytes, _, _, h, s => by
    have h0 : Literal.code env.encoding none bytes = [] :=
      List.eq_nil_of_length_eq_zero (Except.ok.inj h)
    unfold Node.Spans
    rw [h0]
    rfl
  | .cclass _, _, _, h, _ => by cases h
  | .word _, _, _, h, _ => by cases h
  | .any, _, _, h, _ => by cases h
  | .anchor _, _, _, h, _ => by cases h
  | .backref _, _, _, h, _ => by cases h
  | .scoped _ body, _, hw, h, s => spans_of_size_eq_zero body hw h s
  | .loop l body, options, hw, h, s => by
    obtain ⟨k, hk, h⟩ := Except.bind_eq_ok h
    have h := Except.ok.inj h
    have hf := LoopShape.of_fits env.expandLimit l body k
    generalize LoopShape.of env.expandLimit l body k = shape at h hf
    cases shape with
    | nothing =>
      rcases hf with rfl | hf
      · exact ⟨l.lower, Nat.le_refl _, hw.1, .replicate (spans_of_size_eq_zero body hw.2 hk s) _⟩
      · exact ⟨0, hw.1 0 hf, fun _ _ => Nat.zero_le _, rfl⟩
    | unrolled required extra =>
      obtain ⟨hk0, -, u, hu, -, rfl, rfl⟩ := hf
      obtain ⟨h0, -⟩ := Nat.add_eq_zero_iff.1 h
      rcases Nat.mul_eq_zero.1 h0 with h0 | h0
      · exact absurd h0 hk0
      · exact ⟨0, Nat.le_of_eq h0, fun _ _ => Nat.zero_le _, rfl⟩
    | _ => simp [LoopShape.total] at h
  | .group kind body, options, hw, h, s => by
    cases kind <;> (obtain ⟨k, hk, h⟩ := Except.bind_eq_ok h; cases h)

theorem spansList_of_size_eq_zero : (ns : List Node) → {options : Options} →
    Node.AllWellFormed m.program.groups ns → env.sizeList options ns = .ok 0 →
    ∀ s, Node.SpansList env m options ns s s
  | [], _, _, _, _ => rfl
  | n :: ns, _, hw, h, s => by
    obtain ⟨k, hk, h⟩ := Except.bind_eq_ok h
    obtain ⟨k', hk', h⟩ := Except.bind_eq_ok h
    obtain ⟨rfl, rfl⟩ := Nat.add_eq_zero_iff.1 (Except.ok.inj h)
    exact ⟨s, spans_of_size_eq_zero n hw.1 hk s, spansList_of_size_eq_zero ns hw.2 hk' s⟩

theorem spansAlt_of_size_eq_zero : (ns : List Node) → {options : Options} →
    Node.AllWellFormed m.program.groups ns → env.sizeAlt options ns = .ok 0 →
    ∀ s, Node.SpansAlt env m options ns s s
  | [], _, _, _, _ => rfl
  | [n], _, hw, h, s => spans_of_size_eq_zero n hw.1 h s
  | n :: n' :: ns, _, _, h, _ => by
    obtain ⟨k, hk, h⟩ := Except.bind_eq_ok h
    obtain ⟨k', hk', h⟩ := Except.bind_eq_ok h
    have := Except.ok.inj h
    omega
end

theorem charsBehind_eq_ok {body : Node} {chars : Nat} (h : env.charsBehind body = .ok chars) :
    body.charCount env.encoding = .fixed chars := by
  unfold charsBehind at h
  split at h
  · rename_i hc
    cases h
    exact hc
  · cases h

theorem leafEnd?_lookBehind {chars s : Nat} {caps : Captures} :
    m.leafEnd? (.lookBehind chars) caps s = m.encoding.stepBack m.text 0 s chars := by
  simp only [Matcher.leafEnd?, Matcher.execute]
  cases m.encoding.stepBack m.text 0 s chars <;> rfl

theorem passes_lookBehind {chars s t : Nat} (h : m.Passes (.lookBehind chars) s t) :
    m.encoding.stepBack m.text 0 s chars = some t := by
  obtain ⟨caps, -, h⟩ := h
  rwa [leafEnd?_lookBehind] at h

/-- `bodies` にある本体の後読みの断片では、その始まりで後読みの約束が成り立つ。 -/
def Honours (env : CodeEnv) (m : Matcher) (bodies : List Node) (Q : Promise) : Prop :=
  ∀ {options : Options} {body : Node}, body ∈ bodies → body.WellFormed m.program.groups →
    ∀ {k : Nat}, env.size options body = .ok k → ∀ {c c' : Counters} {code : List Instruction},
      env.emit options (.group .behind body) c = .ok (code, c') → c'.repeats <+: m.program.repeats.toList →
      ∀ {p : Nat} {E : Assertion}, CodeAt m.program p code → E.InScope (m.program.scopeAt p) → E.Fresh c →
      ∀ ms s, E ms s → Q.behind p ms s

mutual
/-- 節から生成した断片は、節が合いうる範囲の終わりで抜ける。 -/
theorem emit_meets {bodies : List Node} (hQ : env.Honours m bodies Q) : (n : Node) → {options : Options} →
    {k : Nat} → n.behinds ⊆ bodies → n.WellFormed m.program.groups → env.size options n = .ok k →
    (env.emit options n).Meets m Q (n.Spans env m options)
  | .empty, _, _, _, _, _ => .skip
  | .list nodes, _, _, hb, hw, h => emitList_meets hQ nodes hb hw h
  | .alt nodes, _, _, hb, hw, h => emitAlt_meets hQ nodes hb hw h
  | .str bytes, _, _, _, _, _ => by
    refine ⟨fun {c c' code} hc _ {L p E} hE _ => ?_⟩
    obtain ⟨fold, hf, hc⟩ := Except.bind_eq_ok hc
    cases hc
    refine (triple_path (Literal.isPlain_code _ _ _) hE).conseq (fun _ _ h => h) ?_ fun _ _ _ h => h
    rintro ms t ⟨s, hs, ht⟩
    exact ⟨s, hs, fold, hf, ht⟩
  | .raw bytes, _, _, _, _, _ => by
    refine ⟨fun {c c' code} hc _ {L p E} hE _ => ?_⟩
    cases hc
    exact triple_path (Literal.isPlain_code _ _ _) hE
  | .cclass c, _, _, _, _, _ => Emit.meets_instr (isPlain_classInstruction ..)
  | .word _, _, _, _, _, _ => Emit.meets_instr rfl
  | .any, _, _, _, _, _ => Emit.meets_instr rfl
  | .anchor a, _, _, _, _, _ => Emit.meets_instr (isPlain_anchorInstruction ..)
  | .backref _, _, _, _, _, _ => Emit.meets_instr rfl
  | .scoped _ body, _, _, hb, hw, h => emit_meets hQ body hb hw h
  | .loop l body, options, _, hb, hw, h => by
    obtain ⟨k, hk, -⟩ := Except.bind_eq_ok h
    refine ⟨fun {c c' code} hc => ?_⟩
    obtain ⟨k', hk', hc⟩ := Except.bind_eq_ok hc
    cases hk.symm.trans hk'
    refine ((emit_meets hQ body hb hw.2 hk).loop (emit_regular body hk) options
      (LoopShape.of_fits env.expandLimit l body k) hw.1 ?_ ?_).triple hc
    · rintro rfl s
      exact spans_of_size_eq_zero body hw.2 hk s
    · rintro rfl
      rfl
  | .group kind body, options, _, hb, hw, h => by
    cases kind with
    | capture n undo =>
      obtain ⟨k, hk, -⟩ := Except.bind_eq_ok h
      exact (emit_meets hQ body hb hw.2 hk).capture (emit_regular body hk) undo hw.1
    | atomic =>
      obtain ⟨k, hk, -⟩ := Except.bind_eq_ok h
      exact (emit_meets hQ body hb hw.2 hk).atomic (emit_regular body hk)
    | ahead =>
      obtain ⟨k, hk, -⟩ := Except.bind_eq_ok h
      exact (emit_meets hQ body hb hw.2 hk).ahead (emit_regular body hk)
    | notAhead =>
      refine ⟨fun {c c' code} hc => ?_⟩
      obtain ⟨k, hk, hc⟩ := Except.bind_eq_ok hc
      obtain ⟨skip, hs, hc⟩ := Except.bind_eq_ok hc
      rw [relative_eq_ok hs] at hc
      exact ((emit_meets hQ body hb hw.2 hk).notAhead (emit_regular body hk)).triple hc
    | behind =>
      obtain ⟨k, hk, -⟩ := Except.bind_eq_ok h
      obtain ⟨hbody, hb⟩ := List.cons_subset.1 hb
      refine ⟨fun {c c' code} hc => ?_⟩
      obtain ⟨chars, hch, hc⟩ := Except.bind_eq_ok hc
      have hQ' : ∀ {c c' : Counters} {code : List Instruction},
          ((Emit.instr (.lookBehind chars)).append (env.emit options body)) c = .ok (code, c') →
          env.emit options (.group .behind body) c = .ok (code, c') := by
        intro c c' code hc
        rw [emit, hch]
        exact hc
      refine (((emit_meets hQ body hb hw.2 hk).behind fun hc => hQ hbody hw.2 hk (hQ' hc)).mono ?_).triple hc
      rintro s t ⟨p, hp, ht⟩
      exact ⟨chars, p, charsBehind_eq_ok hch, passes_lookBehind hp, ht⟩
    | notBehind =>
      refine ⟨fun {c c' code} hc => ?_⟩
      obtain ⟨chars, hch, hc⟩ := Except.bind_eq_ok hc
      obtain ⟨k, hk, hc⟩ := Except.bind_eq_ok hc
      obtain ⟨skip, hs, hc⟩ := Except.bind_eq_ok hc
      rw [relative_eq_ok hs] at hc
      exact ((emit_meets hQ body hb hw.2 hk).notBehind (emit_regular body hk) chars).triple hc

theorem emitList_meets {bodies : List Node} (hQ : env.Honours m bodies Q) : (ns : List Node) →
    {options : Options} → {k : Nat} → Node.behindsIn ns ⊆ bodies →
    Node.AllWellFormed m.program.groups ns → env.sizeList options ns = .ok k →
    Emit.Meets m Q (env.emitList options ns) (Node.SpansList env m options ns)
  | [], _, _, _, _, _ => .skip
  | n :: ns, _, _, hb, hw, h => by
    obtain ⟨k, hk, h⟩ := Except.bind_eq_ok h
    obtain ⟨k', hk', -⟩ := Except.bind_eq_ok h
    obtain ⟨hn, hns⟩ := List.append_subset.1 hb
    exact (emit_meets hQ n hn hw.1 hk).append (emit_regular n hk) (emitList_regular ns hk')
      (emitList_meets hQ ns hns hw.2 hk')

theorem emitAlt_meets {bodies : List Node} (hQ : env.Honours m bodies Q) : (ns : List Node) →
    {options : Options} → {k : Nat} → Node.behindsIn ns ⊆ bodies →
    Node.AllWellFormed m.program.groups ns → env.sizeAlt options ns = .ok k →
    Emit.Meets m Q (env.emitAlt options ns) (Node.SpansAlt env m options ns)
  | [], _, _, _, _, _ => .skip
  | [n], _, _, hb, hw, h => emit_meets hQ n (List.append_subset.1 hb).1 hw.1 h
  | n :: n' :: ns, _, _, hb, hw, h => by
    obtain ⟨k, hk, h⟩ := Except.bind_eq_ok h
    obtain ⟨k', hk', -⟩ := Except.bind_eq_ok h
    obtain ⟨hn, hns⟩ := List.append_subset.1 hb
    refine ⟨fun {c c' code} hc => ?_⟩
    obtain ⟨size, hs, hc⟩ := Except.bind_eq_ok hc
    obtain ⟨rest, hr, hc⟩ := Except.bind_eq_ok hc
    cases hk.symm.trans hs
    cases hk'.symm.trans hr
    exact ((emit_meets hQ n hn hw.1 hk).either (emit_regular n hk) (emitAlt_regular (n' :: ns) hk')
      (emitAlt_meets hQ (n' :: ns) hns hw.2 hk')).triple hc
end

/-- `p` には `bodies` の一つを本体とする後読みの断片があり、そこから始まる筋は断片の中に留まって、抜けるのは
後読みが合いうる範囲の終わりに限る。 -/
def Passage (env : CodeEnv) (m : Matcher) (bodies : List Node) (p : Nat) : Assertion := fun ms s =>
  ∃ body ∈ bodies, ∃ options code, (∃ c c', env.emit options (.group .behind body) c = .ok (code, c')) ∧
    CodeAt m.program p code ∧ m.Leads p (p + code.length) ms s fun ms' t =>
      ms' = ms ∧ (Node.group .behind body).Spans env m options s t

theorem honours_passage (bodies : List Node) (Q : Nat → Prop) :
    env.Honours m bodies ⟨Q, env.Passage m bodies⟩ := by
  intro options body hbody hw k hk c c' code hc hp p E hcode hE hF ms s hs
  have hemit := hc
  obtain ⟨chars, hchars, hc⟩ := Except.bind_eq_ok hc
  have htrivial : env.Honours m body.behinds ⟨fun _ => False, fun _ _ _ => True⟩ := by
    unfold Honours
    intros
    trivial
  have hmeets : ((Emit.instr (.lookBehind chars)).append (env.emit options body)).Meets m
      ⟨fun _ => False, fun _ _ _ => True⟩ (Comp (m.Passes (.lookBehind chars)) (body.Spans env m options)) :=
    (emit_meets htrivial body (List.Subset.refl _) hw hk).behind fun _ _ _ _ _ _ _ _ _ _ => trivial
  let here : Assertion := fun ms' t => ms' = ms ∧ t = s
  have htriple := hmeets.triple hc hp (L := fun _ _ _ => False) (p := p) (E := here)
    (fun ms' t h => h.1 ▸ hE ms s hs) fun ms' t h => h.1 ▸ hF ms s hs
  have hne : code ≠ [] := by
    obtain ⟨xs, d, ys, hxs, -, rfl⟩ := Emit.append_eq_ok hc
    obtain ⟨rfl, -⟩ := Emit.instr_eq_ok hxs
    simp
  refine ⟨body, hbody, options, code, ⟨c, c', hemit⟩, hcode,
    (htriple.leads hcode hne ⟨rfl, rfl⟩).mono fun ms' t h => ?_⟩
  obtain ⟨u, ⟨rfl, rfl⟩, q, hq, ht⟩ := h
  exact ⟨rfl, chars, q, charsBehind_eq_ok hchars, passes_lookBehind hq, ht⟩

end CodeEnv
end MultibyteRegex

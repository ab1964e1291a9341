import MultibyteRegex.Proofs.Contract
import MultibyteRegex.Proofs.Emission

/-!
# 断片の証明

命令の列の断片に、始まりの約束と終わりの約束を付ける。断片の外への飛び先は、その約束を仮定して
証明し、断片をつなぐときに果たす。
-/

namespace MultibyteRegex

/-- プログラムの `p` から、命令の列 `xs` が並ぶ。 -/
def CodeAt (program : Program) (p : Nat) (xs : List Instruction) : Prop :=
  ∀ j i, xs[j]? = some i → program.code[p + j]? = some i

namespace CodeAt

variable {program : Program} {p : Nat} {xs ys : List Instruction} {i : Instruction}

theorem left (h : CodeAt program p (xs ++ ys)) : CodeAt program p xs := by
  intro j i hj
  have hlt := (List.getElem?_eq_some_iff.1 hj).1
  exact h j i (by rw [List.getElem?_append_left hlt, hj])

theorem right (h : CodeAt program p (xs ++ ys)) : CodeAt program (p + xs.length) ys := by
  intro j i hj
  rw [Nat.add_assoc]
  exact h _ i (by rw [List.getElem?_append_right (by omega), Nat.add_sub_cancel_left, hj])

theorem head (h : CodeAt program p (i :: xs)) : program.code[p]? = some i := h 0 i rfl

theorem tail (h : CodeAt program p (i :: xs)) : CodeAt program (p + 1) xs :=
  @right program p [i] xs h

/-- 命令を過ぎると、開いている括弧や輪が変わる。 -/
theorem scopeAt_succ (h : program.code[p]? = some i) :
    program.scopeAt (p + 1) = i.scope (program.scopeAt p) := by
  unfold Program.scopeAt
  rw [← Array.getElem?_toList] at h
  obtain ⟨hlt, rfl⟩ := List.getElem?_eq_some_iff.1 h
  rw [List.take_succ_eq_append_getElem hlt, List.foldl_append]
  rfl

theorem scopeAt_foldl (h : CodeAt program p xs) :
    program.scopeAt (p + xs.length) = xs.foldl (fun os i => i.scope os) (program.scopeAt p) := by
  induction xs generalizing p with
  | nil => rfl
  | cons i xs ih =>
    rw [List.length_cons, List.foldl_cons, ← scopeAt_succ h.head, ← ih h.tail]
    congr 1
    omega

/-- 釣り合った断片を過ぎると、開いている括弧や輪は元に戻る。 -/
theorem scopeAt_balanced (h : CodeAt program p xs) (hb : Balanced xs) :
    program.scopeAt (p + xs.length) = program.scopeAt p := by rw [h.scopeAt_foldl, hb]

end CodeAt

namespace Assertion

/-- 目印が、`os` の括弧や輪を内から順に表す。 -/
def InScope (E : Assertion) (os : List Opener) : Prop :=
  ∀ ms s, E ms s → ms.map Frame.opener? = os.map some

/-- 約束 `E` の成り立つ位置から、関係 `R` で進んだ位置。 -/
def after (E : Assertion) (R : Nat → Nat → Prop) : Assertion := fun ms s => ∃ u, E ms u ∧ R u s

theorem InScope.after {E : Assertion} {os : List Opener} (h : E.InScope os)
    (R : Nat → Nat → Prop) : (E.after R).InScope os := fun ms _ ⟨u, hu, _⟩ => h ms u hu

end Assertion

/-! ## 約束の強弱 -/

section

variable {m : Matcher} {Q : Promise} {T T' : Nat → Assertion} {pc pos : Nat} {ms : List Frame}
  {addr : Int}

theorem Reaches.mono (hT : ∀ q ms s, T q ms s → T' q ms s) (h : Reaches T pc addr ms pos) :
    Reaches T' pc addr ms pos := by
  obtain ⟨t, ht, h⟩ := h
  exact ⟨t, ht, hT _ _ _ h⟩

theorem Exits.mono (hT : ∀ q ms s, T q ms s → T' q ms s) (h : Exits T pc ms pos) :
    Exits T' pc ms pos := by
  rcases h with h | ⟨f, o, ms', he, hf, hl, h⟩
  · exact .inl (hT _ _ _ h)
  · exact .inr ⟨f, o, ms', he, hf, hl, hT _ _ _ h⟩

theorem Instruction.Allows.mono {i : Instruction} (hT : ∀ q ms s, T q ms s → T' q ms s)
    (h : i.Allows m Q T pc ms pos) : i.Allows m Q T' pc ms pos := by
  cases i with
  | accept => exact h
  | anyStar newline peek => exact fun k p hk => hT _ _ _ (h k p hk)
  | memStart n undo => exact ⟨h.1, hT _ _ _ h.2⟩
  | memEnd n undo => exact ⟨h.1, hT _ _ _ h.2⟩
  | jump addr => exact Reaches.mono hT h
  | push addr => exact ⟨hT _ _ _ h.1, h.2.mono hT⟩
  | pushOrJump addr b => exact ⟨hT _ _ _ h.1, h.2.mono hT⟩
  | pushIfPeek addr b => exact ⟨hT _ _ _ h.1, h.2.mono hT⟩
  | repeatStart id addr greedy =>
    obtain ⟨lower, upper, hid, hl, hb, t, ht, he⟩ := h
    exact ⟨lower, upper, hid, hl, hT _ _ _ hb, t, ht, fun h => hT _ _ _ (he h)⟩
  | repeatNext id greedy =>
    obtain ⟨lower, upper, b, k, ms', hid, he, hl, hu, hm, hx⟩ := h
    exact ⟨lower, upper, b, k, ms', hid, he, hl, hu, fun h => hT _ _ _ (hm h),
      fun h => hT _ _ _ (hx h)⟩
  | nullCheckStart id captures => exact fun snap => hT _ _ _ (h snap)
  | nullCheckEnd id captures =>
    obtain ⟨start, snap, ms', he, hl, hn, hx⟩ := h
    exact ⟨start, snap, ms', he, hl, hT _ _ _ hn, fun h => ⟨(hx h).1, (hx h).2.mono hT⟩⟩
  | pushPos => exact hT _ _ _ h
  | popPos =>
    obtain ⟨p, ms', he, h⟩ := h
    exact ⟨p, ms', he, hT _ _ _ h⟩
  | pushPosNot addr =>
    obtain ⟨t, ht, h, hb⟩ := h
    exact ⟨t, ht, hT _ _ _ h, hT _ _ _ hb⟩
  | failPos => exact h
  | pushAtomic => exact hT _ _ _ h
  | popAtomic =>
    obtain ⟨ms', he, h⟩ := h
    exact ⟨ms', he, hT _ _ _ h⟩
  | pushLookBehindNot addr chars =>
    obtain ⟨t, ht, h, hb⟩ := h
    exact ⟨t, ht, hT _ _ _ h, fun p hp => hT _ _ _ (hb p hp)⟩
  | failLookBehindNot => exact h
  | lookBehind chars => exact ⟨h.1, fun p hp => hT _ _ _ (h.2 p hp)⟩
  | _ => exact fun p hp => hT _ _ _ (h p hp)

end

/-! ## 断片 -/

/-- 断片の中の約束 `A` と、断片の終わりの約束 `X` と、外の飛び先の約束 `L` を合わせる。 -/
def joined (L A : Nat → Assertion) (stop : Nat) (X : Assertion) : Nat → Assertion :=
  fun q ms s => A q ms s ∨ (q = stop ∧ X ms s) ∨ L q ms s

/-- `p` に置いた断片 `xs` を、約束 `E` から始めると、約束 `X` で終わるか、`L` の飛び先へ出る。 -/
def Triple (m : Matcher) (Q : Promise) (L : Nat → Assertion) (p : Nat) (E : Assertion)
    (xs : List Instruction) (X : Assertion) : Prop :=
  CodeAt m.program p xs → ∃ A : Nat → Assertion,
    (∀ q, (A q).InScope (m.program.scopeAt q)) ∧
    (∀ q ms s, A q ms s → p ≤ q ∧ q < p + xs.length) ∧
    (∀ ms s, E ms s → A p ms s ∨ xs = [] ∧ X ms s) ∧
    ∀ q ms s, A q ms s → ∃ i, m.program.code[q]? = some i ∧
      i.Allows m Q (joined L A (p + xs.length) X) q ms s

namespace Triple

variable {m : Matcher} {Q : Promise} {L L' : Nat → Assertion} {p : Nat}
  {E E' X X' : Assertion} {xs : List Instruction}

theorem of_codeAt (h : CodeAt m.program p xs → Triple m Q L p E xs X) : Triple m Q L p E xs X :=
  fun hc => h hc hc

theorem nil (h : ∀ ms s, E ms s → X ms s) : Triple m Q L p E [] X := fun _ =>
  ⟨fun _ _ _ => False, fun _ _ _ h => h.elim, fun _ _ _ h => h.elim,
    fun ms s hE => .inr ⟨rfl, h ms s hE⟩, fun _ _ _ h => h.elim⟩

/-- 命令一つの断片。続く約束を含むどの `T` についても命令が許されればよい。 -/
theorem instr {i : Instruction} (hE : E.InScope (m.program.scopeAt p))
    (h : ∀ T : Nat → Assertion, (∀ ms s, X ms s → T (p + 1) ms s) →
      (∀ q ms s, L q ms s → T q ms s) → ∀ ms s, E ms s → i.Allows m Q T p ms s) :
    Triple m Q L p E [i] X := by
  intro hc
  refine ⟨fun q ms s => q = p ∧ E ms s, ?_, ?_, fun ms s hs => .inl ⟨rfl, hs⟩, ?_⟩
  · rintro q ms s ⟨rfl, hs⟩
    exact hE ms s hs
  · rintro q ms s ⟨rfl, _⟩
    simp
  · rintro q ms s ⟨rfl, hs⟩
    exact ⟨i, hc.head, h _ (fun _ _ hx => .inr (.inl ⟨rfl, hx⟩)) (fun _ _ _ hl => .inr (.inr hl)) ms s hs⟩

theorem conseq (hE : ∀ ms s, E' ms s → E ms s) (hX : ∀ ms s, X ms s → X' ms s)
    (hL : ∀ q ms s, L q ms s → L' q ms s) (h : Triple m Q L p E xs X) :
    Triple m Q L' p E' xs X' := by
  intro hc
  obtain ⟨A, hs, hr, he, hv⟩ := h hc
  refine ⟨A, hs, hr, fun ms s h => ?_, fun q ms s hA => ?_⟩
  · rcases he ms s (hE ms s h) with h | ⟨hn, h⟩
    · exact .inl h
    · exact .inr ⟨hn, hX _ _ h⟩
  · obtain ⟨i, hi, ha⟩ := hv q ms s hA
    refine ⟨i, hi, ha.mono fun q ms s h => ?_⟩
    rcases h with h | ⟨hq, h⟩ | h
    · exact .inl h
    · exact .inr (.inl ⟨hq, hX _ _ h⟩)
    · exact .inr (.inr (hL _ _ _ h))

end Triple

/-- `p` の命令から、目印 `ms` と位置 `s` で始まる筋は、どれも `stop` の手前に留まり、`stop` に着くのは `X` が
成り立つときだけである。積んだ分岐の先も、筋の続きである。 -/
def Matcher.Leads (m : Matcher) (p stop : Nat) (ms : List Frame) (s : Nat) (X : Assertion) : Prop :=
  ∃ A : Nat → Assertion, A p ms s ∧ ∀ q ms' t, A q ms' t →
    q = stop ∧ X ms' t ∨ p ≤ q ∧ q < stop ∧ ∃ i, m.program.code[q]? = some i ∧
      i.Allows m ⟨fun _ => False, fun _ _ _ => True⟩ A q ms' t

theorem Matcher.Leads.mono {m : Matcher} {p stop : Nat} {ms : List Frame} {s : Nat} {X X' : Assertion}
    (h : m.Leads p stop ms s X) (hX : ∀ ms' t, X ms' t → X' ms' t) : m.Leads p stop ms s X' := by
  obtain ⟨A, hA, hv⟩ := h
  exact ⟨A, hA, fun q ms' t h => (hv q ms' t h).imp_left fun h => ⟨h.1, hX _ _ h.2⟩⟩

/-- 空でない断片の筋は、断片の終わりで抜ける。 -/
theorem Triple.leads {m : Matcher} {p : Nat} {E X : Assertion} {xs : List Instruction}
    (h : Triple m ⟨fun _ => False, fun _ _ _ => True⟩ (fun _ _ _ => False) p E xs X)
    (hc : CodeAt m.program p xs) (hne : xs ≠ []) {ms : List Frame} {s : Nat} (hE : E ms s) :
    m.Leads p (p + xs.length) ms s X := by
  obtain ⟨A, -, hrange, hentry, hallows⟩ := h hc
  refine ⟨joined (fun _ _ _ => False) A (p + xs.length) X,
    .inl ((hentry ms s hE).resolve_right fun h => hne h.1), fun q ms' t h => ?_⟩
  rcases h with h | h | h
  · exact .inr ⟨(hrange q ms' t h).1, (hrange q ms' t h).2, hallows q ms' t h⟩
  · exact .inl h
  · exact h.elim

/-! ## 断片の並び -/

/-- 断片と、その終わりの約束の並び。 -/
abbrev Blocks := List (List Instruction × Assertion)

namespace Blocks

def code : Blocks → List Instruction
  | [] => []
  | (xs, _) :: bs => xs ++ code bs

/-- 最後の約束。 -/
def exit (E : Assertion) : Blocks → Assertion
  | [] => E
  | (_, Y) :: bs => exit Y bs

/-- 断片の境目の約束。 -/
def labels (p : Nat) (E : Assertion) : Blocks → Nat → Assertion
  | [] => fun q ms s => q = p ∧ E ms s
  | (xs, Y) :: bs => fun q ms s => (q = p ∧ E ms s) ∨ labels (p + xs.length) Y bs q ms s

/-- どの断片も、前の約束から次の約束へ進む。 -/
def Linked (m : Matcher) (Q : Promise) (L : Nat → Assertion) (p : Nat) (E : Assertion) :
    Blocks → Prop
  | [] => True
  | (xs, Y) :: bs => Triple m Q L p E xs Y ∧ Linked m Q L (p + xs.length) Y bs

theorem labels_start {p : Nat} {E : Assertion} {ms : List Frame} {s : Nat} (bs : Blocks)
    (h : E ms s) : labels p E bs p ms s := by
  cases bs with
  | nil => exact ⟨rfl, h⟩
  | cons b bs => exact .inl ⟨rfl, h⟩

/-- 並び全体の約束。境目の約束も、その中にあるか、並びの終わりにある。 -/
structure Covers (m : Matcher) (Q : Promise) (L : Nat → Assertion) (p : Nat) (E : Assertion)
    (bs : Blocks) (A : Nat → Assertion) : Prop where
  inScope : ∀ q, (A q).InScope (m.program.scopeAt q)
  range : ∀ q ms s, A q ms s → p ≤ q ∧ q < p + (code bs).length
  labels : ∀ q ms s, labels p E bs q ms s →
    A q ms s ∨ q = p + (code bs).length ∧ exit E bs ms s
  allows : ∀ q ms s, A q ms s → ∃ i, m.program.code[q]? = some i ∧
    i.Allows m Q (joined L A (p + (code bs).length) (exit E bs)) q ms s

theorem Linked.covers {m : Matcher} {Q : Promise} {L : Nat → Assertion} {p : Nat} {E : Assertion}
    {bs : Blocks} (h : Linked m Q L p E bs) (hc : CodeAt m.program p (code bs)) :
    ∃ A, Covers m Q L p E bs A := by
  induction bs generalizing p E with
  | nil =>
    exact ⟨fun _ _ _ => False, fun _ _ _ h => h.elim, fun _ _ _ h => h.elim,
      fun q ms s h => .inr h, fun _ _ _ h => h.elim⟩
  | cons b bs ih =>
    obtain ⟨xs, Y⟩ := b
    obtain ⟨A, hs, hr, he, hv⟩ := h.1 hc.left
    obtain ⟨B, hB⟩ := ih h.2 hc.right
    have hlen : p + (code ((xs, Y) :: bs)).length = p + xs.length + (code bs).length := by
      simp [code]
      omega
    refine ⟨fun q ms s => A q ms s ∨ B q ms s, ?_, ?_, ?_, ?_⟩
    · rintro q ms s (h | h)
      · exact hs q ms s h
      · exact hB.inScope q ms s h
    · rintro q ms s (h | h)
      · have := hr q ms s h
        omega
      · have := hB.range q ms s h
        omega
    · have hrest : ∀ q ms s, Blocks.labels (p + xs.length) Y bs q ms s →
          (A q ms s ∨ B q ms s) ∨ q = p + (code ((xs, Y) :: bs)).length ∧ exit Y bs ms s := by
        intro q ms s h
        rw [hlen]
        exact (hB.labels q ms s h).imp_left .inr
      rintro q ms s (⟨rfl, hE⟩ | hl)
      · rcases he ms s hE with hA | ⟨rfl, hY⟩
        · exact .inl (.inl hA)
        · exact hrest _ ms s (labels_start bs hY)
      · exact hrest q ms s hl
    · rw [hlen]
      rintro q ms s (h | h)
      · obtain ⟨i, hi, ha⟩ := hv q ms s h
        refine ⟨i, hi, ha.mono fun q ms s h => ?_⟩
        rcases h with h | ⟨rfl, h⟩ | h
        · exact .inl (.inl h)
        · rcases hB.labels _ ms s (labels_start bs h) with h | h
          · exact .inl (.inr h)
          · exact .inr (.inl h)
        · exact .inr (.inr h)
      · obtain ⟨i, hi, ha⟩ := hB.allows q ms s h
        refine ⟨i, hi, ha.mono fun q ms s h => ?_⟩
        rcases h with h | h | h
        · exact .inl (.inr h)
        · exact .inr (.inl h)
        · exact .inr (.inr h)

end Blocks

/-- 断片をつなぐ。断片の境目へは、どの断片からも飛べる。 -/
theorem Triple.blocks {m : Matcher} {Q : Promise} {L : Nat → Assertion} {p : Nat} {E : Assertion}
    (bs : Blocks) {xs : List Instruction} (hx : xs = Blocks.code bs)
    (h : Blocks.Linked m Q (fun q ms s => L q ms s ∨ Blocks.labels p E bs q ms s) p E bs) :
    Triple m Q L p E xs (Blocks.exit E bs) := by
  subst hx
  intro hc
  obtain ⟨A, hA⟩ := h.covers hc
  refine ⟨A, hA.inScope, hA.range, fun ms s h => ?_, fun q ms s h => ?_⟩
  · rcases hA.labels p ms s (Blocks.labels_start bs h) with h | ⟨hq, h⟩
    · exact .inl h
    · exact .inr ⟨List.eq_nil_of_length_eq_zero (by omega), h⟩
  · obtain ⟨i, hi, ha⟩ := hA.allows q ms s h
    refine ⟨i, hi, ha.mono fun q ms s h => ?_⟩
    rcases h with h | h | h | h
    · exact .inl h
    · exact .inr (.inl h)
    · exact .inr (.inr h)
    · -- 仮定した境目の約束は、全体の約束が含む。
      exact (hA.labels q ms s h).imp_right .inl

theorem Triple.append {m : Matcher} {Q : Promise} {L : Nat → Assertion} {p : Nat}
    {E X Y : Assertion} {xs ys : List Instruction} (hx : Triple m Q L p E xs Y)
    (hy : Triple m Q L (p + xs.length) Y ys X) : Triple m Q L p E (xs ++ ys) X :=
  .blocks [(xs, Y), (ys, X)] (by simp [Blocks.code])
    ⟨hx.conseq (fun _ _ h => h) (fun _ _ h => h) fun _ _ _ h => .inl h,
      hy.conseq (fun _ _ h => h) (fun _ _ h => h) fun _ _ _ h => .inl h, trivial⟩

/-- 一つの命令に続く、長さ `n` と `k` の断片の境目の約束を `L` に加える。 -/
def cornered (L : Nat → Assertion) (p n k : Nat) (E Y Z X : Assertion) : Nat → Assertion :=
  fun q ms s => L q ms s ∨ (q = p ∧ E ms s) ∨ (q = p + 1 ∧ Y ms s) ∨ (q = p + 1 + n ∧ Z ms s) ∨
    (q = p + 1 + n + k ∧ X ms s)

/-- 一つの命令に続く二つの断片。 -/
theorem Triple.cons {m : Matcher} {Q : Promise} {L : Nat → Assertion} {p : Nat}
    {E X : Assertion} (Y Z : Assertion) {i : Instruction} {xs ys : List Instruction}
    (hi : Triple m Q (cornered L p xs.length ys.length E Y Z X) p E [i] Y)
    (hx : Triple m Q (cornered L p xs.length ys.length E Y Z X) (p + 1) Y xs Z)
    (hy : Triple m Q (cornered L p xs.length ys.length E Y Z X) (p + 1 + xs.length) Z ys X) :
    Triple m Q L p E (i :: (xs ++ ys)) X :=
  .blocks [([i], Y), (xs, Z), (ys, X)] (by simp [Blocks.code]) ⟨hi, hx, hy, trivial⟩

end MultibyteRegex

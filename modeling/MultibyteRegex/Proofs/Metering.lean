import MultibyteRegex.Proofs.Idling
import MultibyteRegex.Proofs.LookBehind
import MultibyteRegex.Proofs.Termination

/-!
# 上限のある照合は終わる

枠を積まずに回りうるのは、後に続くもののバイトだけを見て入る、検査のない輪だけである。その本体が一回ごとに前へ
進むなら、枠を積まない歩みは必ず終わるので、枠の数と再開点へ戻る回数に上限のある照合も終わる。
-/

namespace MultibyteRegex

/-- 後に続くもののバイトを見て、枠を積まずに入りうる、検査のない輪。 -/
def Loop.isBare (l : Loop) : Bool :=
  l.greedy && l.upper.isNone && l.head.isNone && l.next.isSome && l.emptyBody == .never

/-- 生成した断片の始まりから積まずに進む歩みは、断片の終わりに、関係 `R` で着く。断片の後で歩みが終わるなら、
断片の中でも終わる。 -/
structure Emit.Metered (m : Matcher) (origin : Nat) (a : Emit) (R : Nat → Nat → Prop) : Prop where
  enter : ∀ {c c' : Counters} {code : List Instruction}, a c = .ok (code, c') → ∀ {p : Nat},
    CodeAt m.program p code → ∀ {r : Registers}, m.Reachable origin r → r.pc = p →
    (∀ r', m.Reachable origin r' → r'.pc = p + code.length → R r.pos r'.pos → m.Rests origin r') →
    m.Rests origin r
  settle : ∀ {c c' : Counters} {code : List Instruction}, a c = .ok (code, c') → ∀ {p : Nat},
    CodeAt m.program p code → m.Settled origin (p + code.length) → m.Settled origin p

namespace Emit.Metered

variable {m : Matcher} {origin : Nat} {a b : Emit} {n k : Nat} {R S : Nat → Nat → Prop} {c c' : Counters}
  {code : List Instruction}

theorem mono (hR : ∀ s t, R s t → S s t) (h : a.Metered m origin R) : a.Metered m origin S where
  enter hc _ hcode _ hr hp hexit := h.enter hc hcode hr hp fun r' hr' hp' ht => hexit r' hr' hp' (hR _ _ ht)
  settle := h.settle

theorem skip : Emit.Metered m origin (fun c => .ok ([], c)) Eq where
  enter hc _ _ r hr hp hexit := by
    cases hc
    exact hexit r hr hp rfl
  settle hc _ _ h := by
    cases hc
    exact h

theorem append (hx : a.Metered m origin R) (hy : b.Metered m origin S) :
    (a.append b).Metered m origin (Comp R S) where
  enter hc p hcode r hr hp hexit := by
    obtain ⟨xs, d, ys, hxs, hys, rfl⟩ := append_eq_ok hc
    refine hx.enter hxs hcode.left hr hp fun r' hr' hp' hs => ?_
    refine hy.enter hys hcode.right hr' hp' fun r'' hr'' hp'' ht => hexit r'' hr'' ?_ ⟨_, hs, ht⟩
    rw [hp'', List.length_append, Nat.add_assoc]
  settle hc p hcode h := by
    obtain ⟨xs, d, ys, hxs, hys, rfl⟩ := append_eq_ok hc
    rw [List.length_append, ← Nat.add_assoc] at h
    exact hx.settle hxs hcode.left (hy.settle hys hcode.right h)

theorem times (h : a.Metered m origin R) (k : Nat) : (a.times k).Metered m origin (Iterated R k) := by
  induction k with
  | zero => exact skip
  | succ k ih => exact h.append ih

/-- 必ず枠を積む命令で始まる断片には、積まずに抜ける歩みがない。 -/
theorem of_isPush
    (hpush : ∀ {c c' : Counters} {code : List Instruction}, a c = .ok (code, c') →
      ∃ i xs, code = i :: xs ∧ i.isPush ∧ ∀ {p : Nat}, CodeAt m.program p code →
        m.Settled origin (p + 1 + xs.length) → m.Settled origin (p + 1)) : a.Metered m origin R where
  enter hc p hcode r hr hp _ := by
    obtain ⟨i, xs, rfl, hi, -⟩ := hpush hc
    subst hp
    exact Matcher.rests_of_isPush hr hcode.head hi
  settle hc p hcode h := by
    obtain ⟨i, xs, rfl, hi, hsettle⟩ := hpush hc
    rw [List.length_cons, ← Nat.add_assoc, Nat.add_right_comm] at h
    exact .cons hcode.head (Instruction.isOnward_of_isPush hi) (hsettle hcode h)

theorem settle_snoc (h : a.Metered m origin R) (hc : a c = .ok (code, c')) {last : Instruction} {p : Nat}
    (hcode : CodeAt m.program p (code ++ [last])) (hlast : last.IsOnward)
    (hp : m.Settled origin (p + (code ++ [last]).length)) : m.Settled origin p := by
  rw [List.length_append, ← Nat.add_assoc] at hp
  exact h.settle hc hcode.left (.cons hcode.right.head hlast hp)

theorem enclosed (h : a.Metered m origin R) {first last : Instruction} (hfirst : first.isPush)
    (hlast : last.IsOnward) : (CodeEnv.between first last a).Metered m origin S :=
  of_isPush fun hc => by
    obtain ⟨body, hb, rfl⟩ := between_eq_ok hc
    exact ⟨first, body ++ [last], rfl, hfirst, fun hcode hp => h.settle_snoc hb hcode.tail hlast hp⟩

/-- 検査で挟んだ本体には、積まずに抜ける歩みがない。 -/
theorem guarded (h : a.Metered m origin R) (empty : EmptyBody) :
    (Emit.guarded empty a).Metered m origin fun s t => empty = .never ∧ R s t := by
  by_cases hnever : empty = .never
  · subst hnever
    exact h.mono fun s t hst => ⟨rfl, hst⟩
  · refine of_isPush fun hc => ?_
    rcases guarded_eq_ok hc with ⟨rfl, -⟩ | ⟨-, body, captures, hb, rfl⟩
    · exact absurd rfl hnever
    · exact ⟨_, _, rfl, rfl, fun hcode hp => h.settle_snoc hb hcode.tail trivial hp⟩

theorem optionalTimes (h : a.Metered m origin R) (size k : Nat) :
    (a.optionalTimes size k).Metered m origin fun s t => ∃ j, j ≤ k ∧ Iterated R j s t := by
  induction k with
  | zero => exact skip.mono fun s t hst => ⟨0, Nat.le_refl _, hst⟩
  | succ k ih =>
    refine of_isPush fun hc => ?_
    obtain ⟨body, d, rest, hb, hrest, rfl⟩ := optionalTimes_succ_eq_ok hc
    refine ⟨_, _, rfl, rfl, fun {p} hcode hp => ?_⟩
    rw [List.length_append, ← Nat.add_assoc] at hp
    exact h.settle hb hcode.tail.left (ih.settle hrest hcode.tail.right hp)

theorem counted (h : a.Metered m origin R) (l : Loop) (size : Nat) : (a.counted l size).Metered m origin S :=
  of_isPush fun hc => by
    obtain ⟨body, hb, rfl⟩ := counted_eq_ok hc
    exact ⟨_, _, rfl, rfl, fun hcode hp => (h.guarded _).settle_snoc hb hcode.tail trivial hp⟩

theorem lazyOptional (h : a.Metered m origin R) (size : Nat) :
    ((instr (.push 1)).append ((jumpTo .jump size).append a)).Metered m origin S :=
  of_isPush fun hc => by
    obtain ⟨xs, d, ys, hx, hy, rfl⟩ := append_eq_ok hc
    obtain ⟨rfl, rfl⟩ := instr_eq_ok hx
    obtain ⟨zs, d, ws, hz, hw, rfl⟩ := append_eq_ok hy
    obtain ⟨rfl, rfl⟩ := jumpTo_eq_ok hz
    refine ⟨_, _, rfl, rfl, fun {p} hcode hp => ?_⟩
    exact .cons hcode.tail.head (Int.natCast_nonneg size)
      (h.settle hw hcode.tail.tail (hp.mono (by simp; omega)))

theorem either (hx : a.Metered m origin R) (hy : b.Metered m origin S) {T : Nat → Nat → Prop} :
    ((jumpTo .push (n + 1)).append (a.append ((jumpTo .jump k).append b))).Metered m origin T :=
  of_isPush fun hc => by
    obtain ⟨us, d, vs, hu, hv, rfl⟩ := append_eq_ok hc
    obtain ⟨rfl, rfl⟩ := jumpTo_eq_ok hu
    obtain ⟨xs, d, ws, hxs, hw, rfl⟩ := append_eq_ok hv
    obtain ⟨zs, d', ys, hz, hys, rfl⟩ := append_eq_ok hw
    obtain ⟨rfl, rfl⟩ := jumpTo_eq_ok hz
    refine ⟨.push ↑(n + 1), xs ++ .jump ↑k :: ys, rfl, rfl,
      fun {p} (hcode : CodeAt m.program p (.push ↑(n + 1) :: (xs ++ .jump ↑k :: ys))) hp => ?_⟩
    refine hx.settle hxs hcode.tail.left (.cons hcode.tail.right.head (Int.natCast_nonneg k) ?_)
    exact hy.settle hys hcode.tail.right.tail (hp.mono (by simp; omega))

/-! ## 輪 -/

section

variable {l : Loop} {body : List Instruction} {p : Nat} {r : Registers}

/-- 輪の尾は、枠を積むか、頭へ戻る。 -/
theorem rests_ringTail (hr : m.Reachable origin r) (hi : m.program.code[r.pc]? = some (ringTail l body.length))
    (hp : r.pc = p + 1 + body.length)
    (h : l.greedy → ∀ r', m.Reachable origin r' → r'.pc = p → r'.pos = r.pos → m.Rests origin r') :
    m.Rests origin r := by
  unfold ringTail at hi
  split at hi
  · rename_i hgreedy
    exact Matcher.rests_of_jump hr hi (by omega) (h hgreedy)
  · exact Matcher.rests_of_isPush hr hi rfl

/-- 輪の頭から積まずに進む歩みは、輪を抜けるか、本体の一回ごとに前へ進む。 -/
theorem rests_ringHead (h : a.Metered m origin R) (ho : origin ≤ m.text.size) (hupper : l.upper = none)
    (hbare : l.isBare → ∀ {s t}, R s t → s ≤ m.text.size → s < t)
    (hb : Emit.guarded l.emptyBody a c = .ok (body, c'))
    (hcode : CodeAt m.program p (ringHead l body.length :: (body ++ [ringTail l body.length])))
    (hr : m.Reachable origin r) (hp : r.pc = p)
    (hexit : ∀ r', m.Reachable origin r' → r'.pc = p + 1 + body.length + 1 →
      (∃ k, Iterated R k r.pos r'.pos) → m.Rests origin r') : m.Rests origin r := by
  obtain ⟨room, hroom⟩ : ∃ room, m.text.size - r.pos = room := ⟨_, rfl⟩
  induction room using Nat.strongRecOn generalizing r with
  | ind room ih =>
    have hhead := hcode.head
    have htail {r' : Registers} (hr' : m.Reachable origin r') (hp' : r'.pc = p + 1 + body.length)
        (hback : l.greedy → ∀ r'', m.Reachable origin r'' → r''.pc = p → r''.pos = r'.pos → m.Rests origin r'') :
        m.Rests origin r' :=
      rests_ringTail hr' (hp' ▸ hcode.tail.right.head) hp' hback
    rw [← hp] at hhead
    unfold ringHead Emit.enter at hhead
    split at hhead
    · rename_i hgreedy
      split at hhead
      · exact Matcher.rests_of_pushOrJump hr hhead (t := p + 1 + body.length + 1) (by omega) fun r' hr' hp' hpos =>
          hexit r' hr' hp' ⟨0, hpos.symm⟩
      · rename_i hhint hnext
        refine Matcher.rests_of_pushIfPeek hr hhead fun r₁ hr₁ hp₁ hpos₁ => ?_
        rw [hp] at hp₁
        refine (h.guarded l.emptyBody).enter hb hcode.tail.left hr₁ hp₁ fun r₂ hr₂ hp₂ hspan => ?_
        obtain ⟨hnever, hspan⟩ := hspan
        rw [hpos₁] at hspan
        have hlt : r.pos < r₂.pos :=
          hbare (by simp [Loop.isBare, hgreedy, hupper, hhint, hnext, hnever]) hspan (hr.within ho)
        have hin := hr₂.within ho
        refine htail hr₂ hp₂ fun _ r₃ hr₃ hp₃ hpos₃ => ?_
        refine ih (m.text.size - r₃.pos) (by omega) hr₃ hp₃ (fun r' hr' hp' hk => ?_) rfl
        obtain ⟨k, hk⟩ := hk
        exact hexit r' hr' hp' ⟨k + 1, r₂.pos, hspan, hpos₃ ▸ hk⟩
      · exact Matcher.rests_of_isPush hr hhead rfl
    · rename_i hlazy
      exact Matcher.rests_of_jump hr hhead (t := p + 1 + body.length) (by omega) fun r' hr' hp' _ =>
        htail hr' hp' fun hgreedy => absurd hgreedy hlazy

theorem isOnward_ringHead (l : Loop) (span : Nat) : (ringHead l span).IsOnward := by
  unfold ringHead Emit.enter
  split
  · split
    · exact Int.natCast_nonneg _
    · exact trivial
    · exact trivial
  · exact Int.natCast_nonneg _

theorem settled_ring (h : a.Metered m origin R) (ho : origin ≤ m.text.size) (hupper : l.upper = none)
    (hbare : l.isBare → ∀ {s t}, R s t → s ≤ m.text.size → s < t)
    (hb : Emit.guarded l.emptyBody a c = .ok (body, c'))
    (hcode : CodeAt m.program p (ringHead l body.length :: (body ++ [ringTail l body.length])))
    (hend : m.Settled origin (p + 1 + body.length + 1)) : m.Settled origin p := by
  refine .cons hcode.head (isOnward_ringHead l _) ((h.guarded _).settle hb hcode.tail.left fun r hr hle => ?_)
  rcases Nat.eq_or_lt_of_le hle with hp | hlt
  · refine rests_ringTail hr (hp ▸ hcode.tail.right.head) hp.symm fun _ r' hr' hp' _ => ?_
    exact rests_ringHead h ho hupper hbare hb hcode hr' hp' fun r'' hr'' hp'' _ =>
      hend r'' hr'' (Nat.le_of_eq hp''.symm)
  · exact hend r hr hlt

end

theorem ring (h : a.Metered m origin R) (ha : a.Regular n) (ho : origin ≤ m.text.size) {l : Loop}
    (hupper : l.upper = none) (hbare : l.isBare → ∀ {s t}, R s t → s ≤ m.text.size → s < t) :
    (a.ring l n).Metered m origin fun s t => ∃ k, Iterated R k s t where
  enter hc p hcode r hr hp hexit := by
    obtain ⟨body, hb, rfl⟩ := ring_eq_ok hc
    rw [← (ha.guarded l.emptyBody).length_eq hb] at hcode hexit
    exact rests_ringHead h ho hupper hbare hb hcode hr hp fun r' hr' hp' => hexit r' hr' (by simp; omega)
  settle hc p hcode hend := by
    obtain ⟨body, hb, rfl⟩ := ring_eq_ok hc
    rw [← (ha.guarded l.emptyBody).length_eq hb] at hcode hend
    exact settled_ring h ho hupper hbare hb hcode (hend.mono (by simp; omega))

theorem ring_jumpIn (h : a.Metered m origin R) (ha : a.Regular n) (ho : origin ≤ m.text.size) {l : Loop}
    (hupper : l.upper = none) (hbare : l.isBare → ∀ {s t}, R s t → s ≤ m.text.size → s < t) :
    ((instr (.jump 1)).append (a.ring l n)).Metered m origin fun s t => ∃ k, 1 ≤ k ∧ Iterated R k s t where
  enter hc p hcode r hr hp hexit := by
    obtain ⟨xs, d, ys, hx, hy, rfl⟩ := append_eq_ok hc
    obtain ⟨rfl, rfl⟩ := instr_eq_ok hx
    obtain ⟨body, hb, rfl⟩ := ring_eq_ok hy
    rw [← (ha.guarded l.emptyBody).length_eq hb] at hcode hexit
    have hring : CodeAt m.program (p + 1) (ringHead l body.length :: (body ++ [ringTail l body.length])) :=
      hcode.tail
    subst hp
    refine Matcher.rests_of_jump hr hcode.head (t := r.pc + 1 + 1) (by omega) fun r₁ hr₁ hp₁ hpos₁ => ?_
    refine (h.guarded l.emptyBody).enter hb hring.tail.left hr₁ hp₁ fun r₂ hr₂ hp₂ hspan => ?_
    refine rests_ringTail hr₂ (hp₂ ▸ hring.tail.right.head) hp₂ fun _ r₃ hr₃ hp₃ hpos₃ => ?_
    refine rests_ringHead h ho hupper hbare hb hring hr₃ hp₃ fun r' hr' hp' hk => ?_
    obtain ⟨k, hk⟩ := hk
    exact hexit r' hr' (by simp; omega) ⟨k + 1, Nat.succ_pos k, r₂.pos, hpos₁ ▸ hspan.2, hpos₃ ▸ hk⟩
  settle hc p hcode hend := by
    obtain ⟨xs, d, ys, hx, hy, rfl⟩ := append_eq_ok hc
    obtain ⟨rfl, rfl⟩ := instr_eq_ok hx
    refine .cons hcode.head Int.one_nonneg ((h.ring ha ho hupper hbare).settle hy hcode.tail (hend.mono ?_))
    simp
    omega

/-! ## 積み重ねに触れない命令 -/

/-- 生成のたびに `R` の断片になる。 -/
theorem of_eq_ok (h : ∀ {c c' : Counters} {code : List Instruction}, a c = .ok (code, c') →
    ∃ b : Emit, b c = .ok (code, c') ∧ b.Metered m origin R) : a.Metered m origin R where
  enter hc := by
    obtain ⟨b, hb, hmetered⟩ := h hc
    exact hmetered.enter hb
  settle hc := by
    obtain ⟨b, hb, hmetered⟩ := h hc
    exact hmetered.settle hb

section

variable (hcaps : ∀ r, m.Reachable origin r → r.caps.size = m.program.groups + 1)
include hcaps

theorem leaf {i : Instruction} (hi : i.isLeaf) : (instr i).Metered m origin (m.Passes i) where
  enter hc p hcode r hr hp hexit := by
    obtain ⟨rfl, rfl⟩ := instr_eq_ok hc
    subst hp
    exact Matcher.rests_of_isLeaf hr hcode.head hi (hcaps r hr) hexit
  settle hc p hcode hend := by
    obtain ⟨rfl, rfl⟩ := instr_eq_ok hc
    exact .cons hcode.head (Instruction.isOnward_of_isLeaf hi) hend

theorem anyStar (newline : Bool) (peek : Option UInt8) : (instr (.anyStar newline peek)).Metered m origin
    fun s t => ∃ k, Iterated (m.Passes (.any newline)) k s t where
  enter hc p hcode r hr hp hexit := by
    obtain ⟨rfl, rfl⟩ := instr_eq_ok hc
    subst hp
    refine Matcher.rests_of_go hr hcode.head fun r' hr' hx _ => ?_
    obtain ⟨hpc, hiterated⟩ := Matcher.anyStar_go hx
    exact hexit r' hr' hpc (hiterated (hcaps r hr))
  settle hc p hcode hend := by
    obtain ⟨rfl, rfl⟩ := instr_eq_ok hc
    exact .cons hcode.head trivial hend

theorem path {is : List Instruction} (hi : ∀ i ∈ is, i.isLeaf) :
    Emit.Metered m origin (fun c => .ok (is, c)) (m.Path is) := by
  induction is with
  | nil => exact skip
  | cons i is ih =>
    obtain ⟨hi, his⟩ := List.forall_mem_cons.1 hi
    exact (leaf hcaps hi).append (ih his)

/-- どの開き方でも、繰り返しは許された回数だけ本体を続ける。 -/
theorem loop (h : a.Metered m origin R) (ha : a.Regular n) (ho : origin ≤ m.text.size) (options : Options)
    {l : Loop} {body : Node} {shape : LoopShape} (hf : shape.Fits l body n) (hl : ∀ u ∈ l.upper, l.lower ≤ u)
    (h0 : n = 0 → ∀ s, R s s) (hany : body = .any → R = m.Passes (.any (options.contains .multiline)))
    (hbare : l.isBare → ∀ {s t}, R s t → s ≤ m.text.size → s < t) :
    (a.loop options l n shape).Metered m origin (l.Turns R) := by
  refine Metered.mono (R := shape.Turns l R) (fun s t => hf.turns hl h0) ?_
  cases shape with
  | nothing => exact skip
  | anyStar =>
    obtain rfl := hany hf.1
    exact (h.times l.lower).append (anyStar hcaps ..)
  | ring copies jumpIn =>
    obtain ⟨-, hupper, -⟩ := hf
    cases jumpIn with
    | false => exact (h.times copies).append (h.ring ha ho hupper hbare)
    | true => exact h.ring_jumpIn ha ho hupper hbare
  | unrolled required extra => exact (h.times required).append (h.optionalTimes n extra)
  | lazyOptional => exact h.lazyOptional n
  | counted => exact h.counted l n

end

/-! ## 括弧 -/

theorem capture (h : a.Metered m origin R) (i : Nat) (undo : Bool) :
    (CodeEnv.between (.memStart i undo) (.memEnd i undo) a).Metered m origin R where
  enter hc p hcode r hr hp hexit := by
    obtain ⟨body, hb, rfl⟩ := between_eq_ok hc
    subst hp
    refine Matcher.rests_of_go hr hcode.head fun r₁ hr₁ hx₁ _ => ?_
    obtain ⟨hp₁, hpos₁⟩ := Matcher.memStart_go hx₁
    refine h.enter hb hcode.tail.left hr₁ hp₁ fun r₂ hr₂ hp₂ hspan => ?_
    refine Matcher.rests_of_go hr₂ (hp₂ ▸ hcode.tail.right.head) fun r₃ hr₃ hx₃ _ => ?_
    obtain ⟨hp₃, hpos₃⟩ := Matcher.memEnd_go hx₃
    refine hexit r₃ hr₃ ?_ ?_
    · simp only [List.length_cons, List.length_append, List.length_nil]
      omega
    · rwa [hpos₃, ← hpos₁]
  settle hc p hcode hend := by
    obtain ⟨body, hb, rfl⟩ := between_eq_ok hc
    refine .cons hcode.head trivial (h.settle_snoc hb hcode.tail trivial (hend.mono ?_))
    rw [List.length_cons]
    omega

theorem notBehind (h : a.Metered m origin R) (ha : a.Regular n) (chars : Nat) :
    (CodeEnv.between (.pushLookBehindNot ↑(n + 1) chars) .failLookBehindNot a).Metered m origin Eq where
  enter hc p hcode r hr hp hexit := by
    obtain ⟨body, hb, rfl⟩ := between_eq_ok hc
    have hlen := ha.length_eq hb
    subst hp
    refine Matcher.rests_of_pushLookBehindNot hr hcode.head (t := r.pc + 1 + (n + 1)) (by omega)
      fun r' hr' hp' hpos => hexit r' hr' ?_ hpos.symm
    simp only [List.length_cons, List.length_append, List.length_nil]
    omega
  settle hc p hcode hend := by
    obtain ⟨body, hb, rfl⟩ := between_eq_ok hc
    refine .cons hcode.head (Int.natCast_nonneg _) (h.settle_snoc hb hcode.tail trivial (hend.mono ?_))
    rw [List.length_cons]
    omega

end Emit.Metered

/-! ## 節 -/

namespace Node

mutual
/-- 枠を積まずに回りうる輪の中の、後読みの本体。 -/
def bareBehinds : Node → List Node
  | .list nodes => bareBehindsIn nodes
  | .alt nodes => bareBehindsIn nodes
  | .loop l body => (if l.isBare then body.behinds else []) ++ body.bareBehinds
  | .scoped _ body => body.bareBehinds
  | .group _ body => body.bareBehinds
  | _ => []

def bareBehindsIn : List Node → List Node
  | [] => []
  | n :: ns => n.bareBehinds ++ bareBehindsIn ns
end

end Node

/-- 翻訳と照合が同じ符号化と写像に従い、本文の中から始めた照合では捕獲の数が変わらない。 -/
structure Steady (env : CodeEnv) (m : Matcher) (origin : Nat) : Prop where
  code : m.encoding = env.encoding
  fold : m.program.fold = env.fold.getD .ascii
  start : origin ≤ m.text.size
  caps : ∀ r, m.Reachable origin r → r.caps.size = m.program.groups + 1

namespace CodeEnv

variable {env : CodeEnv} {m : Matcher} {origin : Nat} {t : FoldTable}

mutual
/-- 枠を積まずに回りうる輪の後読みが前へ進むなら、節から生成した断片の歩みは必ず終わる。 -/
theorem emit_metered (hx : Steady env m origin) : (n : Node) → {options : Options} → {k : Nat} →
    (∀ b ∈ n.bareBehinds, b.ReadsForward env m) → n.WellFormed m.program.groups → n.Ready t options →
    env.size options n = .ok k → (env.emit options n).Metered m origin (n.Spans env m options)
  | .empty, _, _, _, _, _, _ => .skip
  | .list nodes, _, _, hb, hw, hr, h => emitList_metered hx nodes hb hw hr h
  | .alt nodes, _, _, hb, hw, hr, h => emitAlt_metered hx nodes hb hw hr h
  | .str bytes, _, _, _, _, _, _ => .of_eq_ok fun hc => by
    obtain ⟨fold, hf, hc⟩ := Except.bind_eq_ok hc
    exact ⟨_, hc, (Emit.Metered.path hx.caps (Literal.isLeaf_code _ _ _)).mono fun s t ht => ⟨fold, hf, ht⟩⟩
  | .raw bytes, _, _, _, _, _, _ => .path hx.caps (Literal.isLeaf_code _ _ _)
  | .cclass c, _, _, _, _, _, _ => .leaf hx.caps (isLeaf_classInstruction ..)
  | .word _, _, _, _, _, _, _ => .leaf hx.caps rfl
  | .any, _, _, _, _, _, _ => .leaf hx.caps rfl
  | .anchor a, _, _, _, _, _, _ => .leaf hx.caps (isLeaf_anchorInstruction ..)
  | .backref _, _, _, _, _, _, _ => .leaf hx.caps rfl
  | .scoped _ body, _, _, hb, hw, hr, h => emit_metered hx body hb hw hr.2 h
  | .loop l body, options, _, hb, hw, hr, h => by
    obtain ⟨k, hk, -⟩ := Except.bind_eq_ok h
    obtain ⟨-, -, hpos, -, hready⟩ := hr
    obtain ⟨hbare, hb⟩ := List.forall_mem_append.1 hb
    refine .of_eq_ok fun hc => ?_
    obtain ⟨k', hk', hc⟩ := Except.bind_eq_ok hc
    cases hk.symm.trans hk'
    refine ⟨_, hc, (emit_metered hx body hb hw.2 hready hk).loop hx.caps (emit_regular body hk) hx.start options
      (LoopShape.of_fits env.expandLimit l body k) hw.1 ?_ ?_ fun hl s t hst hs => ?_⟩
    · rintro rfl s
      exact spans_of_size_eq_zero body hw.2 hk s
    · rintro rfl
      rfl
    · rw [if_pos hl] at hbare
      simp only [Loop.isBare, Bool.and_eq_true, Option.isNone_iff_eq_none, beq_iff_eq] at hl
      exact (Node.spans_forward hx.code hx.fold body hbare hst hs).lt (hpos hl.1.1.1.2 hl.2)
  | .group kind body, options, _, hb, hw, hr, h => by
    cases kind with
    | capture n undo =>
      obtain ⟨k, hk, -⟩ := Except.bind_eq_ok h
      exact (emit_metered hx body hb hw.2 hr.2 hk).capture n undo
    | atomic =>
      obtain ⟨k, hk, -⟩ := Except.bind_eq_ok h
      exact (emit_metered hx body hb hw.2 hr.2 hk).enclosed rfl trivial
    | ahead =>
      obtain ⟨k, hk, -⟩ := Except.bind_eq_ok h
      exact (emit_metered hx body hb hw.2 hr.2 hk).enclosed rfl trivial
    | notAhead =>
      refine .of_eq_ok fun hc => ?_
      obtain ⟨k, hk, hc⟩ := Except.bind_eq_ok hc
      obtain ⟨skip, -, hc⟩ := Except.bind_eq_ok hc
      exact ⟨_, hc, (emit_metered hx body hb hw.2 hr.2.2 hk).enclosed rfl trivial⟩
    | behind =>
      obtain ⟨k, hk, -⟩ := Except.bind_eq_ok h
      refine .of_eq_ok fun hc => ?_
      obtain ⟨chars, hch, hc⟩ := Except.bind_eq_ok hc
      refine ⟨_, hc, ((Emit.Metered.leaf hx.caps (i := .lookBehind chars) rfl).append
        (emit_metered hx body hb hw.2 hr.2 hk)).mono ?_⟩
      rintro s t ⟨p, hp, ht⟩
      exact ⟨chars, p, charsBehind_eq_ok hch, passes_lookBehind hp, ht⟩
    | notBehind =>
      refine .of_eq_ok fun hc => ?_
      obtain ⟨chars, -, hc⟩ := Except.bind_eq_ok hc
      obtain ⟨k, hk, hc⟩ := Except.bind_eq_ok hc
      obtain ⟨skip, hs, hc⟩ := Except.bind_eq_ok hc
      rw [relative_eq_ok hs] at hc
      exact ⟨_, hc, (emit_metered hx body hb hw.2 hr.2.2 hk).notBehind (emit_regular body hk) chars⟩

theorem emitList_metered (hx : Steady env m origin) : (ns : List Node) → {options : Options} → {k : Nat} →
    (∀ b ∈ Node.bareBehindsIn ns, b.ReadsForward env m) → Node.AllWellFormed m.program.groups ns →
    Node.ReadyList t options ns → env.sizeList options ns = .ok k →
    Emit.Metered m origin (env.emitList options ns) (Node.SpansList env m options ns)
  | [], _, _, _, _, _, _ => .skip
  | n :: ns, _, _, hb, hw, hr, h => by
    obtain ⟨k, hk, h⟩ := Except.bind_eq_ok h
    obtain ⟨k', hk', -⟩ := Except.bind_eq_ok h
    obtain ⟨hn, hns⟩ := List.forall_mem_append.1 hb
    exact (emit_metered hx n hn hw.1 hr.2.1 hk).append (emitList_metered hx ns hns hw.2 hr.2.2 hk')

theorem emitAlt_metered (hx : Steady env m origin) : (ns : List Node) → {options : Options} → {k : Nat} →
    (∀ b ∈ Node.bareBehindsIn ns, b.ReadsForward env m) → Node.AllWellFormed m.program.groups ns →
    Node.ReadyAlt t options ns → env.sizeAlt options ns = .ok k →
    Emit.Metered m origin (env.emitAlt options ns) (Node.SpansAlt env m options ns)
  | [], _, _, _, _, _, _ => .skip
  | [n], _, _, hb, hw, hr, h =>
    emit_metered hx n (List.forall_mem_append.1 hb).1 hw.1 hr.2.2.1 h
  | n :: n' :: ns, _, _, hb, hw, hr, h => by
    obtain ⟨k, hk, h⟩ := Except.bind_eq_ok h
    obtain ⟨k', hk', -⟩ := Except.bind_eq_ok h
    obtain ⟨hn, hns⟩ := List.forall_mem_append.1 hb
    refine .of_eq_ok fun hc => ?_
    obtain ⟨size, -, hc⟩ := Except.bind_eq_ok hc
    obtain ⟨rest, -, hc⟩ := Except.bind_eq_ok hc
    exact ⟨_, hc, (emit_metered hx n hn hw.1 hr.2.2.1 hk).either (emitAlt_metered hx (n' :: ns) hns hw.2 hr.2.2.2 hk')⟩
end

/-- 枠を積まずに回りうる輪の後読みが前へ進むなら、着くどの状態からも、枠を積まない歩みは必ず終わる。 -/
theorem compile_rests {options : Options} {groups : Nat} {root : Node} {program : Program}
    (h : env.compile options groups root = .ok program) (hw : root.WellFormed groups)
    (hready : root.Ready t options) (hm : m.program = program) (ho : origin ≤ m.text.size)
    (hb : ∀ b ∈ root.bareBehinds, b.ReadsForward env m) {r : Registers} (hr : m.Reachable origin r) :
    m.Rests origin r := by
  obtain ⟨T, hv, hT, -⟩ := compile_verified h hw hm origin
  obtain ⟨size, code, counters, hs, hc, hprogram⟩ := compile_eq_ok h
  have hx : Steady env m origin := by
    refine ⟨?_, ?_, ho, fun r hr => (hr.holds hv hT).size_caps⟩ <;> simp [Matcher.encoding, hm, hprogram]
  have hcode : CodeAt m.program 0 (code ++ [Instruction.accept]) := by
    intro j i hj
    rw [hm, hprogram, Nat.zero_add]
    simpa using hj
  have hwell : root.WellFormed m.program.groups := by rwa [hm, hprogram]
  have hmetered := emit_metered hx root hb hwell hready hs
  -- 命令の列の外へ出た状態からは、一歩も続かない。
  have hout : m.Settled origin (0 + code.length + 1) := by
    intro r hr hle
    refine ⟨r, fun r' hidle => ?_⟩
    have hnone : m.program.code[r.pc]? = none := by
      rw [hm, hprogram]
      simp
      omega
    have hstep := hidle.step
    simp [Matcher.step, hnone] at hstep
  exact hmetered.settle hc hcode.left (.cons hcode.right.head trivial hout) r hr (Nat.zero_le _)

end CodeEnv

/-! ## 上限のある照合 -/

namespace Matcher

variable {m : Matcher} {origin : Nat}

theorem exists_run_of_step {r : Registers} (h : ∀ r', m.step origin r = .ok (.running r') →
    ∃ fuel v, m.run origin fuel r' = some v) : ∃ fuel v, m.run origin fuel r = some v := by
  cases hs : m.step origin r with
  | error e => exact ⟨1, .error e, by simp [run, hs]⟩
  | ok p =>
    cases p with
    | done v => exact ⟨1, .ok v, by simp [run, hs]⟩
    | aborted => exact ⟨1, .aborted, by simp [run, hs]⟩
    | running r' =>
      obtain ⟨fuel, v, hv⟩ := h r' hs
      exact ⟨fuel + 1, v, by simpa [run, hs] using hv⟩

/-- 枠を積まない歩みが必ず終わるなら、二つの上限のある実行は終わる。 -/
theorem exists_run {retries depth : Nat} (hretries : m.limits.retries = some retries)
    (hdepth : m.limits.depth = some depth) (hrests : ∀ r, m.Reachable origin r → m.Rests origin r)
    {r : Registers} (hr : m.Reachable origin r) : ∃ fuel v, m.run origin fuel r = some v := by
  -- 戻れる回数、積める枠の数、積まない歩みの順に、残りが減っていく。
  have hroom {r : Registers} (hr : m.Reachable origin r) : r.retries ≤ retries ∧ r.stack.length ≤ depth := by
    obtain ⟨n, hn⟩ := hr.visits
    obtain ⟨rfl, hle, hlen⟩ := hn.capped
    exact ⟨hle _ hretries, hlen _ hdepth⟩
  obtain ⟨a, ha⟩ : ∃ a, retries - r.retries = a := ⟨_, rfl⟩
  induction a using Nat.strongRecOn generalizing r with
  | ind a iha =>
    obtain ⟨b, hb⟩ : ∃ b, depth - r.stack.length = b := ⟨_, rfl⟩
    induction b using Nat.strongRecOn generalizing r with
    | ind b ihb =>
      have hacc := hrests r hr
      induction hacc with
      | intro r _ ih =>
        refine exists_run_of_step fun r' hs => ?_
        have hr' : m.Reachable origin r' := .step hr hs
        have := hroom hr'
        rcases step_cases hs with hback | ⟨hsame, hlt⟩ | ⟨hidle, -⟩
        · exact iha _ (by omega) hr' rfl
        · exact ihb _ (by omega) hr' (by omega) rfl
        · have := hidle.retries
          have := hidle.depth
          exact ih r' hidle hr' (by omega) (by omega)

end Matcher

namespace Source

/-- 枠を積まずに回りうる輪の中の、後読みの本体。 -/
def bareBehinds (s : Source) : List Node := s.tree?.elim [] (·.bareBehinds)

end Source

namespace Regex

/-- 枠を積まずに回りうる輪に後読みがないか、その後読みが途中で切れた文字列を持たず本文が正しければ、二つの上限の
ある照合は、答えるか上限を知らせて終わる。打ち切られて終わるのは、後読みの長さが釣り合わないときだけである。 -/
theorem matchAt_metered {s : Source} {re : Regex} (h : Regex.compile s = .ok re) {limits : Limits}
    (hretries : limits.retries ≠ none) (hdepth : limits.depth ≠ none) {text : Text}
    (hbehinds : s.bareBehinds = [] ∨ s.bareBehinds.all (·.isWhole s.encoding) ∧
      (s.fold.getD .ascii).KeepsWidth s.encoding ∧ s.encoding.isWellFormed text.toList ∧ text.size ≤ maxSize)
    (options : Options) (start : Nat) {origin : Nat} (ho : origin ≤ text.size) :
    ∃ fuel, (∃ v, (re.matcher limits options text start).matchAt fuel origin = some (.ok v)) ∨
      (re.matcher limits options text start).matchAt fuel origin = some (.error .retryLimitExceeded) ∨
      (re.matcher limits options text start).matchAt fuel origin = some (.error .stackLimitExceeded) ∨
      ¬s.Balanced text ∧ (re.matcher limits options text start).matchAt fuel origin = some .aborted := by
  obtain ⟨groups, root, htree, hcompile, hw, hprepared⟩ := exists_tree h
  obtain ⟨retries, hretries⟩ := Option.ne_none_iff_exists'.1 hretries
  obtain ⟨depth, hdepth⟩ := Option.ne_none_iff_exists'.1 hdepth
  let m := re.matcher limits options text start
  have hforward : ∀ b ∈ root.bareBehinds, b.ReadsForward s.env m := by
    have hroot : s.bareBehinds = root.bareBehinds := by simp [Source.bareBehinds, htree]
    rw [hroot] at hbehinds
    rcases hbehinds with hnone | ⟨hwhole, hkeeps, htext, hsize⟩
    · simp [hnone]
    · have hx : Aligned s.env m := CodeEnv.compile_aligned hcompile rfl hkeeps htext hsize
      intro b hb
      refine Node.readsForward_of_isWhole hx ?_
      rw [hx.code]
      exact List.all_eq_true.1 hwhole b hb
  have hstart : m.Reachable origin { pc := 0, pos := origin, caps := .fresh m.program.groups } := .start
  obtain ⟨fuel, v, hrun⟩ := m.exists_run hretries hdepth
    (fun r hr => CodeEnv.compile_rests hcompile hw hprepared.ready rfl ho hforward hr) hstart
  have hmatch : m.matchAt fuel origin = some v := by
    have hin : ¬m.text.size < origin := Nat.not_lt.2 ho
    unfold Matcher.matchAt
    rwa [if_neg hin]
  refine ⟨fuel, ?_⟩
  cases v with
  | ok v => exact .inl ⟨v, hmatch⟩
  | error e =>
    rcases (matchAt_consistent h limits options text start origin).1 fuel e hmatch with rfl | rfl | ⟨-, hlt⟩
    · exact .inr (.inr (.inl hmatch))
    · exact .inr (.inl hmatch)
    · exact absurd ho (Nat.not_le.2 hlt)
  | aborted => exact .inr (.inr (.inr ⟨fun hb => matchAt_ne_aborted h hb hmatch, hmatch⟩))

/-- 一文字を後読みしながら進む輪が、上限の中で終わる例。 -/
theorem matchAt_metered_wide :
    ∃ s re limits text, s = { pattern := Pattern.ascii "(?:(?<=\\x82\\xa0).)*c", encoding := .sjis } ∧
      Regex.compile s = .ok re ∧ limits = ⟨some 10, some 10⟩ ∧ limits.retries ≠ none ∧ limits.depth ≠ none ∧
      text = #[0x82, 0xa0, 0x82, 0xa0, 0x63] ∧ s.bareBehinds ≠ [] ∧
      (s.bareBehinds = [] ∨ s.bareBehinds.all (·.isWhole s.encoding) ∧
        (s.fold.getD .ascii).KeepsWidth s.encoding ∧ s.encoding.isWellFormed text.toList ∧
        text.size ≤ maxSize) ∧ 2 ≤ text.size ∧ s.Balanced text ∧
      ∃ fuel, (∃ v, (re.matcher limits .none text 0).matchAt fuel 2 = some (.ok v)) ∨
        (re.matcher limits .none text 0).matchAt fuel 2 = some (.error .retryLimitExceeded) ∨
        (re.matcher limits .none text 0).matchAt fuel 2 = some (.error .stackLimitExceeded) ∨
        ¬s.Balanced text ∧ (re.matcher limits .none text 0).matchAt fuel 2 = some .aborted := by
  let s : Source := { pattern := Pattern.ascii "(?:(?<=\\x82\\xa0).)*c", encoding := .sjis }
  let limits : Limits := ⟨some 10, some 10⟩
  let text : Text := #[0x82, 0xa0, 0x82, 0xa0, 0x63]
  obtain ⟨re, h, -⟩ := exists_ok (x := Regex.compile s) (p := fun _ => true) (by decide +kernel)
  have hsome : s.bareBehinds.length = 1 := by decide +kernel
  have hne : s.bareBehinds ≠ [] := List.ne_nil_of_length_pos (hsome ▸ Nat.one_pos)
  have hwell : s.encoding.isWellFormed text.toList := by decide +kernel
  have hkeeps : (s.fold.getD .ascii).KeepsWidth s.encoding := FoldTable.keepsWidth_ascii .sjis
  have hbehinds : s.bareBehinds = [] ∨ s.bareBehinds.all (·.isWhole s.encoding) ∧
      (s.fold.getD .ascii).KeepsWidth s.encoding ∧ s.encoding.isWellFormed text.toList ∧
      text.size ≤ maxSize :=
    .inr ⟨by decide +kernel, hkeeps, hwell, by decide⟩
  have hb : s.Balanced text := .inr ⟨by decide +kernel, hkeeps, hwell, by decide⟩
  have hretries : limits.retries ≠ none := nofun
  have hdepth : limits.depth ≠ none := nofun
  have ho : 2 ≤ text.size := by decide
  exact ⟨s, re, limits, text, rfl, h, rfl, hretries, hdepth, rfl, hne, hbehinds, ho, hb,
    matchAt_metered h hretries hdepth hbehinds .none 0 ho⟩

/-- 二バイトの文字の前半だけを後読みする輪が、上限があっても同じ位置を回り続ける例。 -/
theorem matchAt_unmetered :
    ∃ re, Regex.compile { pattern := Pattern.ascii "(?:(?<=\\x82).)*c", encoding := .sjis } = .ok re ∧
      Encoding.sjis.isWellFormed [0x82, 0xa0] ∧
      ∀ fuel, (re.matcher ⟨some 10, some 10⟩ .none #[0x82, 0xa0] 0).matchAt fuel 2 = none := by
  obtain ⟨⟨⟨code, encoding, options, fold, groups, repeats, nullChecks⟩, plan⟩, h, hp⟩ := exists_ok
    (x := Regex.compile { pattern := Pattern.ascii "(?:(?<=\\x82).)*c", encoding := .sjis })
    (p := fun re : Regex => re.program.encoding == .sjis && re.program.code ==
      #[.pushIfPeek 4 0x63, .lookBehind 1, .exact .one [0x82], .any false, .jump (-5), .exact .one [0x63],
        .accept]) (by decide +kernel)
  simp only [Bool.and_eq_true, beq_iff_eq] at hp
  let m := matcher ⟨⟨code, encoding, options, fold, groups, repeats, nullChecks⟩, plan⟩ ⟨some 10, some 10⟩
    .none #[0x82, 0xa0] 0
  refine ⟨_, h, by decide +kernel, fun fuel => ?_⟩
  change m.matchAt fuel 2 = none
  obtain ⟨rfl, rfl⟩ := hp
  refine Matcher.run_eq_none_of_recurrent (I := fun r => r.pc = 0 ∧ r.pos = 2) ?_ fuel ⟨rfl, rfl⟩
  rintro ⟨pc, pos, caps, st, retries, best⟩ ⟨rfl, rfl⟩
  refine ⟨4, ⟨0, 2, caps, st, retries, best⟩, ⟨rfl, rfl⟩, fun fuel => ?_⟩
  -- 二から零へ戻り、一を経て二に着く。枠は積まず、再開点へも戻らない。
  calc m.run 2 (fuel + 5) ⟨0, 2, caps, st, retries, best⟩
    _ = m.run 2 (fuel + 3) ⟨2, 0, caps, st, retries, best⟩ := rfl
    _ = m.run 2 (fuel + 2) ⟨3, 1, caps, st, retries, best⟩ := rfl
    _ = m.run 2 (fuel + 1) ⟨4, 2, caps, st, retries, best⟩ := rfl
    _ = m.run 2 fuel ⟨0, 2, caps, st, retries, best⟩ := rfl

end Regex
end MultibyteRegex

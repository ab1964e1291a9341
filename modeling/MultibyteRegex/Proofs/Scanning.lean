import Mathlib.Data.List.Sort
import MultibyteRegex.Proofs.Continuation
import MultibyteRegex.Proofs.Finding
import MultibyteRegex.Search.Trial

/-!
# 候補を間引いても答えが変わらないこと

手がかりが落とすのは、近くに探すものが現れない候補だけである。落とした候補がどれも合わないなら、
残りを順に試した答えは、すべてを試した答えに等しい。
-/

namespace MultibyteRegex

/-! ## 間引き -/

/-- `P` を満たすものを残して `all` を間引いた列。順は変えない。 -/
def Thins (P : Nat → Prop) (cs all : List Nat) : Prop :=
  ∃ keep : Nat → Bool, cs = all.filter keep ∧ ∀ x ∈ all, P x → keep x

namespace Thins

variable {P : Nat → Prop} {cs all : List Nat}

theorem refl (P : Nat → Prop) (all : List Nat) : Thins P all all :=
  ⟨fun _ => true, by simp, fun _ _ _ => rfl⟩

theorem mono {Q : Nat → Prop} (h : Thins P cs all) (hPQ : ∀ x, Q x → P x) : Thins Q cs all := by
  obtain ⟨keep, hcs, hkeep⟩ := h
  exact ⟨keep, hcs, fun x hx hq => hkeep x hx (hPQ x hq)⟩

theorem filter (h : Thins P cs all) (q : Nat → Bool) : Thins P (cs.filter q) (all.filter q) := by
  obtain ⟨keep, rfl, hkeep⟩ := h
  exact ⟨keep, List.filter_comm .., fun x hx => hkeep x (List.mem_of_mem_filter hx)⟩

/-- 同じ順に並ぶ列どうしなら、要素だけを見て間引きとわかる。 -/
theorem of_pairwise {r : Nat → Nat → Prop} [Std.Irrefl r] [Std.Antisymm r] (hcs : cs.Pairwise r)
    (hall : all.Pairwise r) (hsub : ∀ x ∈ cs, x ∈ all) (hP : ∀ x ∈ all, P x → x ∈ cs) :
    Thins P cs all := by
  refine ⟨fun x => x ∈ cs, ?_, fun x hx hp => by simpa using hP x hx hp⟩
  refine hcs.eq_of_mem_iff (hall.filter _) fun x => ?_
  simp only [List.mem_filter, decide_eq_true_eq]
  exact ⟨fun hx => ⟨hsub x hx, hx⟩, And.right⟩

end Thins

/-! ## 試した答え -/

namespace Matcher

variable {m : Matcher} {fuel fuel' : Nat} {P : Nat → Prop} {cs all : List Nat}

/-- `x` からの照合が合う。 -/
def Succeeds (m : Matcher) (fuel x : Nat) : Prop :=
  ∃ length caps, m.matchAt fuel x = some (.ok ⟨some length, caps⟩)

theorem first_mono {r : Result (Option Found)} (h : m.first fuel cs = some r)
    (hle : fuel ≤ fuel') : m.first fuel' cs = some r := by
  induction cs with
  | nil => exact h
  | cons x cs ih =>
    unfold first at h ⊢
    cases hx : m.matchAt fuel x with
    | none => simp [hx] at h
    | some v =>
      rw [hx] at h
      rw [matchAt_mono hx hle]
      rcases v with ⟨_ | length, caps⟩ | e | _
      · exact ih h
      · exact h
      · exact h
      · exact h

theorem longest_mono {best : Option Found} {r : Result (Option Found)}
    (h : m.longest fuel best cs = some r) (hle : fuel ≤ fuel') : m.longest fuel' best cs = some r := by
  induction cs generalizing best with
  | nil => exact h
  | cons x cs ih =>
    unfold longest at h ⊢
    cases hx : m.matchAt fuel x with
    | none => simp [hx] at h
    | some v =>
      rw [hx] at h
      rw [matchAt_mono hx hle]
      rcases v with ⟨_ | length, caps⟩ | e | _
      · exact ih h
      · exact ih h
      · exact h
      · exact h

/-- 合う候補を残して間引いても、初めて合うものは変わらない。 -/
theorem first_thins (h : Thins P cs all) (hP : ∀ x ∈ all, m.Succeeds fuel x → P x)
    (hok : ∀ x ∈ all, ∀ r, m.matchAt fuel x = some r → ∃ v, r = .ok v) {r : Result (Option Found)}
    (hr : m.first fuel all = some r) : m.first fuel cs = some r := by
  obtain ⟨keep, rfl, hkeep⟩ := h
  induction all with
  | nil => exact hr
  | cons x all ih =>
    obtain ⟨hx, hall⟩ := List.forall_mem_cons.1 hkeep
    obtain ⟨hPx, hP⟩ := List.forall_mem_cons.1 hP
    obtain ⟨hokx, hok⟩ := List.forall_mem_cons.1 hok
    rw [List.filter_cons]
    unfold first at hr
    cases hm : m.matchAt fuel x with
    | none => simp [hm] at hr
    | some v =>
      obtain ⟨⟨_ | length, caps⟩, rfl⟩ := hokx v hm
      all_goals rw [hm] at hr
      · have hrest := ih hP hok hr hall
        split
        · unfold first
          rw [hm]
          exact hrest
        · exact hrest
      · rw [if_pos (hx (hPx ⟨length, caps, hm⟩))]
        unfold first
        rw [hm]
        exact hr

theorem longest_thins {best : Option Found} (h : Thins P cs all)
    (hP : ∀ x ∈ all, m.Succeeds fuel x → P x)
    (hok : ∀ x ∈ all, ∀ r, m.matchAt fuel x = some r → ∃ v, r = .ok v) {r : Result (Option Found)}
    (hr : m.longest fuel best all = some r) : m.longest fuel best cs = some r := by
  obtain ⟨keep, rfl, hkeep⟩ := h
  induction all generalizing best with
  | nil => exact hr
  | cons x all ih =>
    obtain ⟨hx, hall⟩ := List.forall_mem_cons.1 hkeep
    obtain ⟨hPx, hP⟩ := List.forall_mem_cons.1 hP
    obtain ⟨hokx, hok⟩ := List.forall_mem_cons.1 hok
    rw [List.filter_cons]
    unfold longest at hr
    cases hm : m.matchAt fuel x with
    | none => simp [hm] at hr
    | some v =>
      obtain ⟨⟨_ | length, caps⟩, rfl⟩ := hokx v hm
      all_goals rw [hm] at hr
      · have hrest := ih hP hok hr hall
        split
        · unfold longest
          rw [hm]
          exact hrest
        · exact hrest
      · rw [if_pos (hx (hPx ⟨length, caps, hm⟩))]
        unfold longest
        rw [hm]
        exact ih hP hok hr hall

/-- 候補を順に試して残った照合。 -/
def scan (m : Matcher) (fuel : Nat) (longest : Bool) (cs : List Nat) : Fueled (Option Found) :=
  if longest then m.longest fuel none cs else m.first fuel cs

theorem scan_mono {longest : Bool} {r : Result (Option Found)} (h : m.scan fuel longest cs = some r)
    (hle : fuel ≤ fuel') : m.scan fuel' longest cs = some r := by
  cases longest with
  | false => exact first_mono h hle
  | true => exact longest_mono h hle

/-- 合う候補を残して間引いても、残る照合は変わらない。 -/
theorem scan_thins (h : Thins P cs all) (hP : ∀ x ∈ all, m.Succeeds fuel x → P x)
    (hok : ∀ x ∈ all, ∀ r, m.matchAt fuel x = some r → ∃ v, r = .ok v) {longest : Bool}
    {r : Result (Option Found)} (hr : m.scan fuel longest all = some r) :
    m.scan fuel longest cs = some r := by
  cases longest with
  | false => exact first_thins h hP hok hr
  | true => exact longest_thins h hP hok hr

/-- 照合する本文で、手順に従って探す。 -/
def quarry (m : Matcher) (plan : Plan) : Quarry := ⟨plan, m.encoding, m.program.fold, m.text⟩

end Matcher

/-! ## 候補 -/

namespace Quarry

variable {q : Quarry} {lo hi s x : Nat}

/-- `x` から言われた距離の所に、探すものが現れる。 -/
def Near (q : Quarry) (x : Nat) : Prop :=
  ∃ p, x + q.plan.distance.min ≤ p ∧ (∀ far ∈ q.plan.distance.max, p ≤ x + far) ∧
    q.plan.finder.hits q.fold q.text p

theorem hits_le {f : Finder} {fold : FoldTable} {text : Text} {p : Nat} (h : f.hits fold text p) :
    p ≤ text.size := by
  cases f with
  | nothing => cases h
  | exact key | leaping key =>
    have := Text.hasAt_le h
    omega
  | folded key =>
    have := Text.hasFoldedAt_le h
    omega
  | member set =>
    obtain ⟨b, hb, -⟩ := (Option.any_eq_true _ _).1 h
    exact Nat.le_of_lt (Array.getElem?_eq_some_iff.1 hb).1

theorem le_reach {p : Nat} (hx : x ≤ s) (hfar : ∀ far ∈ q.plan.distance.max, p ≤ x + far)
    (hp : p ≤ q.text.size) : p ≤ q.reach s := by
  unfold reach
  split
  · rename_i far hmax
    have := hfar far hmax
    omega
  · exact hp

theorem earliest_le_of_near {p p' : Nat} (hfar : ∀ far ∈ q.plan.distance.max, p ≤ x + far)
    (hx : lo ≤ x) (hp : p' ≤ p) : q.earliest lo p' ≤ x := by
  unfold earliest
  split
  · rename_i far hmax
    have := hfar far hmax
    omega
  · exact hx

theorem le_earliest {p : Nat} : lo ≤ q.earliest lo p := by
  unfold earliest
  split <;> omega

/-- 前からの候補は小さい順に並び、近くに探すものが現れる位置をすべて含む。 -/
theorem forward_spec (he : q.encoding = .ascii) (hi s : Nat) : (q.forward hi s).Pairwise (· < ·) ∧
    (∀ x ∈ q.forward hi s, s ≤ x ∧ x ≤ hi) ∧
    ∀ x, s ≤ x → x ≤ hi → q.Near x → x ∈ q.forward hi s := by
  fun_induction forward q hi s with
  | case1 s hs hnone =>
    refine ⟨.nil, by simp, fun x hsx hxhi ⟨p, hmin, hfar, hp⟩ => ?_⟩
    rw [he, Finder.forward_ascii, Text.firstFrom_eq_none_iff] at hnone
    rw [hnone p (by omega) (le_reach hxhi hfar (hits_le hp))] at hp
    cases hp
  | case2 s hs p hfound high heads ih =>
    rw [he, Finder.forward_ascii, Text.firstFrom_eq_some_iff] at hfound
    obtain ⟨hsp, -, -, hfirst⟩ := hfound
    have hlow : s ≤ q.earliest s p := le_earliest
    have hheads : heads = (List.range' (q.earliest s p) (high + 1 - q.earliest s p),
        max (q.earliest s p) (high + 1)) := by
      unfold heads
      rw [he, Encoding.rightAdjust_ascii, Encoding.headsUp_ascii]
    rw [he, Encoding.rightAdjust_ascii, hheads] at ih
    rw [he, Encoding.rightAdjust_ascii, hheads]
    obtain ⟨hsorted, hwithin, hmem⟩ := ih
    refine ⟨List.pairwise_append.2 ⟨List.pairwise_lt_range', hsorted, fun x hx y hy => ?_⟩,
      fun x hx => ?_, fun x hsx hxhi hnear => ?_⟩
    · have := (List.mem_range'_1.1 hx).2
      have := (hwithin y hy).1
      omega
    · rcases List.mem_append.1 hx with hx | hx
      · have := List.mem_range'_1.1 hx
        omega
      · have := hwithin x hx
        omega
    · obtain ⟨p', hmin, hfar, hp'⟩ := hnear
      have hpp : p ≤ p' := Nat.le_of_not_lt fun hlt => by
        rw [hfirst p' (by omega) hlt] at hp'
        cases hp'
      have hlowx : q.earliest s p ≤ x := earliest_le_of_near hfar hsx hpp
      rw [List.mem_append, List.mem_range'_1]
      by_cases hx : x ≤ high
      · exact .inl (by omega)
      · exact .inr (hmem x (by omega) hxhi ⟨p', hmin, hfar, hp'⟩)
  | case3 s hgt => exact ⟨.nil, by simp, fun x hsx hxhi _ => by omega⟩

/-- 後ろからの候補は大きい順に並び、近くに探すものが現れる位置をすべて含む。 -/
theorem backward_spec (he : q.encoding = .ascii) (lo s : Nat) : (q.backward lo s).Pairwise (· > ·) ∧
    (∀ x ∈ q.backward lo s, lo ≤ x ∧ x ≤ s) ∧
    ∀ x, lo ≤ x → x ≤ s → q.Near x → x ∈ q.backward lo s := by
  fun_induction backward q lo s with
  | case1 s hs hnone =>
    refine ⟨.nil, by simp, fun x hlox hxs ⟨p, hmin, hfar, hp⟩ => ?_⟩
    rw [he, Finder.backward_ascii, Text.lastFrom_eq_none_iff] at hnone
    rw [hnone p (by omega) (le_reach hxs hfar (hits_le hp))] at hp
    cases hp
  | case2 s hs p hfound high heads ih =>
    have hlow : q.earliest lo p ≤ s := earliest_le hs (Finder.backward_le hfound)
    have hlo : lo ≤ q.earliest lo p := le_earliest
    rw [he, Finder.backward_ascii, Text.lastFrom_eq_some_iff] at hfound
    obtain ⟨hlop, -, -, hlast⟩ := hfound
    have hheads : heads = ((List.range' (q.earliest lo p) (high + 1 - q.earliest lo p)).reverse,
        if high < q.earliest lo p then some high
        else if q.earliest lo p = 0 then none else some (q.earliest lo p - 1)) := by
      unfold heads
      rw [he, Encoding.leftAdjust_ascii, Encoding.headsDown_ascii]
    have hhead : ∀ x ∈ heads.1, q.earliest lo p ≤ x ∧ x ≤ high := fun x hx => by
      rw [hheads, List.mem_reverse, List.mem_range'_1] at hx
      omega
    have hsorted : heads.1.Pairwise (· > ·) := by
      rw [hheads]
      exact List.pairwise_reverse.2 List.pairwise_lt_range'
    have hnext : ∀ n, heads.2 = some n → n < q.earliest lo p := fun n hn => by
      rw [hheads] at hn
      dsimp only at hn
      split at hn
      · cases hn
        assumption
      · split at hn
        · cases hn
        · cases hn
          omega
    have hnear : ∀ x, lo ≤ x → x ≤ s → q.Near x → x ∈ heads.1 ∨ ∃ n, heads.2 = some n ∧ x ≤ n := by
      intro x hlox hxs ⟨p', hmin, hfar, hp'⟩
      have hpp : p' ≤ p := Nat.le_of_not_lt fun hlt => by
        rw [hlast p' hlt (le_reach hxs hfar (hits_le hp'))] at hp'
        cases hp'
      have hxhigh : x ≤ high := by omega
      rw [hheads]
      by_cases hx : q.earliest lo p ≤ x
      · rw [List.mem_reverse, List.mem_range'_1]
        exact .inl (by omega)
      · refine .inr ?_
        by_cases hhigh : high < q.earliest lo p
        · exact ⟨high, if_pos hhigh, hxhigh⟩
        · exact ⟨q.earliest lo p - 1, by rw [if_neg hhigh, if_neg (by omega)], by omega⟩
    split
    · rename_i n hn
      obtain ⟨hrest, hwithin, hmem⟩ := ih n hn
      have hlt := hnext n hn
      refine ⟨List.pairwise_append.2 ⟨hsorted, hrest, fun x hx y hy => ?_⟩, fun x hx => ?_,
        fun x hlox hxs hx => ?_⟩
      · have := (hhead x hx).1
        have := (hwithin y hy).2
        omega
      · rcases List.mem_append.1 hx with hx | hx
        · have := hhead x hx
          omega
        · have := hwithin x hx
          omega
      · rw [List.mem_append]
        rcases hnear x hlox hxs hx with hx' | ⟨n', hn', hle⟩
        · exact .inl hx'
        · cases hn.symm.trans hn'
          exact .inr (hmem x hlox hle hx)
    · rename_i hn
      rw [List.append_nil]
      refine ⟨hsorted, fun x hx => ?_, fun x hlox hxs hx => ?_⟩
      · have := hhead x hx
        omega
      · rcases hnear x hlox hxs hx with hx' | ⟨n', hn', -⟩
        · exact hx'
        · simp [hn] at hn'
  | case3 s hgt => exact ⟨.nil, by simp, fun x hsx hxhi _ => by omega⟩

/-! ## すべての候補 -/

/-- 探さずにどの位置も試す手順。 -/
def plain (q : Quarry) : Quarry := { q with plan := { q.plan with finder := .nothing } }

theorem plain_eq_self (h : q.plan.finder.isNothing) : q.plain = q := by
  obtain ⟨⟨edges, length, threshold, finder, distance⟩, e, fold, text⟩ := q
  cases finder with
  | nothing => rfl
  | _ => cases h

/-- 探さないときは、始まりの範囲を端から端まで試す。 -/
theorem plain_candidates (he : q.encoding = .ascii) (start range : Nat) :
    q.plain.candidates start range =
      match q.plan.window? q.text start (min start range) (max start range) with
      | none => []
      | some (lo, hi) =>
        let all := List.range' lo (hi + 1 - lo)
        if range < start then all.reverse
        else if q.plan.edges.anyStar then all.filter (q.isLineHead start) else all := by
  unfold candidates
  change (match q.plan.window? q.text start (min start range) (max start range) with
    | none => []
    | some (lo, hi) => _) = _
  cases q.plan.window? q.text start (min start range) (max start range) with
  | none => rfl
  | some w =>
    simp [plain, Finder.isNothing, he, Encoding.leftAdjust_ascii, Encoding.headsUp_ascii,
      Encoding.headsDown_ascii]
    rfl

theorem le_of_mem_plain (he : q.encoding = .ascii) {start range : Nat}
    (h : x ∈ q.plain.candidates start range) :
    ∃ w, q.plan.window? q.text start (min start range) (max start range) = some w ∧ w.1 ≤ x ∧ x ≤ w.2 := by
  rw [plain_candidates he] at h
  split at h
  · cases h
  · rename_i lo hi hw
    refine ⟨(lo, hi), hw, ?_⟩
    have hx : x ∈ List.range' lo (hi + 1 - lo) := by
      dsimp only at h
      split at h
      · exact List.mem_reverse.1 h
      · split at h
        · exact List.mem_of_mem_filter h
        · exact h
    have := List.mem_range'_1.1 hx
    exact ⟨this.1, by omega⟩

/-- 前へ向かって探さずに試す候補は、小さい順に並ぶ。 -/
theorem plain_candidates_forward (he : q.encoding = .ascii) {start range : Nat} (hle : start ≤ range) :
    (q.plain.candidates start range).Pairwise (· < ·) ∧ ∀ x, x ∈ q.plain.candidates start range ↔
      (∃ w, q.plan.window? q.text start start range = some w ∧ w.1 ≤ x ∧ x ≤ w.2) ∧
        (q.plan.edges.anyStar → q.isLineHead start x) := by
  rw [plain_candidates he, Nat.min_eq_left hle, Nat.max_eq_right hle]
  cases q.plan.window? q.text start start range with
  | none => simp
  | some w =>
    have hrange : ∀ x, x ∈ List.range' w.1 (w.2 + 1 - w.1) ↔ w.1 ≤ x ∧ x ≤ w.2 := fun x => by
      rw [List.mem_range'_1]
      omega
    dsimp only
    rw [if_neg (Nat.not_lt.2 hle)]
    by_cases hstar : q.plan.edges.anyStar
    · rw [if_pos hstar]
      exact ⟨.filter _ List.pairwise_lt_range', fun x => by simp [hrange, hstar]⟩
    · rw [if_neg hstar]
      exact ⟨List.pairwise_lt_range', fun x => by simp [hrange, hstar]⟩

/-- 後ろへ向かって探さずに試す候補は、大きい順に並ぶ。 -/
theorem plain_candidates_backward (he : q.encoding = .ascii) {start range : Nat} (hlt : range < start) :
    (q.plain.candidates start range).Pairwise (· > ·) ∧ ∀ x, x ∈ q.plain.candidates start range ↔
      ∃ w, q.plan.window? q.text start range start = some w ∧ w.1 ≤ x ∧ x ≤ w.2 := by
  rw [plain_candidates he, Nat.min_eq_right (Nat.le_of_lt hlt), Nat.max_eq_left (Nat.le_of_lt hlt)]
  cases q.plan.window? q.text start range start with
  | none => simp
  | some w =>
    dsimp only
    rw [if_pos hlt]
    refine ⟨List.pairwise_reverse.2 List.pairwise_lt_range', fun x => ?_⟩
    simp only [List.mem_reverse, List.mem_range'_1, Option.some.injEq, exists_eq_left']
    omega

theorem forward_thins (he : q.encoding = .ascii) :
    Thins q.Near (q.forward hi lo) (List.range' lo (hi + 1 - lo)) := by
  obtain ⟨hsorted, hwithin, hmem⟩ := forward_spec he hi lo
  refine .of_pairwise hsorted List.pairwise_lt_range' (fun x hx => ?_) fun x hx hnear => ?_
  · have := hwithin x hx
    exact List.mem_range'_1.2 (by omega)
  · have := List.mem_range'_1.1 hx
    exact hmem x this.1 (by omega) hnear

theorem backward_thins (he : q.encoding = .ascii) :
    Thins q.Near (q.backward lo hi) (List.range' lo (hi + 1 - lo)).reverse := by
  obtain ⟨hsorted, hwithin, hmem⟩ := backward_spec he lo hi
  refine .of_pairwise hsorted (List.pairwise_reverse.2 List.pairwise_lt_range') (fun x hx => ?_)
    fun x hx hnear => ?_
  · have := hwithin x hx
    exact List.mem_reverse.2 (List.mem_range'_1.2 (by omega))
  · have := List.mem_range'_1.1 (List.mem_reverse.1 hx)
    exact hmem x this.1 (by omega) hnear

/-- 探すものの近くにない候補だけを落とす。 -/
theorem candidates_thins (he : q.encoding = .ascii) (start range : Nat) :
    Thins q.Near (q.candidates start range) (q.plain.candidates start range) := by
  by_cases hnothing : q.plan.finder.isNothing
  · rw [plain_eq_self hnothing]
    exact .refl ..
  · rw [plain_candidates he]
    unfold candidates
    simp only [hnothing, he, Encoding.leftAdjust_ascii, Encoding.headsUp_ascii]
    cases q.plan.window? q.text start (min start range) (max start range) with
    | none => exact .refl ..
    | some w =>
      obtain ⟨lo, hi⟩ := w
      have hfilter : ∀ {cs all : List Nat}, Thins q.Near cs all →
          Thins q.Near (if q.plan.edges.anyStar then cs.filter (q.isLineHead start) else cs)
            (if q.plan.edges.anyStar then all.filter (q.isLineHead start) else all) := by
        intro cs all h
        split
        · exact h.filter _
        · exact h
      -- 窓が一点なら、向きによらずその一点だけを試す
      by_cases hone : lo = hi
      · subst hone
        have hsingle : (List.range' lo (lo + 1 - lo)).reverse = List.range' lo (lo + 1 - lo) := by
          simp
        by_cases hback : range < start
        · simpa [hback, hsingle] using .refl ..
        · simpa [hback] using hfilter (.refl ..)
      · by_cases hback : range < start
        · simpa [hback, hone] using backward_thins he
        · simpa [hback, hone] using hfilter (forward_thins he)

end Quarry
end MultibyteRegex

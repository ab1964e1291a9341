import MultibyteRegex.Proofs.Checked
import MultibyteRegex.Proofs.Distances
import MultibyteRegex.Proofs.Safety

/-!
# 検索の手順の確かめ

始まりの範囲は、照合の長さの下限より後ろへは伸びず、探すものまでの距離はその下限を越えない。だから、始まりの範囲の
どこから距離だけ進んでも本文を出ず、見つかった所から戻っても負にならない。
-/

namespace MultibyteRegex

namespace Encoding

variable {e : Encoding} {text : Text} {lo hi c x : Nat}

theorem le_of_mem_headsUp (h : x ∈ (e.headsUp text hi c).1) : x ≤ hi := by
  fun_induction headsUp e text hi c with
  | case1 c hle rest next hr ih =>
    rw [hr] at ih
    rcases List.mem_cons.1 h with rfl | h
    · exact hle
    · exact ih h
  | case2 => cases h

theorem ge_of_mem_headsUp (h : x ∈ (e.headsUp text hi c).1) : c ≤ x := by
  fun_induction headsUp e text hi c with
  | case1 c hle rest next hr ih =>
    rw [hr] at ih
    rcases List.mem_cons.1 h with rfl | h
    · exact Nat.le_refl _
    · exact Nat.le_trans (Nat.le_of_lt (lt_nextHead ..)) (ih h)
  | case2 => cases h

/-- 整形式でない本文では手前へ動くこともあるが、本文の初めまでは戻らない。 -/
theorem rightAdjust_pos (e : Encoding) (text : Text) {pos : Nat} (h : 0 < pos) : 0 < e.rightAdjust text pos := by
  unfold rightAdjust
  dsimp only
  split <;> omega

theorem le_of_mem_headsDown (h : x ∈ (e.headsDown text lo c).1) : x ≤ c := by
  fun_induction headsDown e text lo c with
  | case1 => cases h
  | case2 c _ prev hprev rest next hr ih =>
    rw [hr] at ih
    rcases List.mem_cons.1 h with rfl | h
    · exact Nat.le_refl _
    · exact Nat.le_trans (ih h) (Nat.le_of_lt (prevHead_lt hprev))
  | case3 => exact Nat.le_of_eq (List.mem_singleton.1 h)

end Encoding

/-! ## 探すもの -/

namespace Text

variable {text : Text} {e : Encoding} {limit c i : Nat}

theorem leapBackward_ge {skip : Skip} {key : List UInt8}
    (h : text.leapBackward skip e key limit c = some i) : limit ≤ i := by
  fun_induction leapBackward skip e text key limit c with
  | case1 c hle => cases h; exact hle
  | case2 => cases h
  | case3 c _ _ width _ ih => exact ih h
  | case4 => cases h

theorem memberBackward_ge {set : ByteSet} (h : text.memberBackward set e limit c = some i) : limit ≤ i := by
  fun_induction memberBackward set e text limit c with
  | case1 p hle => cases h; exact hle
  | case2 p _ _ prev _ ih => exact ih h
  | case3 => cases h
  | case4 => cases h

end Text

/-- 後ろから探す答えは、`limit` より前にない。 -/
theorem Finder.backward_ge {f : Finder} {e : Encoding} {fold : FoldTable} {text : Text} {start limit i : Nat}
    (h : f.backward e fold text start limit = some i) : limit ≤ i := by
  cases f with
  | nothing => cases h
  | exact key | folded key =>
    obtain ⟨last, -, h⟩ := Option.bind_eq_some_iff.1 h
    exact (Text.lastFrom_eq_some_iff.1 h).1
  | leaping key =>
    obtain ⟨last, -, h⟩ := Option.bind_eq_some_iff.1 h
    exact Text.leapBackward_ge h
  | member set =>
    obtain ⟨p, -, h⟩ := Option.bind_eq_some_iff.1 h
    exact Text.memberBackward_ge h

/-! ## 始まりの範囲 -/

namespace Plan

variable {p : Plan} {text : Text} {start lo hi : Nat} {v : Nat × Nat}

/-- 始まりの範囲は空でなく、その端から長さの下限だけ進んでも本文を出ない。 -/
theorem window?_fits (h : p.window? text start lo hi = some v) : v.1 ≤ v.2 ∧ v.2 + p.threshold ≤ text.size := by
  rw [window?_eq] at h
  obtain ⟨w, -, h⟩ := Option.bind_eq_some_iff.1 h
  obtain ⟨latest, hlatest, h⟩ := Option.bind_eq_some_iff.1 h
  unfold minus? at hlatest
  split at hlatest
  · cases hlatest
    split at h
    · cases h
      exact ⟨by assumption, by dsimp only; omega⟩
    · cases h
  · cases hlatest

end Plan

/-! ## 候補 -/

namespace Quarry

variable {q : Quarry} {start range lo hi s c : Nat}

theorem le_of_mem_forward (h : c ∈ q.forward hi s) : c ≤ hi := by
  fun_induction forward q hi s with
  | case1 => cases h
  | case2 s hle p hp high heads ih =>
    rcases List.mem_append.1 h with h | h
    · exact Nat.le_trans (Encoding.le_of_mem_headsUp h) (Nat.min_le_right ..)
    · exact ih h
  | case3 => cases h

theorem pos_of_mem_forward (hs : 0 < s) (h : c ∈ q.forward hi s) : 0 < c := by
  fun_induction forward q hi s with
  | case1 => cases h
  | case2 s hle p hp high heads ih =>
    have hfloor : s ≤ q.earliest s p := by
      unfold earliest
      split <;> omega
    rcases List.mem_append.1 h with h | h
    · exact Nat.lt_of_lt_of_le (Encoding.rightAdjust_pos _ _ (Nat.lt_of_lt_of_le hs hfloor))
        (Encoding.ge_of_mem_headsUp h)
    · exact ih (Nat.lt_of_lt_of_le (Encoding.rightAdjust_pos _ _ (Nat.succ_pos high)) (Nat.le_max_left ..)) h
  | case3 => cases h

theorem le_of_mem_backward (h : c ∈ q.backward lo s) : c ≤ s := by
  fun_induction backward q lo s with
  | case1 => cases h
  | case2 s hle p hp high heads ih =>
    rcases List.mem_append.1 h with h | h
    · have := Encoding.leftAdjust_le q.encoding q.text 0 high
      have := Encoding.le_of_mem_headsDown h
      omega
    · split at h
      · rename_i next hn
        have := ih next hn h
        have := earliest_le hle (Finder.backward_le hp)
        have := Encoding.headsDown_lt hn
        omega
      · cases h
  | case3 => cases h

/-- 前へ進む候補は、飛ばして並べても、残らず並べても、範囲の終わりを越えない。 -/
theorem mem_sweep {keyed : Bool} (h : c ∈ if keyed then q.forward hi lo else (q.encoding.headsUp q.text hi lo).1) :
    c ≤ hi ∧ (0 < lo → 0 < c) := by
  cases keyed with
  | false => exact ⟨Encoding.le_of_mem_headsUp h, fun hlo => Nat.lt_of_lt_of_le hlo (Encoding.ge_of_mem_headsUp h)⟩
  | true => exact ⟨le_of_mem_forward h, fun hlo => pos_of_mem_forward hlo h⟩

/-- 候補はどれも本文の中にある。 -/
theorem le_of_mem_candidates (h : c ∈ q.candidates start range) : c ≤ q.text.size := by
  unfold candidates at h
  split at h
  · cases h
  · rename_i lo hi hw
    have hfit : hi + q.plan.threshold ≤ q.text.size := (Plan.window?_fits hw).2
    have hlast := q.encoding.leftAdjust_le q.text 0 hi
    have hc : c ≤ hi := by
      dsimp only at h
      split at h
      · split at h
        · exact Nat.le_trans (le_of_mem_backward h) hlast
        · split at h
          · exact Nat.le_trans (Encoding.le_of_mem_headsDown h) hlast
          · exact Encoding.le_of_mem_headsUp h
      · split at h
        · exact (mem_sweep (List.mem_filter.1 h).1).1
        · exact (mem_sweep h).1
    omega

end Quarry

namespace Checked

/-- `Plan.earliestEnd` の引き算を確かめる。 -/
def earliestEnd (p : Plan) (text : Text) : Checked Nat :=
  if p.edges.semiEndBuf ∧ text.back? = some 0x0a then sub text.size 1 else some text.size

/-- `Plan.atEnd` を確かめる。 -/
def atEnd (p : Plan) (text : Text) (w : Nat × Nat) : Checked (Option (Nat × Nat)) :=
  if p.edges.endBuf ∨ p.edges.semiEndBuf then do
    let earliest ← earliestEnd p text
    some ((Plan.minus? text.size p.length.min).map fun latest =>
      (match p.length.max with
        | some longest => max w.1 (earliest - longest)
        | none => w.1, min w.2 latest))
  else some (some w)

/-- `Plan.window?` を確かめる。 -/
def startRange (p : Plan) (text : Text) (start lo hi : Nat) : Checked (Option (Nat × Nat)) :=
  match p.atBegin start (lo, hi) with
  | some w => do
    let w ← atEnd p text w
    some (w.bind (p.atLeast text))
  | none => some none

/-- `Quarry.forward` を確かめる。 -/
def forward (q : Quarry) (hi s : Nat) : Checked (List Nat) :=
  if _h : s ≤ hi then do
    let start ← add s q.plan.distance.min
    match ← find q.plan.finder q.encoding q.fold q.text start (q.reach hi) with
    | none => some []
    | some p =>
      let latest ← sub p q.plan.distance.min
      let high := min latest hi
      let c ← rightAdjust q.encoding q.text (q.earliest s p)
      let heads ← headsUp q.encoding q.text high c
      let after ← add high 1
      let head ← rightAdjust q.encoding q.text after
      if _hnext : s < max head heads.2 then (forward q hi (max head heads.2)).map (heads.1 ++ ·) else none
  else some []
termination_by hi + 1 - s

/-- `Quarry.backward` を確かめる。 -/
def backward (q : Quarry) (lo s : Nat) : Checked (List Nat) :=
  if lo ≤ s then do
    let limit ← add lo q.plan.distance.min
    match ← findBack q.plan.finder q.encoding q.fold q.text (q.reach s) limit with
    | none => some []
    | some p =>
      let latest ← sub p q.plan.distance.min
      let c ← leftAdjust q.encoding q.text 0 (min latest s)
      let heads ← headsDown q.encoding q.text (q.earliest lo p) c
      match heads.2 with
      | some next => if _hnext : next < s then (backward q lo next).map (heads.1 ++ ·) else none
      | none => some heads.1
  else some []
termination_by s

/-- `Quarry.isLineHead` の引き算と読み出しを確かめる。 -/
def isLineHead (q : Quarry) (start s : Nat) : Checked Bool :=
  if s = start then some true
  else do
    let before ← sub s 1
    let b ← read q.text before
    some (b == 0x0a)

/-- 行の頭にある位置を残す。 -/
def lineHeads (q : Quarry) (start : Nat) : List Nat → Checked (List Nat)
  | [] => some []
  | c :: cs => do
    let keep ← isLineHead q start c
    let cs ← lineHeads q start cs
    some (if keep then c :: cs else cs)

/-- 前へ進む候補を、飛ばして、または残らず並べる。 -/
def sweep (q : Quarry) (keyed : Bool) (lo hi : Nat) : Checked (List Nat) :=
  if keyed then forward q hi lo else (headsUp q.encoding q.text hi lo).map (·.1)

/-- 後ろへ戻る候補を、飛ばして、または残らず並べる。 -/
def sweepBack (q : Quarry) (keyed : Bool) (lo hi : Nat) : Checked (List Nat) := do
  let last ← leftAdjust q.encoding q.text 0 hi
  if keyed then backward q lo last
  else if q.plan.finder.isNothing then (headsDown q.encoding q.text lo last).map (·.1)
  else (headsUp q.encoding q.text hi lo).map (·.1)

/-- `Quarry.candidates` を確かめる。 -/
def candidates (q : Quarry) (start range : Nat) : Checked (List Nat) := do
  match ← startRange q.plan q.text start (min start range) (max start range) with
  | none => some []
  | some (lo, hi) =>
    let keyed := !q.plan.finder.isNothing && lo != hi
    if range < start then sweepBack q keyed lo hi
    else do
      let all ← sweep q keyed lo hi
      if q.plan.edges.anyStar then lineHeads q start all else some all

variable {q : Quarry} {start range lo hi s : Nat}

theorem earliestEnd_eq (p : Plan) (text : Text) : earliestEnd p text = some (p.earliestEnd text) := by
  unfold earliestEnd Plan.earliestEnd
  split
  · rename_i h
    -- 末尾に改行があるなら、本文は空でない。
    have hpos : 1 ≤ text.size := by
      obtain ⟨hlt, -⟩ := Array.getElem?_eq_some_iff.1 (Array.back?_eq_getElem? ▸ h.2)
      omega
    exact sub_of_le hpos
  · rfl

theorem startRange_eq (p : Plan) (text : Text) (start lo hi : Nat) :
    startRange p text start lo hi = some (p.window? text start lo hi) := by
  have hend (w : Nat × Nat) : atEnd p text w = some (p.atEnd text w) := by
    unfold atEnd Plan.atEnd
    split
    · rw [earliestEnd_eq]
      rfl
    · rfl
  rw [startRange, Plan.window?_eq]
  cases p.atBegin start (lo, hi) with
  | none => rfl
  | some w =>
    show (atEnd p text w).bind _ = _
    rw [hend]
    rfl

theorem isLineHead_eq (hs : s ≠ start → 0 < s) (hin : s ≤ q.text.size) :
    isLineHead q start s = some (q.isLineHead start s) := by
  unfold isLineHead Quarry.isLineHead
  by_cases h : s = start
  · simp [h]
  · have hpos := hs h
    have hlt : s - 1 < q.text.size := by omega
    rw [if_neg h, sub_of_le hpos, some_bind, read, Array.getElem?_eq_getElem hlt]
    simp [h]

theorem lineHeads_eq {cs : List Nat} (h : ∀ c ∈ cs, (c ≠ start → 0 < c) ∧ c ≤ q.text.size) :
    lineHeads q start cs = some (cs.filter (q.isLineHead start)) := by
  induction cs with
  | nil => rfl
  | cons c cs ih =>
    obtain ⟨hc, hcs⟩ := List.forall_mem_cons.1 h
    rw [lineHeads, isLineHead_eq hc.1 hc.2, ih hcs, List.filter_cons]
    rfl

section
variable (hsize : 2 * q.text.size ≤ maxSize) (hne : ∀ key, q.plan.finder = .leaping key → key ≠ [])
include hsize hne

theorem forward_eq (hfit : hi + q.plan.distance.min ≤ q.text.size) (s : Nat) :
    forward q hi s = some (q.forward hi s) := by
  have hlimit : q.text.size < maxSize := by
    have hmax : maxSize = 0xffffffffffffffff := rfl
    omega
  fun_induction Quarry.forward q hi s with
  | case1 s hle hnone =>
    rw [forward, dif_pos hle, add_of_le (by omega), some_bind,
      find_eq hsize _ _ hne (by omega), hnone]
    rfl
  | case2 s hle p hp high heads ih =>
    have hge := Finder.forward_ge hp
    have hgt : high < heads.2 := q.encoding.headsUp_gt ..
    rw [forward, dif_pos hle, add_of_le (by omega), some_bind,
      find_eq hsize _ _ hne (by omega), hp]
    simp only [some_bind]
    rw [sub_of_le (by omega), some_bind, rightAdjust_eq hsize, some_bind,
      headsUp_eq hsize _ (by omega), some_bind, add_of_le (by omega), some_bind, rightAdjust_eq hsize,
      some_bind, dif_pos (show s < max (q.encoding.rightAdjust q.text (high + 1)) heads.2 by omega)]
    exact (congrArg (Option.map (heads.1 ++ ·)) ih).trans rfl
  | case3 s hgt => rw [forward, dif_neg hgt]

theorem backward_eq (hfit : lo + q.plan.distance.min ≤ q.text.size) (s : Nat) :
    backward q lo s = some (q.backward lo s) := by
  fun_induction Quarry.backward q lo s with
  | case1 s hle hnone =>
    rw [backward, if_pos hle, add_of_le (by omega), some_bind,
      findBack_eq hsize _ _ hne, hnone]
    rfl
  | case2 s hle p hp high heads ih =>
    have hge := Finder.backward_ge hp
    rw [backward, if_pos hle, add_of_le (by omega), some_bind,
      findBack_eq hsize _ _ hne, hp]
    simp only [some_bind]
    rw [sub_of_le (by omega), some_bind, leftAdjust_eq hsize, some_bind, headsDown_eq hsize,
      some_bind]
    have hlt : ∀ next, heads.2 = some next → next < s := fun next hn => by
      have := Quarry.earliest_le hle (Finder.backward_le hp)
      have := Encoding.headsDown_lt hn
      omega
    change (match heads.2 with
      | some next => if _hnext : next < s then (backward q lo next).map (heads.1 ++ ·) else none
      | none => some heads.1) = _
    clear_value heads
    obtain ⟨cs, next⟩ := heads
    cases next with
    | none => exact congrArg some (List.append_nil cs).symm
    | some next =>
      change (if _hnext : next < s then (backward q lo next).map (cs ++ ·) else none) = _
      rw [dif_pos (hlt next rfl), ih next rfl]
      rfl
  | case3 s hgt => rw [backward, if_neg hgt]

theorem sweep_eq {keyed : Bool} (hfit : hi + q.plan.distance.min ≤ q.text.size) (lo : Nat) :
    sweep q keyed lo hi = some (if keyed then q.forward hi lo else (q.encoding.headsUp q.text hi lo).1) := by
  cases keyed with
  | true => exact forward_eq hsize hne hfit lo
  | false =>
    show (headsUp q.encoding q.text hi lo).map (·.1) = _
    rw [headsUp_eq hsize _ (by omega)]
    rfl

theorem sweepBack_eq {keyed : Bool} (hle : lo ≤ hi) (hfit : hi + q.plan.distance.min ≤ q.text.size) :
    sweepBack q keyed lo hi = some (if keyed then q.backward lo (q.encoding.leftAdjust q.text 0 hi)
      else if q.plan.finder.isNothing then (q.encoding.headsDown q.text lo (q.encoding.leftAdjust q.text 0 hi)).1
      else (q.encoding.headsUp q.text hi lo).1) := by
  rw [sweepBack, leftAdjust_eq hsize, some_bind]
  cases keyed with
  | true => exact backward_eq hsize hne (by omega) _
  | false =>
    cases q.plan.finder.isNothing with
    | true =>
      show (headsDown q.encoding q.text lo _).map (·.1) = _
      rw [headsDown_eq hsize]
      rfl
    | false =>
      show (headsUp q.encoding q.text hi lo).map (·.1) = _
      rw [headsUp_eq hsize _ (by omega)]
      rfl

/-- 探すものまでの距離が長さの下限を越えない手順では、候補を並べ終えるまで確かめに落ちない。 -/
theorem candidates_eq (hdistance : q.plan.distance.min ≤ q.plan.threshold) (start range : Nat) :
    candidates q start range = some (q.candidates start range) := by
  unfold candidates Quarry.candidates
  rw [startRange_eq, some_bind]
  cases hw : q.plan.window? q.text start (min start range) (max start range) with
  | none => rfl
  | some w =>
    obtain ⟨lo, hi⟩ := w
    have hfits : lo ≤ hi ∧ hi + q.plan.threshold ≤ q.text.size := Plan.window?_fits hw
    have hlo : min start range ≤ lo := (Plan.window?_within hw (Nat.min_le_left ..) (Nat.le_max_left ..)).1
    have hfit : hi + q.plan.distance.min ≤ q.text.size := by omega
    by_cases hback : range < start
    · simp only [hback, if_true]
      exact sweepBack_eq hsize hne hfits.1 hfit
    · simp only [hback, if_false, sweep_eq hsize hne hfit, some_bind]
      by_cases hstar : q.plan.edges.anyStar
      · rw [if_pos hstar, if_pos hstar]
        refine lineHeads_eq fun c hc => ?_
        obtain ⟨hle, hpos⟩ := Quarry.mem_sweep hc
        -- 範囲が本文の初めから始まるのは、探し始めた位置が本文の初めのときだけである。
        exact ⟨by omega, by omega⟩
      · rw [if_neg hstar, if_neg hstar]

end

end Checked

/-! ## 検索 -/

namespace Matcher

variable {m : Matcher} {fuel : Nat} {cs : List Nat} {err : EvalError}

theorem first_error (h : m.first fuel cs = some (.error err)) : ∃ c ∈ cs, m.matchAt fuel c = some (.error err) := by
  induction cs with
  | nil => cases h
  | cons c cs ih =>
    unfold first at h
    split at h
    · cases h
    · rename_i hm
      cases h
      exact ⟨c, List.mem_cons_self, hm⟩
    · cases h
    · cases h
    · obtain ⟨x, hx, hm⟩ := ih h
      exact ⟨x, List.mem_cons_of_mem c hx, hm⟩

theorem longest_error {best : Option Found} (h : m.longest fuel best cs = some (.error err)) :
    ∃ c ∈ cs, m.matchAt fuel c = some (.error err) := by
  induction cs generalizing best with
  | nil => cases h
  | cons c cs ih =>
    have hrest {best : Option Found} (h : m.longest fuel best cs = some (.error err)) :
        ∃ x ∈ c :: cs, m.matchAt fuel x = some (.error err) := by
      obtain ⟨x, hx, hm⟩ := ih h
      exact ⟨x, List.mem_cons_of_mem c hx, hm⟩
    unfold longest at h
    split at h
    · cases h
    · rename_i hm
      cases h
      exact ⟨c, List.mem_cons_self, hm⟩
    · cases h
    · exact hrest h
    · exact hrest h

end Matcher

namespace Regex

variable {s : Source} {re : Regex} {text : Text} {start range : Nat}

/-- 本文の中から始まる照合は、位置の誤りにならない。 -/
theorem matchAt_ne_invalidArgument (h : Regex.compile s = .ok re) {limits : Limits} {options : Options}
    {fuel origin : Nat} (hin : origin ≤ text.size) :
    (re.matcher limits options text start).matchAt fuel origin ≠ some (.error .invalidArgument) := by
  intro herr
  obtain ⟨parsed, root, hparse, hprepare, hcompile, -⟩ := compile_eq_ok h
  have hw : root.WellFormed parsed.groups :=
    Node.wellFormed_prepare (Pattern.plain_parse hparse).wellFormed hprepare
  obtain ⟨T, hv, hT, -⟩ := CodeEnv.compile_verified hcompile hw (m := re.matcher limits options text start) rfl origin
  unfold Matcher.matchAt at herr
  split at herr
  · rename_i hout
    exact absurd hin (Nat.not_le.2 hout)
  · rcases (Matcher.run_sound hv (Matcher.holds_start hT)).1 _ herr with ⟨he, -⟩ | ⟨he, -⟩ <;> cases he

/-- 翻訳したどのパターンでも、候補を並べる計算は、和が 64 ビットに収まり、差が負にならず、本文の外を読まず、必ず
止まる。候補はどれも本文の中にあるので、位置の誤りになるのは、探し始める位置か終わる位置が本文の外にあるときだけである。
本文の長さは、符号付きの 64 ビットで表せるものとする。 -/
theorem search_checked (h : Regex.compile s = .ok re) (hsize : 2 * text.size ≤ maxSize) (start range : Nat) :
    let q : Quarry := ⟨re.plan, re.program.encoding, re.program.fold, text⟩
    Checked.candidates q start range = some (q.candidates start range) ∧
      (∀ c ∈ q.candidates start range, c ≤ text.size) ∧
      ∀ limits fuel options, re.search limits fuel options text start range = some (.error .invalidArgument) ↔
        text.size < start ∨ text.size < range := by
  intro q
  have hplan := placed_plan h
  have hin : ∀ c ∈ q.candidates start range, c ≤ text.size := fun c => Quarry.le_of_mem_candidates
  refine ⟨Checked.candidates_eq hsize hplan.leaping hplan.distance start range, hin, fun limits fuel options => ?_⟩
  refine ⟨fun herr => Decidable.byContradiction fun hout => ?_, fun hout => if_pos hout⟩
  obtain ⟨c, hc, hm⟩ : ∃ c ∈ q.candidates start range,
      (re.matcher limits options text start).matchAt fuel c = some (.error .invalidArgument) := by
    unfold search at herr
    rw [if_neg hout] at herr
    dsimp only at herr
    split at herr
    · exact Matcher.longest_error herr
    · exact Matcher.first_error herr
  exact matchAt_ne_invalidArgument h (hin c hc) hm

/-- 距離の上端が 64 ビットを越える入れ子の繰り返しで、整形式でない本文を後ろから探す例。 -/
theorem search_checked_nested :
    ∃ re, Regex.compile
        { pattern := Pattern.ascii "(?:(?:(?:.{0,100000}){0,100000}){0,100000}){0,100000}.bc" } = .ok re ∧
      re.plan.distance = ⟨1, none⟩ ∧ 2 * (#[0xe3, 0x81, 0x62, 0x63, 0x80, 0x62, 0x63] : Text).size ≤ maxSize ∧
      let q : Quarry := ⟨re.plan, re.program.encoding, re.program.fold, #[0xe3, 0x81, 0x62, 0x63, 0x80, 0x62, 0x63]⟩
      Checked.candidates q 7 0 = some (q.candidates 7 0) ∧ (∀ c ∈ q.candidates 7 0, c ≤ 7) ∧
        ∀ limits fuel options, re.search limits fuel options #[0xe3, 0x81, 0x62, 0x63, 0x80, 0x62, 0x63] 7 0 =
            some (.error .invalidArgument) ↔ 7 < 7 ∨ 7 < 0 := by
  obtain ⟨re, h, hdistance⟩ := exists_ok
    (x := Regex.compile
      { pattern := Pattern.ascii "(?:(?:(?:.{0,100000}){0,100000}){0,100000}){0,100000}.bc" })
    (p := fun re => re.plan.distance = ⟨1, none⟩) (by decide +kernel)
  exact ⟨re, h, of_decide_eq_true hdistance, by decide, search_checked h (by decide) 7 0⟩

end Regex
end MultibyteRegex

import MultibyteRegex.Proofs.Escaping
import MultibyteRegex.Proofs.Planning
import MultibyteRegex.Proofs.Scanning

/-!
# 文字列の検索は部分文字列の検索である

逆斜線を付けたパターンの検索は、文字列がそのまま現れる位置のうち、探す向きで最初のものを答える。命令は幅ごとに
分かれ、探す文字列は上限の長さで切られ、候補は飛ばされるが、現れる位置は一つも落ちない。
-/

namespace MultibyteRegex

/-! ## 文字列のプログラム -/

namespace Literal

theorem flatten_runs (cs : List (List UInt8)) : ((runs cs).map (·.2)).flatten = cs.flatten := by
  induction cs with
  | nil => rfl
  | cons c cs ih =>
    cases hr : runs cs with
    | nil =>
      rw [hr] at ih
      simp [runs, hr, ← ih]
    | cons r more =>
      rw [hr] at ih
      by_cases hw : r.1 = c.length <;> simp [runs, hr, hw, ← ih]

theorem code_eq_exact (e : Encoding) (w : List UInt8) : ∃ parts : List (LiteralForm × List UInt8),
    code e none w = parts.map (fun p => .exact p.1 p.2) ∧ (parts.map (·.2)).flatten = w := by
  refine ⟨(runs (e.chars w)).map fun r => (form r.1 r.2.length, r.2), ?_, ?_⟩
  · simp [code, instruction]
  · rw [List.map_map]
    exact (flatten_runs _).trans (Encoding.flatten_chars e w)

end Literal

namespace Matcher

variable {m : Matcher} {e : Encoding} {fold : FoldTable} {w : List UInt8} {pc pos fuel : Nat}

/-- 分けた文字列を順に調べる。どこかで合わなければ、戻る先がないので照合が終わる。 -/
theorem run_exact {origin : Nat} (ho : origin ≤ pos) (caps : Captures) (hlongest : m.options.contains .findLongest = false)
    (hempty : m.options.contains .findNotEmpty = false) {parts : List (LiteralForm × List UInt8)}
    (hcode : CodeAt m.program pc (parts.map (fun p => .exact p.1 p.2) ++ [.accept])) (hpos : pos ≤ m.text.size)
    (hfuel : parts.length < fuel) :
    m.run origin fuel { pc, pos, caps } = some (.ok (if m.text.hasAt (parts.map (·.2)).flatten pos then
      let stop := pos + (parts.map (·.2)).flatten.length
      ⟨some (stop - origin), caps.setIfInBounds 0 ⟨some origin, some stop⟩⟩ else ⟨none, caps⟩)) := by
  obtain ⟨fuel, rfl⟩ := Nat.exists_eq_add_of_lt hfuel
  induction parts generalizing pc pos with
  | nil =>
    have hi : m.program.code[pc]? = some .accept := hcode.head
    simp [run, step, hi, execute, accept, Nat.not_lt.2 ho, hlongest, hempty, Text.hasAt, hpos]
  | cons p parts ih =>
    have hi : m.program.code[pc]? = some (.exact p.1 p.2) := hcode.head
    simp only [List.map_cons, List.flatten_cons, Text.hasAt_append, List.length_append]
    by_cases h : m.text.hasAt p.2 pos
    · have hpos' : pos + p.2.length ≤ m.text.size := Text.hasAt_le h
      have hrest := ih (by omega) hcode.tail hpos' (by omega)
      simp only [h, Bool.true_and, ← Nat.add_assoc]
      rw [← hrest]
      simp [run, step, hi, execute, h, Move.consume, Registers.moveTo, Nat.add_right_comm]
    · simp [run, step, hi, execute, h, Move.consume, backtrack, Stack.popResume]

end Matcher

namespace Regex

theorem matchAt_literal (e : Encoding) (fold : FoldTable) (w : List UInt8) (limits : Limits) (text : Text)
    (start : Nat) {fuel p : Nat} (hp : p ≤ text.size) (hfuel : (ofLiteral e fold w).program.code.size ≤ fuel) :
    ((ofLiteral e fold w).matcher limits .none text start).matchAt fuel p = some (.ok (if text.hasAt w p then
      ⟨some w.length, #[⟨some p, some (p + w.length)⟩]⟩ else ⟨none, .fresh 0⟩)) := by
  obtain ⟨parts, hparts, hflatten⟩ := Literal.code_eq_exact e w
  have hcode : CodeAt (Program.ofLiteral e fold w) 0
      (parts.map (fun p => Instruction.exact p.1 p.2) ++ [.accept]) := by
    intro j i hj
    rw [Nat.zero_add]
    simpa [Program.ofLiteral, hparts] using hj
  have hsteps : parts.length < fuel := by
    simp only [ofLiteral, Program.ofLiteral, hparts, List.size_toArray, List.length_append, List.length_map,
      List.length_singleton] at hfuel
    omega
  generalize hm : (ofLiteral e fold w).matcher limits .none text start = m
  have hprogram : m.program = .ofLiteral e fold w := by rw [← hm]; rfl
  have htext : m.text = text := by rw [← hm]; rfl
  have hoptions : m.options = .none := by
    rw [← hm]
    exact (by decide : Options.none.union .none = .none)
  have hrun := m.run_exact (Nat.le_refl p) (.fresh 0) (by rw [hoptions]; decide) (by rw [hoptions]; decide)
    (hprogram ▸ hcode) (htext ▸ hp) hsteps
  rw [hflatten, htext] at hrun
  unfold Matcher.matchAt
  rw [htext, if_neg (Nat.not_lt.2 hp), hprogram]
  refine hrun.trans ?_
  simp [Captures.fresh]

end Regex

/-! ## 切れ目での探し方 -/

namespace Encoding

variable {e : Encoding} {text : Text} {p q d : Nat}

theorem Head.leftAdjust (hw : e.isWellFormed text.toList) (hp : e.Head text p) : e.leftAdjust text 0 p = p := by
  rcases Nat.lt_or_eq_of_le hp.le with hlt | rfl
  · obtain ⟨hhead, hle, hnext⟩ := leftAdjust_starts hw hlt
    exact hhead.unique hp hle hnext (Nat.le_refl p) (lt_nextHead e text p)
  · simp [Encoding.leftAdjust]

theorem Head.le_leftAdjust (hw : e.isWellFormed text.toList) (hp : e.Head text p) (h : p ≤ d) :
    p ≤ e.leftAdjust text 0 d := by
  by_cases hd : d < text.size
  · obtain ⟨hhead, -, hnext⟩ := leftAdjust_starts hw hd
    refine Nat.le_of_not_lt fun hlt => ?_
    have := hhead.nextHead_le hp hlt
    omega
  · simpa [Encoding.leftAdjust, Nat.le_of_not_lt hd] using h

theorem Head.rightAdjust_le (hw : e.isWellFormed text.toList) (hp : e.Head text p) (h : d ≤ p) :
    e.rightAdjust text d ≤ p := by
  unfold rightAdjust
  dsimp only
  split
  · rename_i hlt
    by_cases hd : d < text.size
    · exact (leftAdjust_starts hw hd).1.nextHead_le hp (by omega)
    · simp [Encoding.leftAdjust, Nat.le_of_not_lt hd] at hlt
  · exact h

theorem Head.rightAdjust (hw : e.isWellFormed text.toList) (hp : e.Head text p) : e.rightAdjust text p = p := by
  simp [Encoding.rightAdjust, hp.leftAdjust hw]

theorem headsUp_self : e.headsUp text p p = ([p], e.nextHead text p) := by
  have hnext : ¬e.nextHead text p ≤ p := Nat.not_le.2 (lt_nextHead e text p)
  rw [headsUp, if_pos (Nat.le_refl p), headsUp, if_neg hnext]

theorem headsDown_self : e.headsDown text p p = ([p], e.prevHead text 0 p) := by
  rw [headsDown, if_neg (Nat.lt_irrefl p)]
  split
  · rename_i q hq
    rw [headsDown, if_pos (prevHead_lt hq), hq]
  · rename_i hq
    rw [hq]

/-- 手前の切れ目は、一つ前の文字の先頭を越えない。 -/
theorem Head.le_prevHead (hw : e.isWellFormed text.toList) (hp : e.Head text p) (h : p < q) :
    ∃ n, e.prevHead text 0 q = some n ∧ p ≤ n := by
  refine ⟨e.leftAdjust text 0 (q - 1), ?_, hp.le_leftAdjust hw (by omega)⟩
  rw [prevHead, if_neg (by omega)]

end Encoding

namespace Text

variable {e : Encoding} {text : Text} {key : List UInt8} {lo hi : Nat}

/-- 切れ目にしか現れない文字列は、文字の先頭に揃えながら飛ばしても見つかる。 -/
theorem leapBackward_heads (hw : e.isWellFormed text.toList) (hkey : ∀ x, text.hasAt key x → e.Head text x) :
    text.leapBackward (.backward key) e key lo hi = lastFrom (text.hasAt key) lo hi := by
  fun_induction leapBackward (.backward key) e text key lo hi with
  | case1 hi hle h => exact (lastFrom_eq_some_iff.2 ⟨hle, Nat.le_refl _, h, fun j _ _ => by omega⟩).symm
  | case2 hi hle h width hlt =>
    refine (lastFrom_eq_none_iff.2 fun x _ hx => ?_).symm
    rcases Nat.lt_or_eq_of_le hx with hx | rfl
    · exact not_hasAt_of_lt_backward hx (by omega)
    · simpa using h
  | case3 hi hle h width hge ih =>
    have hadjust := Encoding.leftAdjust_le e text 0 (hi - width)
    rw [ih]
    refine (lastFrom_skip (by omega) fun x hx hle => Bool.eq_false_iff.2 fun hhit => ?_).symm
    rcases Nat.lt_or_eq_of_le hle with hlt | rfl
    · by_cases hskip : hi < x + width
      · rw [not_hasAt_of_lt_backward hlt hskip] at hhit
        cases hhit
      · have := (hkey x hhit).le_leftAdjust hw (show x ≤ hi - width by omega)
        omega
    · exact h hhit
  | case4 hi hgt => exact (lastFrom_eq_none_iff.2 fun x _ _ => by omega).symm

end Text

/-! ## 整形式の UTF-8 -/

namespace Encoding

variable {e : Encoding} {c w bytes : List UInt8}

theorem isWellFormed_append (hc : e.isChar c) (hw : e.isWellFormed w) : e.isWellFormed (c ++ w) := by
  cases c with
  | nil => cases hc
  | cons b trail =>
    have hlen : trail.length = e.width b - 1 := by
      simp only [isChar, Bool.and_eq_true, beq_iff_eq] at hc
      omega
    have htake : e.takeChar b (trail ++ w) = (b :: trail, w) := by simp [takeChar, ← hlen]
    rw [List.cons_append, isWellFormed, chars, htake, List.all_cons, hc, Bool.true_and]
    exact hw

theorem isChar_utf8EncodeChar (c : Char) : Encoding.utf8.isChar (String.utf8EncodeChar c) := by
  have hmax : c.val.toNat < 0x110000 := by
    have := c.valid
    rcases this with h | h
    · have : c.val.toNat < 0xd800 := h
      omega
    · exact h.2
  unfold String.utf8EncodeChar
  generalize c.val.toNat = v at hmax
  dsimp only
  repeat' split
  all_goals
    simp [isChar, width, isTrail, isUtf8Trail, UInt8.lt_iff_toNat_lt, UInt8.le_iff_toNat_le]
    repeat' split
    all_goals omega

/-- 整形式の UTF-8 は、文字を並べたものである。 -/
theorem isWellFormed_of_isValidUTF8 (h : bytes.toByteArray.IsValidUTF8) :
    Encoding.utf8.isWellFormed bytes := by
  obtain ⟨cs, hcs⟩ := h
  have hbytes : bytes = cs.flatMap String.utf8EncodeChar := by
    have := congrArg ByteArray.data hcs
    simpa [List.utf8Encode] using this
  rw [hbytes]
  clear hcs hbytes
  induction cs with
  | nil => simp [isWellFormed, chars]
  | cons c cs ih =>
    rw [List.flatMap_cons]
    exact isWellFormed_append (isChar_utf8EncodeChar c) ih

end Encoding

/-! ## 候補 -/

namespace Quarry

/-- 探す文字列は照合の始まりにあり、切れ目にしか現れない。 -/
structure Seeks (q : Quarry) (key : List UInt8) : Prop where
  text : q.encoding.isWellFormed q.text.toList
  distance : q.plan.distance = .zero
  finder : q.plan.finder = .exact key ∨ q.plan.finder = .leaping key
  heads : ∀ x, q.text.hasAt key x → q.encoding.Head q.text x

namespace Seeks

variable {q : Quarry} {key : List UInt8} {start limit lo hi s x : Nat}

theorem reach_eq (h : q.Seeks key) : q.reach s = min s q.text.size := by
  simp [reach, h.distance, Interval.zero, Interval.fixed]

theorem earliest_eq (h : q.Seeks key) (hle : lo ≤ s) : q.earliest lo s = s := by
  simp [earliest, h.distance, Interval.zero, Interval.fixed, hle]

theorem forward_eq (h : q.Seeks key) : q.plan.finder.forward q.encoding q.fold q.text start limit =
    Text.firstFrom (q.text.hasAt key) start limit := by
  have hascii : ∀ f : Finder, f.forward .ascii q.fold q.text start limit =
      Text.firstFrom (f.hits q.fold q.text) start limit := fun _ => Finder.forward_ascii
  rcases h.finder with hf | hf <;> rw [hf]
  · exact hascii (.exact key)
  · exact hascii (.leaping key)

theorem backward_eq (h : q.Seeks key) : q.plan.finder.backward q.encoding q.fold q.text start limit =
    Text.lastFrom (q.text.hasAt key) limit start := by
  have hascii : ∀ f : Finder, f.backward .ascii q.fold q.text start limit =
      Text.lastFrom (f.hits q.fold q.text) limit start := fun _ => Finder.backward_ascii
  rcases h.finder with hf | hf <;> rw [hf]
  · exact hascii (.exact key)
  · refine Finder.lastStart?_bind (p := q.text.hasAt key) (fun x => Text.hasAt_le) (fun hnone => ?_) fun hle => ?_
    · exact Text.lastFrom_eq_none_iff.2 fun x _ _ => hnone x
    · rw [Text.leapBackward_heads h.text h.heads]
      exact Text.lastFrom_min hle

theorem forward_spec (h : q.Seeks key) (hi s : Nat) : (q.forward hi s).Pairwise (· < ·) ∧
    (∀ x ∈ q.forward hi s, s ≤ x ∧ x ≤ hi) ∧
    ∀ x, s ≤ x → x ≤ hi → q.text.hasAt key x → x ∈ q.forward hi s := by
  have hmin : q.plan.distance.min = 0 := by rw [h.distance]; rfl
  fun_induction forward q hi s with
  | case1 s hs hnone =>
    refine ⟨.nil, by simp, fun x hsx hxhi hx => ?_⟩
    rw [h.forward_eq, Text.firstFrom_eq_none_iff] at hnone
    have hsize := Text.hasAt_le hx
    rw [hnone x (by omega) (by rw [h.reach_eq]; omega)] at hx
    cases hx
  | case2 s hs p hfound high heads ih =>
    rw [h.forward_eq, Text.firstFrom_eq_some_iff, h.reach_eq] at hfound
    obtain ⟨hsp, hpr, hp, hfirst⟩ := hfound
    have hhead := h.heads p hp
    have hhigh : high = p := by omega
    have hheads : heads = ([p], q.encoding.nextHead q.text p) := by
      unfold heads
      rw [h.earliest_eq (by omega), hhigh, hhead.rightAdjust h.text, Encoding.headsUp_self]
    rw [hheads, hhigh] at ih
    rw [hheads, hhigh]
    have hlt : p < max (q.encoding.rightAdjust q.text (p + 1)) (q.encoding.nextHead q.text p) :=
      Nat.lt_of_lt_of_le (Encoding.lt_nextHead q.encoding q.text p) (Nat.le_max_right ..)
    have hle : ∀ x, q.text.hasAt key x → p < x →
        max (q.encoding.rightAdjust q.text (p + 1)) (q.encoding.nextHead q.text p) ≤ x := fun x hx hpx =>
      Nat.max_le.2 ⟨(h.heads x hx).rightAdjust_le h.text hpx, hhead.nextHead_le (h.heads x hx) hpx⟩
    generalize max (q.encoding.rightAdjust q.text (p + 1)) (q.encoding.nextHead q.text p) = next at *
    obtain ⟨hsorted, hwithin, hmem⟩ := ih
    refine ⟨List.pairwise_cons.2 ⟨fun y hy => ?_, hsorted⟩, fun x hx => ?_, fun x hsx hxhi hx => ?_⟩
    · exact Nat.lt_of_lt_of_le hlt (hwithin y hy).1
    · rcases List.mem_cons.1 hx with rfl | hx
      · omega
      · have := hwithin x hx
        omega
    · rcases Nat.lt_trichotomy x p with hxp | rfl | hpx
      · rw [hfirst x (by omega) hxp] at hx
        cases hx
      · exact List.mem_cons_self
      · exact List.mem_cons_of_mem _ (hmem x (hle x hx hpx) hxhi hx)
  | case3 s hgt => exact ⟨.nil, by simp, fun x hsx hxhi _ => by omega⟩

/-- 後ろからの候補は大きい順に並び、現れる位置をすべて含む。 -/
theorem backward_spec (h : q.Seeks key) (lo s : Nat) : (q.backward lo s).Pairwise (· > ·) ∧
    (∀ x ∈ q.backward lo s, lo ≤ x ∧ x ≤ s) ∧
    ∀ x, lo ≤ x → x ≤ s → q.text.hasAt key x → x ∈ q.backward lo s := by
  have hmin : q.plan.distance.min = 0 := by rw [h.distance]; rfl
  fun_induction backward q lo s with
  | case1 s hs hnone =>
    refine ⟨.nil, by simp, fun x hlox hxs hx => ?_⟩
    rw [h.backward_eq, Text.lastFrom_eq_none_iff] at hnone
    have hsize := Text.hasAt_le hx
    rw [hnone x (by omega) (by rw [h.reach_eq]; omega)] at hx
    cases hx
  | case2 s hs p hfound high heads ih =>
    rw [h.backward_eq, Text.lastFrom_eq_some_iff, h.reach_eq] at hfound
    obtain ⟨hlop, hps, hp, hlast⟩ := hfound
    have hhead := h.heads p hp
    have hhigh : high = p := by omega
    have hheads : heads = ([p], q.encoding.prevHead q.text 0 p) := by
      unfold heads
      rw [h.earliest_eq (by omega), hhigh, hhead.leftAdjust h.text, Encoding.headsDown_self]
    have hmax : ∀ x, x ≤ s → q.text.hasAt key x → x ≤ p := fun x hxs hx => Nat.le_of_not_lt fun hlt => by
      have := Text.hasAt_le hx
      rw [hlast x hlt (by omega)] at hx
      cases hx
    rw [hheads]
    split
    · rename_i n hn
      have hprev : q.encoding.prevHead q.text 0 p = some n := hn
      have hlt : n < p := Encoding.prevHead_lt hprev
      obtain ⟨hsorted, hwithin, hmem⟩ := ih n (by rw [hheads]; exact hprev)
      refine ⟨List.pairwise_cons.2 ⟨fun y hy => ?_, hsorted⟩, fun x hx => ?_, fun x hlox hxs hx => ?_⟩
      · exact Nat.lt_of_le_of_lt (hwithin y hy).2 hlt
      · rcases List.mem_cons.1 hx with rfl | hx
        · omega
        · have := hwithin x hx
          omega
      · rcases Nat.lt_or_eq_of_le (hmax x hxs hx) with hxp | rfl
        · obtain ⟨n', hn', hle⟩ := (h.heads x hx).le_prevHead h.text hxp
          cases hn'.symm.trans hprev
          exact List.mem_cons_of_mem _ (hmem x hlox hle hx)
        · exact List.mem_cons_self
    · rename_i hn
      have hprev : q.encoding.prevHead q.text 0 p = none := hn
      refine ⟨by simp, fun x hx => ?_, fun x hlox hxs hx => ?_⟩
      · obtain rfl : x = p := by simpa using hx
        omega
      · rcases Nat.lt_or_eq_of_le (hmax x hxs hx) with hxp | rfl
        · obtain ⟨n', hn', -⟩ := (h.heads x hx).le_prevHead h.text hxp
          cases hn'.symm.trans hprev
        · simp
  | case3 s hgt => exact ⟨.nil, by simp, fun x hlox hxs _ => by omega⟩

end Seeks

variable {e : Encoding} {fold : FoldTable} {w : List UInt8} {text : Text} {start range : Nat}

theorem exists_key (hw : e.isWellFormed w) (hne : w ≠ []) : ∃ key, key <+: w ∧ key ≠ [] ∧
    ((Plan.ofLiteral e w).finder = .exact key ∨ (Plan.ofLiteral e w).finder = .leaping key) := by
  have hclip : (Key.clip ⟨.zero, w, false, true⟩ e maxKeyLength).folded = false ∧
      (Key.clip ⟨.zero, w, false, true⟩ e maxKeyLength).bytes <+: w ∧
      (Key.clip ⟨.zero, w, false, true⟩ e maxKeyLength).bytes ≠ [] := by
    unfold Key.clip
    dsimp only
    split
    · refine ⟨rfl, Encoding.wholeChars_prefix e maxKeyLength w, ?_⟩
      cases w with
      | nil => exact absurd rfl hne
      | cons b rest =>
        have hwidth : e.width b ≤ maxKeyLength :=
          Nat.le_trans (e.width_le_maxWidth b) (by cases e <;> decide)
        rw [Encoding.wholeChars, if_pos ⟨hwidth, (Encoding.isWellFormed_cons hw).1⟩]
        simp [Encoding.takeChar]
    · exact ⟨rfl, List.prefix_refl w, hne⟩
  obtain ⟨hfolded, hprefix, hkey⟩ := hclip
  refine ⟨_, hprefix, hkey, ?_⟩
  unfold Plan.ofLiteral Plan.finderOf
  dsimp only
  rw [if_neg hne, if_neg (by rw [hfolded]; decide)]
  split
  · exact .inr rfl
  · exact .inl rfl

theorem seeks_literal (he : e.isLeadDistinguishable) (hw : e.isWellFormed w) (htext : e.isWellFormed text.toList)
    (hne : w ≠ []) (fold : FoldTable) : ∃ key, key <+: w ∧ Seeks ⟨.ofLiteral e w, e, fold, text⟩ key := by
  obtain ⟨key, hprefix, hkey, hfinder⟩ := exists_key hw hne
  refine ⟨key, hprefix, htext, rfl, hfinder, fun x hx => ?_⟩
  cases w with
  | nil => exact absurd rfl hne
  | cons b w =>
    cases key with
    | nil => exact absurd rfl hkey
    | cons c key =>
      obtain ⟨rfl, -⟩ := List.cons_prefix_cons.1 hprefix
      obtain ⟨hlt, hlead⟩ := Text.lead_of_hasAt hx
      refine Encoding.head_of_not_isTrail htext hlt ?_
      rw [hlead]
      cases e with
      | ascii => simp [Encoding.isTrail]
      | utf8 => exact (Encoding.isWellFormed_cons hw).2.2.1 rfl
      | eucJp | sjis => cases he

theorem window?_literal (lo hi : Nat) : (Plan.ofLiteral e w).window? text start lo hi =
    if w.length ≤ text.size ∧ lo ≤ min hi (text.size - w.length) then
      some (lo, min hi (text.size - w.length)) else none := by
  rw [Plan.window?_eq]
  by_cases hsize : w.length ≤ text.size
  · simp [Plan.atBegin, Plan.atEnd, Plan.atLeast, Plan.ofLiteral, Plan.minus?, hsize]
  · simp [Plan.atBegin, Plan.atEnd, Plan.atLeast, Plan.ofLiteral, Plan.minus?, hsize]

theorem candidates_literal (hnothing : (Plan.ofLiteral e w).finder.isNothing = false) {lo hi : Nat}
    (hlo : min start range = lo) (hhi : min (max start range) (text.size - w.length) = hi) :
    (Quarry.mk (.ofLiteral e w) e fold text).candidates start range =
      if w.length ≤ text.size ∧ lo ≤ hi then
        if lo = hi then [lo]
        else if range < start then
          (Quarry.mk (.ofLiteral e w) e fold text).backward lo (e.leftAdjust text 0 hi)
        else (Quarry.mk (.ofLiteral e w) e fold text).forward hi lo
      else [] := by
  have hstar : (Plan.ofLiteral e w).edges.anyStar = false := rfl
  unfold candidates
  dsimp only
  rw [hlo, window?_literal, hhi]
  by_cases hroom : w.length ≤ text.size ∧ lo ≤ hi
  · rw [if_pos hroom, if_pos hroom]
    by_cases h : lo = hi
    · simp [hnothing, hstar, h, Encoding.headsUp_self]
    · simp [hnothing, hstar, h]
  · rw [if_neg hroom, if_neg hroom]

/-- 候補は探す向きに並び、範囲の中で文字列が現れる位置をすべて含む。 -/
theorem candidates_spec (he : e.isLeadDistinguishable) (hw : e.isWellFormed w)
    (htext : e.isWellFormed text.toList) (hne : w ≠ []) (fold : FoldTable) (start range : Nat) :
    ((Quarry.mk (.ofLiteral e w) e fold text).candidates start range).Pairwise
        (if range < start then (· > ·) else (· < ·)) ∧
      (∀ x ∈ (Quarry.mk (.ofLiteral e w) e fold text).candidates start range,
        min start range ≤ x ∧ x ≤ max start range) ∧
      ∀ x, min start range ≤ x → x ≤ max start range → text.hasAt w x →
        x ∈ (Quarry.mk (.ofLiteral e w) e fold text).candidates start range := by
  obtain ⟨key, ⟨more, hmore⟩, hseeks⟩ := seeks_literal he hw htext hne fold
  have hkey : ∀ x, text.hasAt w x → text.hasAt key x := fun x hx => by
    rw [← hmore, Text.hasAt_append, Bool.and_eq_true] at hx
    exact hx.1
  have hnothing : (Plan.ofLiteral e w).finder.isNothing = false := by
    rcases hseeks.finder with hf | hf <;> exact hf ▸ rfl
  rw [candidates_literal hnothing rfl rfl]
  generalize hlo : min start range = lo
  generalize hhi : min (max start range) (text.size - w.length) = hi
  have hle : hi ≤ max start range := by omega
  have hfits : ∀ x, x ≤ max start range → text.hasAt w x → w.length ≤ text.size ∧ x ≤ hi := fun x hxhi hx => by
    have := Text.hasAt_le hx
    omega
  by_cases hroom : w.length ≤ text.size ∧ lo ≤ hi
  · rw [if_pos hroom]
    by_cases hone : lo = hi
    · rw [if_pos hone]
      refine ⟨List.pairwise_singleton .., fun x hx => ?_, fun x hlox hxhi hx => ?_⟩
      · obtain rfl := List.mem_singleton.1 hx
        omega
      · have := (hfits x hxhi hx).2
        exact List.mem_singleton.2 (by omega)
    · rw [if_neg hone]
      by_cases hback : range < start
      · obtain ⟨hsorted, hwithin, hmem⟩ := hseeks.backward_spec lo (e.leftAdjust text 0 hi)
        rw [if_pos hback, if_pos hback]
        refine ⟨hsorted, fun x hx => ?_, fun x hlox hxhi hx => ?_⟩
        · have := hwithin x hx
          have := Encoding.leftAdjust_le e text 0 hi
          omega
        · have hlast := (hseeks.heads x (hkey x hx)).le_leftAdjust htext (hfits x hxhi hx).2
          exact hmem x hlox hlast (hkey x hx)
      · obtain ⟨hsorted, hwithin, hmem⟩ := hseeks.forward_spec hi lo
        rw [if_neg hback, if_neg hback]
        refine ⟨hsorted, fun x hx => ?_, fun x hlox hxhi hx => ?_⟩
        · have := hwithin x hx
          omega
        · exact hmem x hlox (hfits x hxhi hx).2 (hkey x hx)
  · rw [if_neg hroom]
    refine ⟨.nil, nofun, fun x hlox hxhi hx => ?_⟩
    have := hfits x hxhi hx
    omega

theorem candidates_empty (htext : e.isWellFormed text.toList) (hstart : e.Head text start)
    (hrange : range ≤ text.size) (fold : FoldTable) :
    ∃ rest, (Quarry.mk (.ofLiteral e []) e fold text).candidates start range = start :: rest := by
  have hle := hstart.le
  unfold candidates
  dsimp only
  rw [window?_literal, if_pos ⟨Nat.zero_le _, by simp; omega⟩]
  have hhi : min (max start range) (text.size - ([] : List UInt8).length) = max start range := by simp; omega
  have hnothing : (Plan.ofLiteral e []).finder.isNothing = true := rfl
  have hstar : (Plan.ofLiteral e []).edges.anyStar = false := rfl
  dsimp only
  rw [hhi, hnothing, hstar]
  by_cases hback : range < start
  · rw [Nat.min_eq_right (by omega), Nat.max_eq_left (by omega), hstart.leftAdjust htext]
    simp only [hback, Bool.not_true, Bool.false_and, Bool.false_eq_true, if_true, if_false]
    rw [Encoding.headsDown, if_neg (by omega)]
    split
    · exact ⟨_, rfl⟩
    · exact ⟨_, rfl⟩
  · rw [Nat.min_eq_left (by omega), Nat.max_eq_right (by omega)]
    simp only [hback, Bool.not_true, Bool.false_and, Bool.false_eq_true, if_false]
    rw [Encoding.headsUp, if_pos (by omega)]
    exact ⟨_, rfl⟩

end Quarry

/-! ## 検索 -/

/-- 順に並ぶ列では、条件を満たすものより前にあるものがどれも満たさなければ、それが初めて満たす。 -/
theorem find?_eq_some_of_pairwise {before : Nat → Nat → Prop} {cs : List Nat} {p : Nat → Bool} {x : Nat}
    (hsorted : cs.Pairwise before) (hx : x ∈ cs) (hp : p x) (hfirst : ∀ y ∈ cs, before y x → p y = false) :
    cs.find? p = some x := by
  obtain ⟨front, back, rfl⟩ := List.append_of_mem hx
  refine List.find?_eq_some_iff_append.2 ⟨hp, front, back, rfl, fun y hy => ?_⟩
  have hbefore := (List.pairwise_append.1 hsorted).2.2 y hy x List.mem_cons_self
  rw [hfirst y (List.mem_append_left _ hy) hbefore]
  rfl

/-- 候補ごとの照合の答えが条件で決まるなら、初めて合う候補は、初めて条件を満たす候補である。 -/
theorem Matcher.first_eq_find? {m : Matcher} {fuel length : Nat} {cs : List Nat} {p : Nat → Bool}
    {caps caps' : Nat → Captures} (h : ∀ x ∈ cs, m.matchAt fuel x =
      some (.ok (if p x then ⟨some length, caps x⟩ else ⟨none, caps' x⟩))) :
    m.first fuel cs = some (.ok ((cs.find? p).map fun x => ⟨x, length, caps x⟩)) := by
  induction cs with
  | nil => rfl
  | cons x cs ih =>
    obtain ⟨hx, hcs⟩ := List.forall_mem_cons.1 h
    by_cases hp : p x
    · simp [first, hx, hp]
    · simp [first, hx, hp, ih hcs]

namespace Text

variable {text : Text} {w : List UInt8} {start range p : Nat}

/-- `start` から `range` へ一つずつ調べて、`w` が初めて現れる位置。 -/
def scan? (text : Text) (w : List UInt8) (start range : Nat) : Option Nat :=
  if range < start then lastFrom (text.hasAt w) range start else firstFrom (text.hasAt w) start range

theorem scan?_eq_none_iff : text.scan? w start range = none ↔
    ∀ x, min start range ≤ x → x ≤ max start range → ¬text.hasAt w x := by
  unfold scan?
  split
  · rw [lastFrom_eq_none_iff, Nat.min_eq_right (by omega), Nat.max_eq_left (by omega)]
    simp
  · rw [firstFrom_eq_none_iff, Nat.min_eq_left (by omega), Nat.max_eq_right (by omega)]
    simp

theorem scan?_eq_some_iff : text.scan? w start range = some p ↔
    (min start range ≤ p ∧ p ≤ max start range) ∧ text.hasAt w p ∧
      ∀ x, min start range ≤ x → x ≤ max start range → text.hasAt w x → if range < start then x ≤ p else p ≤ x := by
  unfold scan?
  split
  · rw [lastFrom_eq_some_iff, Nat.min_eq_right (by omega), Nat.max_eq_left (by omega)]
    constructor
    · rintro ⟨hlo, hhi, hp, hlast⟩
      refine ⟨⟨hlo, hhi⟩, hp, fun x _ hx hhit => Nat.le_of_not_lt fun hlt => ?_⟩
      rw [hlast x hlt hx] at hhit
      cases hhit
    · rintro ⟨⟨hlo, hhi⟩, hp, hlast⟩
      refine ⟨hlo, hhi, hp, fun x hlt hx => Bool.eq_false_iff.2 fun hhit => ?_⟩
      have := hlast x (by omega) hx hhit
      omega
  · rw [firstFrom_eq_some_iff, Nat.min_eq_left (by omega), Nat.max_eq_right (by omega)]
    constructor
    · rintro ⟨hlo, hhi, hp, hfirst⟩
      refine ⟨⟨hlo, hhi⟩, hp, fun x hx _ hhit => Nat.le_of_not_lt fun hlt => ?_⟩
      rw [hfirst x hx hlt] at hhit
      cases hhit
    · rintro ⟨⟨hlo, hhi⟩, hp, hfirst⟩
      refine ⟨hlo, hhi, hp, fun x hx hlt => Bool.eq_false_iff.2 fun hhit => ?_⟩
      have := hfirst x hx (by omega) hhit
      omega

end Text

namespace Regex

variable {e : Encoding} {w : List UInt8} {text : Text} {start range fuel : Nat}

/-- 一つずつ調べて初めて現れる位置が、候補の中で初めて現れる位置である。 -/
theorem find?_candidates (he : e.isLeadDistinguishable) (hw : e.isWellFormed w) (htext : e.isWellFormed text.toList)
    (hne : w ≠ []) (fold : FoldTable) (start range : Nat) :
    ((Quarry.mk (.ofLiteral e w) e fold text).candidates start range).find? (text.hasAt w) =
      text.scan? w start range := by
  obtain ⟨hsorted, hwithin, hmem⟩ := Quarry.candidates_spec he hw htext hne fold start range
  cases hscan : text.scan? w start range with
  | none =>
    rw [Text.scan?_eq_none_iff] at hscan
    exact List.find?_eq_none.2 fun x hx => hscan x (hwithin x hx).1 (hwithin x hx).2
  | some p =>
    obtain ⟨⟨hlo, hhi⟩, hp, hfirst⟩ := Text.scan?_eq_some_iff.1 hscan
    refine find?_eq_some_of_pairwise hsorted (hmem p hlo hhi hp) hp fun y hy hbefore => ?_
    refine Bool.eq_false_iff.2 fun hhit => ?_
    have := hfirst y (hwithin y hy).1 (hwithin y hy).2 hhit
    split at hbefore <;> rename_i hback
    · rw [if_pos hback] at this
      omega
    · rw [if_neg hback] at this
      omega

/-- 文字列だけの正規表現の検索は、その文字列を一つずつ調べて探すのと同じ答えを返す。 -/
theorem search_ofLiteral (he : e.isLeadDistinguishable) (hw : e.isWellFormed w)
    (htext : e.isWellFormed text.toList) (hstart : e.Head text start) (hrange : range ≤ text.size)
    (fold : FoldTable) (limits : Limits) (hfuel : (ofLiteral e fold w).program.code.size ≤ fuel) :
    (ofLiteral e fold w).search limits fuel .none text start range =
      some (.ok ((text.scan? w start range).map fun p =>
        ⟨p, w.length, #[⟨some p, some (p + w.length)⟩]⟩)) := by
  have hle := hstart.le
  have hmatch := fun x (hx : x ≤ text.size) => matchAt_literal e fold w limits text start hx hfuel
  have hlong : ((ofLiteral e fold w).matcher limits .none text start).options.contains .findLongest = false :=
    (by decide : (Options.none.union .none).contains .findLongest = false)
  unfold search
  rw [if_neg (by omega)]
  dsimp only
  rw [hlong]
  by_cases hne : w = []
  · subst hne
    obtain ⟨rest, hrest⟩ := Quarry.candidates_empty htext hstart hrange fold
    have hscan : text.scan? [] start range = some start := by
      refine Text.scan?_eq_some_iff.2 ⟨by omega, by simpa [Text.hasAt] using hle, fun x hlo hhi _ => ?_⟩
      split <;> omega
    rw [hscan]
    refine (congrArg _ hrest).trans ?_
    simp [Matcher.first, hmatch start hle, Text.hasAt, hle]
  · rw [← find?_candidates he hw htext hne fold start range]
    refine Matcher.first_eq_find? fun x hx => hmatch x ?_
    have := ((Quarry.candidates_spec he hw htext hne fold start range).2.1 x hx).2
    omega

/-- 逆斜線を付けたパターンの検索は、文字列が現れる位置のうち、前へなら最も左の、後ろへなら最も右のものを答え、
零番の捕獲はそこから文字列の長さだけ続く。現れなければ答えがない。UTF-8 では、文字列も本文も整形式で、両端が
切れ目であることを求める。 -/
theorem search_substring (h : e = .ascii ∧ start ≤ text.size ∧ range ≤ text.size ∨
      e = .utf8 ∧ w.toByteArray.IsValidUTF8 ∧ text.toList.toByteArray.IsValidUTF8 ∧ e.Head text start ∧
        e.Head text range)
    (fold : Option FoldTable) (limits : Limits) :
    ∃ re, Regex.compile { pattern := Pattern.quote w, encoding := e, fold } = .ok re ∧
      ∀ fuel ≥ re.program.code.size, ∃ r, re.search limits fuel .none text start range = some (.ok r) ∧
        (r = none ↔ ∀ p, min start range ≤ p → p ≤ max start range → ¬w <+: text.toList.drop p) ∧
        ∀ f ∈ r, (min start range ≤ f.start ∧ f.start ≤ max start range) ∧ w <+: text.toList.drop f.start ∧
          (∀ p, min start range ≤ p → p ≤ max start range → w <+: text.toList.drop p →
            if range < start then p ≤ f.start else f.start ≤ p) ∧
          (Region.ofCaptures f.caps).group 0 = some (f.start, f.start + w.length) := by
  have hsetting : e.isLeadDistinguishable ∧ e.isWellFormed w ∧ e.isWellFormed text.toList ∧ e.Head text start ∧
      range ≤ text.size := by
    rcases h with ⟨rfl, hstart, hrange⟩ | ⟨rfl, hw, htext, hstart, hrange⟩
    · exact ⟨rfl, Encoding.isWellFormed_ascii w, Encoding.isWellFormed_ascii _, Encoding.head_ascii hstart, hrange⟩
    · exact ⟨rfl, Encoding.isWellFormed_of_isValidUTF8 hw, Encoding.isWellFormed_of_isValidUTF8 htext, hstart,
        hrange.le⟩
  obtain ⟨he, hw, htext, hstart, hrange⟩ := hsetting
  have hle := hstart.le
  have hoccurs : ∀ p ≤ max start range, text.hasAt w p ↔ w <+: text.toList.drop p := fun p hp => by
    rw [Text.hasAt_iff]
    exact and_iff_right (by omega)
  refine ⟨_, compile_quote he hw fold, fun fuel hfuel =>
    ⟨_, search_ofLiteral he hw htext hstart hrange _ limits hfuel, ?_, fun f hf => ?_⟩⟩
  · rw [Option.map_eq_none_iff, Text.scan?_eq_none_iff]
    exact forall_congr' fun p => imp_congr_right fun _ => imp_congr_right fun hp => not_congr (hoccurs p hp)
  · obtain ⟨p, hscan, rfl⟩ := Option.map_eq_some_iff.1 hf
    obtain ⟨hwithin, hp, hfirst⟩ := Text.scan?_eq_some_iff.1 hscan
    refine ⟨hwithin, (hoccurs p hwithin.2).1 hp, fun x hlo hhi hx => hfirst x hlo hhi ((hoccurs x hhi).2 hx), ?_⟩
    rw [Region.ofCaptures, Region.group_update (by simp)]
    simp [Captures.span?]

/-- 括弧を含む日本語の文字列を、本文の終わりから探す例。 -/
theorem search_substring_wide :
    ∃ w text re f, w = [0x28, 0xe3, 0x81, 0x84] ∧
      text = #[0xe3, 0x81, 0x82, 0x28, 0xe3, 0x81, 0x84, 0xe3, 0x81, 0x86] ∧
      w.toByteArray.IsValidUTF8 ∧ text.toList.toByteArray.IsValidUTF8 ∧ Encoding.utf8.Head text 10 ∧
      Encoding.utf8.Head text 0 ∧ Regex.compile { pattern := Pattern.quote w } = .ok re ∧
      re.search .unlimited re.program.code.size .none text 10 0 = some (.ok (some f)) ∧ f.start = 3 ∧
      (Region.ofCaptures f.caps).group 0 = some (3, 7) := by
  let w : List UInt8 := [0x28, 0xe3, 0x81, 0x84]
  let text : Text := #[0xe3, 0x81, 0x82, 0x28, 0xe3, 0x81, 0x84, 0xe3, 0x81, 0x86]
  have hw : w.toByteArray.IsValidUTF8 := ⟨['(', 'い'], by decide +kernel⟩
  have htext : text.toList.toByteArray.IsValidUTF8 := ⟨['あ', '(', 'い', 'う'], by decide +kernel⟩
  have hend : Encoding.utf8.Head text 10 := ⟨by decide, 4, by decide +kernel⟩
  obtain ⟨re, hcompile, hsearch⟩ := search_substring (.inr ⟨rfl, hw, htext, hend, .zero⟩) (some .ascii) .unlimited
  obtain ⟨r, hr, hnone, hsome⟩ := hsearch re.program.code.size (Nat.le_refl _)
  have honly : ∀ p < 11, w <+: text.toList.drop p ↔ p = 3 := by decide +kernel
  cases r with
  | none => exact absurd ((honly 3 (by decide)).2 rfl) (hnone.1 rfl 3 (by decide) (by decide))
  | some f =>
    obtain ⟨⟨-, hle⟩, hprefix, -, hgroup⟩ := hsome f rfl
    have hstart : f.start = 3 := (honly f.start (Nat.lt_succ_of_le hle)).1 hprefix
    rw [hstart] at hgroup
    exact ⟨w, text, re, f, rfl, rfl, hw, htext, hend, .zero, hcompile, hr, hstart, hgroup⟩

end Regex
end MultibyteRegex

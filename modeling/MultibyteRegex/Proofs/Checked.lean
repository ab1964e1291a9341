import MultibyteRegex.Proofs.Extremes

/-!
# 確かめながら進む計算

検索の手順の足し算、引き算、本文の読み出しを一つずつ確かめ、64 ビットに収まらない和、負になる差、本文の外の読み出し、
先へ進まない輪があれば値をなくす。本文の中から始めれば、文字の境界を動く操作と探す操作は、確かめても値をなくさず、
確かめない計算と同じ答えになる。
-/

namespace MultibyteRegex

/-- 確かめに落ちれば値がない計算。 -/
abbrev Checked (α : Type) := Option α

namespace Checked

def add (n m : Nat) : Checked Nat := Interval.bounded? (n + m)

def sub (n m : Nat) : Checked Nat := Plan.minus? n m

def read (text : Text) (i : Nat) : Checked UInt8 := text[i]?

variable {e : Encoding} {text : Text} {n m start pos p lo hi c : Nat}

/-- 確かめに通れば、その値で続く。 -/
theorem some_bind {α β : Type} (a : α) (f : α → Checked β) : (some a >>= f) = f a := rfl

theorem add_of_le (h : n + m ≤ maxSize) : add n m = some (n + m) := if_pos h

theorem sub_of_le (h : m ≤ n) : sub n m = some (n - m) := if_pos h

theorem read_of_lt (h : p < text.size) : read text p = some (text.getD p 0) := by
  simp [read, Array.getD, h]

/-! ## 文字の境界 -/

/-- `Encoding.lengthAt` の引き算を確かめる。 -/
def lengthAt (e : Encoding) (text : Text) (pos : Nat) : Checked Nat :=
  match text[pos]? with
  | some b => (sub text.size pos).map (min (e.width b))
  | none => some 0

/-- `Encoding.retreatWhile` の読み出しを確かめる。 -/
def retreatWhile (inside : UInt8 → Bool) (text : Text) (start : Nat) : Nat → Checked Nat
  | 0 => (read text 0).map fun _ => 0
  | p + 1 => do
    let b ← read text (p + 1)
    if start < p + 1 ∧ inside b then retreatWhile inside text start p else some (p + 1)

/-- `Encoding.retreatOver` の読み出しを確かめる。行き過ぎた一つは足して戻す。 -/
def retreatOver (lead : UInt8 → Bool) (text : Text) (start : Nat) : Nat → Checked Nat
  | 0 => some 0
  | p + 1 =>
    if start < p + 1 then do
      let b ← read text p
      if lead b then retreatOver lead text start p else add p 1
    else some (p + 1)

/-- `Encoding.resync` の読み出しと足し算と引き算を確かめる。 -/
def resync (e : Encoding) (text : Text) (p pos : Nat) : Checked Nat := do
  let b ← read text p
  let q ← add p (e.width b)
  if pos < q then some p
  else do
    let d ← sub pos q
    add q (d / 2 * 2)

/-- `Encoding.leftAdjust` を確かめる。 -/
def leftAdjust (e : Encoding) (text : Text) (start pos : Nat) : Checked Nat :=
  if pos ≤ start ∨ text.size ≤ pos then some pos
  else match e with
    | .ascii => some pos
    | .utf8 => retreatWhile Encoding.isUtf8Trail text start pos
    | .eucJp => do
      let p ← retreatWhile Encoding.isEucJpPart text start pos
      resync .eucJp text p pos
    | .sjis => do
      let b ← read text pos
      let p ← if Encoding.isSjisTrail b then retreatOver Encoding.isSjisLead text start pos else some pos
      resync .sjis text p pos

/-- `Encoding.prevHead` を確かめる。 -/
def prevHead (e : Encoding) (text : Text) (start pos : Nat) : Checked (Option Nat) :=
  if pos ≤ start then some none
  else do
    let p ← sub pos 1
    (leftAdjust e text start p).map some

/-- `Encoding.nextHead` を確かめる。 -/
def nextHead (e : Encoding) (text : Text) (pos : Nat) : Checked Nat := do
  let n ← lengthAt e text pos
  add pos (max n 1)

/-- `Encoding.rightAdjust` を確かめる。 -/
def rightAdjust (e : Encoding) (text : Text) (pos : Nat) : Checked Nat := do
  let head ← leftAdjust e text 0 pos
  if head < pos then nextHead e text head else some pos

theorem lengthAt_eq (e : Encoding) (text : Text) (pos : Nat) : lengthAt e text pos = some (e.lengthAt text pos) := by
  unfold lengthAt Encoding.lengthAt
  cases h : text[pos]? with
  | none => rfl
  | some b =>
    have hlt := (Array.getElem?_eq_some_iff.1 h).1
    rw [sub_of_le (Nat.le_of_lt hlt)]
    rfl

theorem retreatWhile_eq (inside : UInt8 → Bool) (start : Nat) (hpos : pos < text.size) :
    retreatWhile inside text start pos = some (Encoding.retreatWhile inside text start pos) := by
  induction pos with
  | zero => rw [retreatWhile, read_of_lt hpos]; rfl
  | succ p ih =>
    have ih := ih (Nat.lt_of_succ_lt hpos)
    rw [retreatWhile, read_of_lt hpos, Encoding.retreatWhile, some_bind]
    by_cases hgo : start < p + 1 ∧ inside (text.getD (p + 1) 0)
    · rw [if_pos hgo, if_pos hgo, ih]
    · rw [if_neg hgo, if_neg hgo]

theorem retreatOver_eq (lead : UInt8 → Bool) (start : Nat) (hpos : pos ≤ text.size) (hsize : text.size ≤ maxSize) :
    retreatOver lead text start pos = some (Encoding.retreatOver lead text start pos) := by
  induction pos with
  | zero => rfl
  | succ p ih =>
    have ih := ih (Nat.le_of_succ_le hpos)
    rw [retreatOver, read_of_lt hpos, Encoding.retreatOver]
    simp only [some_bind]
    by_cases hstart : start < p + 1
    · rw [if_pos hstart]
      by_cases hlead : lead (text.getD p 0)
      · rw [if_pos hlead, if_pos ⟨hstart, hlead⟩, ih]
      · rw [if_neg hlead, if_neg fun h => hlead h.2, add_of_le (Nat.le_trans hpos hsize)]
    · rw [if_neg hstart, if_neg fun h => hstart h.1]

section
variable (hsize : 2 * text.size ≤ maxSize)
include hsize

theorem resync_eq (hp : p ≤ pos) (hpos : pos < text.size) : resync e text p pos = some (e.resync text p pos) := by
  have hwidth : e.width (text.getD p 0) ≤ 6 := by
    refine Nat.le_trans (e.width_le_maxWidth _) ?_
    cases e <;> decide
  have hmax : maxSize = 0xffffffffffffffff := rfl
  unfold resync Encoding.resync
  simp only [read_of_lt (Nat.lt_of_le_of_lt hp hpos), some_bind]
  rw [add_of_le (by omega), some_bind]
  by_cases hlt : pos < p + e.width (text.getD p 0)
  · rw [if_pos hlt, if_pos hlt]
  · rw [if_neg hlt, if_neg hlt, sub_of_le (by omega), some_bind, add_of_le (by omega)]

theorem leftAdjust_eq (e : Encoding) (start pos : Nat) :
    leftAdjust e text start pos = some (e.leftAdjust text start pos) := by
  unfold leftAdjust Encoding.leftAdjust
  by_cases hin : pos ≤ start ∨ text.size ≤ pos
  · rw [if_pos hin, if_pos hin]
  · have hpos : pos < text.size := by omega
    rw [if_neg hin, if_neg hin]
    cases e with
    | ascii => rfl
    | utf8 => exact retreatWhile_eq _ start hpos
    | eucJp =>
      simp only [retreatWhile_eq _ start hpos, some_bind]
      exact resync_eq hsize (Encoding.retreatWhile_le ..) hpos
    | sjis =>
      simp only [read_of_lt hpos, some_bind]
      by_cases htrail : Encoding.isSjisTrail (text.getD pos 0)
      · rw [if_pos htrail, if_pos htrail, retreatOver_eq _ start (Nat.le_of_lt hpos) (by omega), some_bind]
        exact resync_eq hsize (Encoding.retreatOver_le ..) hpos
      · rw [if_neg htrail, if_neg htrail]
        exact resync_eq hsize (Nat.le_refl _) hpos

theorem prevHead_eq (e : Encoding) (start pos : Nat) :
    prevHead e text start pos = some (e.prevHead text start pos) := by
  unfold prevHead Encoding.prevHead
  split
  · rfl
  · rw [sub_of_le (by omega)]
    simp only [some_bind, leftAdjust_eq hsize, Option.map_some]

theorem nextHead_eq (e : Encoding) (hpos : pos ≤ text.size) : nextHead e text pos = some (e.nextHead text pos) := by
  have hlen := e.lengthAt_le text pos hpos
  have hmax : maxSize = 0xffffffffffffffff := rfl
  rw [nextHead, lengthAt_eq]
  simp only [some_bind]
  exact add_of_le (by omega)

theorem rightAdjust_eq (e : Encoding) (pos : Nat) : rightAdjust e text pos = some (e.rightAdjust text pos) := by
  rw [rightAdjust, leftAdjust_eq hsize]
  simp only [some_bind, Encoding.rightAdjust]
  by_cases hin : pos ≤ 0 ∨ text.size ≤ pos
  · have hself : e.leftAdjust text 0 pos = pos := if_pos hin
    simp [hself]
  · have hle := e.leftAdjust_le text 0 pos
    rw [nextHead_eq hsize e (by omega)]
    split <;> rfl

end

/-! ## 文字の頭の列 -/

/-- `Encoding.headsUp` を確かめる。 -/
def headsUp (e : Encoding) (text : Text) (hi c : Nat) : Checked (List Nat × Nat) :=
  if _h : c ≤ hi then do
    let next ← nextHead e text c
    if _hnext : c < next then (headsUp e text hi next).map fun heads => (c :: heads.1, heads.2) else none
  else some ([], c)
termination_by hi + 1 - c

/-- `Encoding.headsDown` を確かめる。 -/
def headsDown (e : Encoding) (text : Text) (lo c : Nat) : Checked (List Nat × Option Nat) :=
  if c < lo then some ([], some c)
  else do
    match ← prevHead e text 0 c with
    | some prev =>
      if _hprev : prev < c then (headsDown e text lo prev).map fun heads => (c :: heads.1, heads.2) else none
    | none => some ([c], none)
termination_by c

section
variable (hsize : 2 * text.size ≤ maxSize)
include hsize

theorem headsUp_eq (e : Encoding) (hhi : hi ≤ text.size) (c : Nat) :
    headsUp e text hi c = some (e.headsUp text hi c) := by
  fun_induction Encoding.headsUp e text hi c with
  | case1 c hle rest next hr ih =>
    rw [headsUp, dif_pos hle, nextHead_eq hsize e (Nat.le_trans hle hhi), some_bind,
      dif_pos (Encoding.lt_nextHead ..), ih, hr]
    rfl
  | case2 c hgt => rw [headsUp, dif_neg hgt]

theorem headsDown_eq (e : Encoding) (lo c : Nat) : headsDown e text lo c = some (e.headsDown text lo c) := by
  fun_induction Encoding.headsDown e text lo c with
  | case1 c hlt => rw [headsDown, if_pos hlt]
  | case2 c hge prev hprev rest next hr ih =>
    rw [headsDown, if_neg hge, prevHead_eq hsize, hprev]
    simp only [some_bind]
    rw [dif_pos (Encoding.prevHead_lt hprev), ih, hr]
    rfl
  | case3 c hge hnone =>
    rw [headsDown, if_neg hge, prevHead_eq hsize, hnone]
    rfl

end

/-! ## 探すもの -/

/-- `p` から長さ `n` の窓の終わりを確かめてから調べる。 -/
def probe (hit : Nat → Bool) (n p : Nat) : Checked Bool := (add p n).map fun _ => hit p

/-- `Text.firstFrom` の調べるごとに確かめる。 -/
def firstFrom (hit : Nat → Checked Bool) (lo hi : Nat) : Checked (Option Nat) :=
  if lo ≤ hi then do
    if ← hit lo then some (some lo) else firstFrom hit (lo + 1) hi
  else some none
termination_by hi + 1 - lo

/-- `Text.lastFrom` の調べるごとに確かめる。 -/
def lastFrom (hit : Nat → Checked Bool) (lo : Nat) : Nat → Checked (Option Nat)
  | 0 => if lo = 0 then (hit 0).map fun b => if b then some 0 else none else some none
  | hi + 1 =>
    if lo ≤ hi + 1 then do
      if ← hit (hi + 1) then some (some (hi + 1)) else lastFrom hit lo hi
    else some none

/-- 窓の `t` から、文字列の `p` バイト目から、前へ比べる。合えば窓の始まりに着く。 -/
def window (text : Text) (key : List UInt8) (t : Nat) : Nat → Checked (Option Nat)
  | 0 => do
    let b ← read text t
    let k ← key[0]?
    some (if b = k then some t else none)
  | p + 1 => do
    let b ← read text t
    let k ← key[p + 1]?
    if b = k then do
      let t ← sub t 1
      window text key t p
    else some none

/-- `Text.leapForward` を、窓の末尾 `s` を進めながら確かめる。 -/
def leapForward (skip : Skip) (text : Text) (key : List UInt8) (tail stop s : Nat) : Checked (Option Nat) :=
  if _h : s ≤ stop then do
    match ← window text key s tail with
    | some found => some (some found)
    | none =>
      let b ← read text s
      let next ← add s (skip.width b)
      if _hnext : s < next then leapForward skip text key tail stop next else none
  else some none
termination_by stop + 1 - s

/-- `Text.leapBackward` を確かめる。 -/
def leapBackward (skip : Skip) (e : Encoding) (text : Text) (key : List UInt8) (limit c : Nat) :
    Checked (Option Nat) :=
  if limit ≤ c then do
    if ← probe (text.hasAt key) key.length c then some (some c)
    else do
      let b ← read text c
      if c < skip.width b then some none
      else do
        let p ← sub c (skip.width b)
        let prev ← leftAdjust e text 0 p
        if _hprev : prev < c then leapBackward skip e text key limit prev else none
  else some none
termination_by c

/-- `Text.memberForward` を確かめる。 -/
def memberForward (set : ByteSet) (e : Encoding) (text : Text) (limit p : Nat) : Checked (Option Nat) :=
  if _h : p ≤ limit ∧ p < text.size then do
    let b ← read text p
    if set.contains b then some (some p)
    else do
      let next ← nextHead e text p
      if _hnext : p < next then memberForward set e text limit next else none
  else some none
termination_by text.size - p

/-- `Text.memberBackward` を確かめる。 -/
def memberBackward (set : ByteSet) (e : Encoding) (text : Text) (limit p : Nat) : Checked (Option Nat) :=
  if limit ≤ p then do
    let b ← read text p
    if set.contains b then some (some p)
    else do
      match ← prevHead e text 0 p with
      | some prev => if _hprev : prev < p then memberBackward set e text limit prev else none
      | none => some none
  else some none
termination_by p

variable {hit : Nat → Checked Bool} {f : Nat → Bool} {key : List UInt8} {last limit : Nat} {set : ByteSet}

theorem probe_of_le (f : Nat → Bool) (h : p + n ≤ maxSize) : probe f n p = some (f p) := by
  rw [probe, add_of_le h, Option.map_some]

theorem firstFrom_eq (h : ∀ c ≤ hi, hit c = some (f c)) (lo : Nat) :
    firstFrom hit lo hi = some (Text.firstFrom f lo hi) := by
  fun_induction Text.firstFrom f lo hi with
  | case1 lo hle hf =>
    rw [firstFrom, if_pos hle, h lo hle, some_bind, if_pos hf]
  | case2 lo hle hf ih =>
    rw [firstFrom, if_pos hle, h lo hle, some_bind, if_neg hf, ih]
  | case3 lo hgt => rw [firstFrom, if_neg hgt]

theorem lastFrom_eq (h : ∀ c ≤ hi, hit c = some (f c)) : lastFrom hit lo hi = some (Text.lastFrom f lo hi) := by
  induction hi with
  | zero =>
    rw [lastFrom, Text.lastFrom, h 0 (Nat.le_refl 0)]
    by_cases hlo : lo = 0 <;> simp [hlo]
  | succ hi ih =>
    have ih := ih fun c hc => h c (Nat.le_succ_of_le hc)
    rw [lastFrom, Text.lastFrom, h _ (Nat.le_refl _)]
    by_cases hle : lo ≤ hi + 1
    · rw [if_pos hle, if_pos hle, some_bind, ih]
      split <;> rfl
    · rw [if_neg hle, if_neg hle]

/-- 後ろから比べる窓は、文字列の頭から比べるのと同じである。 -/
theorem window_eq (hp : p < key.length) (hc : c + p < text.size) :
    window text key (c + p) p = some (if text.hasAt (key.take (p + 1)) c then some c else none) := by
  have hback : ∀ {p}, p < key.length → c + p < text.size →
      window text key (c + p) p = (text.windowAt? key c (p + 1)).map fun b => if b then some c else none := by
    intro p hp hc
    induction p with
    | zero =>
      rw [window, Text.windowAt?, read, Array.getElem?_eq_getElem hc, List.getElem?_eq_getElem hp]
      simp only [some_bind, Option.some_inj]
      by_cases hb : text[c + 0] = key[0]
      · rw [if_pos hb, if_pos hb.symm]
        rfl
      · rw [if_neg hb, if_neg (Ne.symm hb)]
        rfl
    | succ p ih =>
      have ih := ih (Nat.lt_of_succ_lt hp) (Nat.lt_of_succ_lt hc)
      rw [window, Text.windowAt?, read, Array.getElem?_eq_getElem hc, List.getElem?_eq_getElem hp]
      simp only [some_bind, Option.some_inj]
      by_cases hb : text[c + (p + 1)] = key[p + 1]
      · rw [if_pos hb, if_pos hb.symm, sub_of_le (show 1 ≤ c + (p + 1) by omega), some_bind, ← ih]
        rfl
      · rw [if_neg hb, if_neg (Ne.symm hb)]
        rfl
  rw [hback hp hc, Text.windowAt?_eq hp hc, Option.map_some]

section
variable (hsize : 2 * text.size ≤ maxSize)
include hsize

theorem leapForward_eq {skip : Skip} (hne : key ≠ []) (hskip : ∀ b, skip.width b ≤ key.length)
    (hlast : last + key.length ≤ text.size) (c : Nat) :
    leapForward skip text key (key.length - 1) (last + (key.length - 1)) (c + (key.length - 1)) =
      some (Text.leapForward skip text key last c) := by
  have hpos := List.length_pos_iff.2 hne
  have hfull : key.take (key.length - 1 + 1) = key := by rw [Nat.sub_add_cancel hpos, List.take_length]
  fun_induction Text.leapForward skip text key last c with
  | case1 c hle h =>
    rw [leapForward, dif_pos (by omega), window_eq (by omega) (by omega), hfull, if_pos h]
    rfl
  | case2 c hle h ih =>
    have hwidth := hskip (text.getD (c + (key.length - 1)) 0)
    rw [leapForward, dif_pos (by omega), window_eq (by omega) (by omega), hfull, if_neg h]
    simp only [some_bind]
    rw [read_of_lt (by omega), some_bind, add_of_le (by omega), some_bind,
      dif_pos (Nat.lt_add_of_pos_right (skip.width_pos _)), Nat.add_right_comm, ih]
  | case3 c hgt => rw [leapForward, dif_neg (by omega)]

theorem leapBackward_eq {skip : Skip} (e : Encoding) (hne : key ≠ []) (hc : c + key.length ≤ text.size) :
    leapBackward skip e text key limit c = some (Text.leapBackward skip e text key limit c) := by
  have hpos := List.length_pos_iff.2 hne
  fun_induction Text.leapBackward skip e text key limit c with
  | case1 c hle h =>
    rw [leapBackward, if_pos hle, probe_of_le _ (by omega), some_bind, if_pos h]
  | case2 c hle h width hlt =>
    rw [leapBackward, if_pos hle, probe_of_le _ (by omega), some_bind, if_neg h, read_of_lt (by omega), some_bind,
      if_pos hlt]
  | case3 c hle h width hge ih =>
    have hadjust := Encoding.leftAdjust_le e text 0 (c - width)
    have hwidth : 0 < width := skip.width_pos _
    rw [leapBackward, if_pos hle, probe_of_le _ (by omega), some_bind, if_neg h, read_of_lt (by omega), some_bind,
      if_neg hge, sub_of_le (Nat.le_of_not_lt hge), some_bind, leftAdjust_eq hsize, some_bind, dif_pos (by omega),
      ih (by omega)]
  | case4 c hgt => rw [leapBackward, if_neg hgt]

theorem memberForward_eq (e : Encoding) (p : Nat) :
    memberForward set e text limit p = some (text.memberForward set e limit p) := by
  fun_induction Text.memberForward set e text limit p with
  | case1 p h hin =>
    rw [memberForward, dif_pos h, read, Array.getElem?_eq_getElem h.2, some_bind, if_pos hin]
  | case2 p h hout ih =>
    rw [memberForward, dif_pos h, read, Array.getElem?_eq_getElem h.2, some_bind, if_neg hout,
      nextHead_eq hsize e (Nat.le_of_lt h.2), some_bind, dif_pos (Encoding.lt_nextHead ..), ih]
  | case3 p h => rw [memberForward, dif_neg h]

theorem memberBackward_eq (e : Encoding) (hp : p < text.size) :
    memberBackward set e text limit p = some (text.memberBackward set e limit p) := by
  fun_induction Text.memberBackward set e text limit p with
  | case1 p hle hin =>
    rw [memberBackward, if_pos hle, read_of_lt hp, some_bind, if_pos hin]
  | case2 p hle hout prev hprev ih =>
    have hlt := Encoding.prevHead_lt hprev
    rw [memberBackward, if_pos hle, read_of_lt hp, some_bind, if_neg hout, prevHead_eq hsize, hprev]
    simp only [some_bind]
    rw [dif_pos hlt, ih (Nat.lt_trans hlt hp)]
  | case3 p hle hout hnone =>
    rw [memberBackward, if_pos hle, read_of_lt hp, some_bind, if_neg hout, prevHead_eq hsize, hnone]
    rfl
  | case4 p hgt => rw [memberBackward, if_neg hgt]

end

/-- 文字列を置ける最後の位置と `limit` との手前の方までを探す。 -/
def within (text : Text) (key : List UInt8) (limit : Nat) (search : Nat → Checked (Option Nat)) :
    Checked (Option Nat) :=
  match text.lastStart? key.length with
  | some last => search (min last limit)
  | none => some none

/-- 始まりが `start` から `last` までの窓を、末尾から飛ばしながら探す。 -/
def leap (text : Text) (key : List UInt8) (start last : Nat) : Checked (Option Nat) := do
  let tail ← sub key.length 1
  let s ← add start tail
  let stop ← add last tail
  leapForward (.forward key) text key tail stop s

/-- 後ろから探し始める文字の頭。 -/
def lastHead (e : Encoding) (text : Text) (start : Nat) : Checked (Option Nat) :=
  if text.size ≤ start then prevHead e text 0 text.size else some (some start)

/-- `Finder.forward` を確かめる。 -/
def find (f : Finder) (e : Encoding) (fold : FoldTable) (text : Text) (start limit : Nat) : Checked (Option Nat) :=
  match f with
  | .nothing => some none
  | .exact key => within text key limit (firstFrom (probe (text.hasAt key) key.length) start)
  | .leaping key => within text key limit (leap text key start)
  | .folded key => within text key limit (firstFrom (probe (text.hasFoldedAt fold key) key.length) start)
  | .member set => memberForward set e text limit start

/-- `Finder.backward` を確かめる。 -/
def findBack (f : Finder) (e : Encoding) (fold : FoldTable) (text : Text) (start limit : Nat) : Checked (Option Nat) :=
  match f with
  | .nothing => some none
  | .exact key => within text key start (lastFrom (probe (text.hasAt key) key.length) limit)
  | .leaping key => within text key start (leapBackward (.backward key) e text key limit)
  | .folded key => within text key start (lastFrom (probe (text.hasFoldedAt fold key) key.length) limit)
  | .member set => do
    match ← lastHead e text start with
    | some p => memberBackward set e text limit p
    | none => some none

theorem within_eq {search : Nat → Checked (Option Nat)} {g : Nat → Option Nat}
    (h : ∀ last, last + key.length ≤ text.size → search last = some (g last)) :
    within text key limit search = some ((text.lastStart? key.length).bind fun last => g (min last limit)) := by
  unfold within Text.lastStart?
  by_cases hfit : key.length ≤ text.size
  · rw [if_pos hfit]
    exact h _ (by omega)
  · rw [if_neg hfit]
    rfl

section
variable (hsize : 2 * text.size ≤ maxSize)
include hsize

theorem leap_eq (hne : key ≠ []) (hstart : start ≤ text.size) (hlast : last + key.length ≤ text.size) :
    leap text key start last = some (text.leapForward (.forward key) key last start) := by
  have hpos := List.length_pos_iff.2 hne
  have hskip : ∀ b, (Skip.forward key).width b ≤ key.length := fun b => by
    have hle := List.idxOf_le_length (l := key.dropLast.reverse) (a := b)
    rw [List.length_reverse, List.length_dropLast] at hle
    show key.dropLast.reverse.idxOf b + 1 ≤ key.length
    omega
  unfold leap
  rw [sub_of_le (show 1 ≤ key.length from hpos), some_bind, add_of_le (by omega), some_bind, add_of_le (by omega),
    some_bind]
  exact leapForward_eq hsize hne hskip hlast start

/-- 本文に収まる窓の終わりは、確かめに通る。 -/
theorem probe_eq (f : Nat → Bool) (hlast : last + n ≤ text.size) : ∀ c ≤ last, probe f n c = some (f c) :=
  fun _ _ => probe_of_le f (by omega)

/-- 本文の中から探せば、前から探しても、確かめに落ちない。 -/
theorem find_eq {f : Finder} (e : Encoding) (fold : FoldTable) (hne : ∀ key, f = .leaping key → key ≠ [])
    (hstart : start ≤ text.size) (limit : Nat) :
    find f e fold text start limit = some (f.forward e fold text start limit) := by
  cases f with
  | nothing => rfl
  | exact key => exact within_eq fun last hlast => firstFrom_eq (probe_eq hsize _ hlast) start
  | leaping key => exact within_eq fun last hlast => leap_eq hsize (hne key rfl) hstart hlast
  | folded key => exact within_eq fun last hlast => firstFrom_eq (probe_eq hsize _ hlast) start
  | member set => exact memberForward_eq hsize e start

/-- 後ろから探しても、確かめに落ちない。 -/
theorem findBack_eq {f : Finder} (e : Encoding) (fold : FoldTable) (hne : ∀ key, f = .leaping key → key ≠ [])
    (start limit : Nat) : findBack f e fold text start limit = some (f.backward e fold text start limit) := by
  cases f with
  | nothing => rfl
  | exact key => exact within_eq fun last hlast => lastFrom_eq (probe_eq hsize _ hlast)
  | leaping key => exact within_eq fun last hlast => leapBackward_eq hsize e (hne key rfl) hlast
  | folded key => exact within_eq fun last hlast => lastFrom_eq (probe_eq hsize _ hlast)
  | member set =>
    have hlast : lastHead e text start =
        some (if text.size ≤ start then e.prevHead text 0 text.size else some start) := by
      unfold lastHead
      split
      · exact prevHead_eq hsize e 0 text.size
      · rfl
    rw [findBack, hlast, Finder.backward]
    cases hp : (if text.size ≤ start then e.prevHead text 0 text.size else some start) with
    | none => rfl
    | some p =>
      have hlt : p < text.size := by
        split at hp
        · exact Encoding.prevHead_lt hp
        · cases hp
          omega
      exact memberBackward_eq hsize e hlt

end

end Checked
end MultibyteRegex

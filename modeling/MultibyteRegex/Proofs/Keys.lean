import MultibyteRegex.Proofs.Bounds

/-!
# 手がかりの文字列の正しさ

手がかりが挙げる文字列は、節が合うどの範囲にも、言われた距離の所に現れる。長さの上限で切った文字列が
ちょうど上限の長さになるなら、その後につないでも伸びない。上限より短く切れた文字列につなぐと、どの照合も
含まない文字列ができるので、並びの中でそのようにつなぐ所がないことを求める。
-/

namespace MultibyteRegex

namespace Encoding

variable {e : Encoding} {bytes : List UInt8} {n : Nat}

theorem wholeChars_prefix (e : Encoding) (n : Nat) (bytes : List UInt8) : e.wholeChars n bytes <+: bytes := by
  fun_induction wholeChars e n bytes with
  | case1 | case3 => exact List.nil_prefix
  | case2 n b rest _ ih =>
    have hsplit : b :: rest = (e.takeChar b rest).1 ++ (e.takeChar b rest).2 := by simp [takeChar]
    rw [hsplit]
    exact (List.prefix_append_right_inj _).2 ih

theorem length_wholeChars_le (e : Encoding) (n : Nat) (bytes : List UInt8) :
    (e.wholeChars n bytes).length ≤ n := by
  fun_induction wholeChars e n bytes with
  | case1 | case3 => exact Nat.zero_le _
  | case2 n b rest h ih =>
    have hpos := e.width_pos b
    simp only [takeChar, List.length_append, List.length_cons, List.length_take] at ih ⊢
    omega

theorem wholeChars_zero : e.wholeChars 0 bytes = [] :=
  List.length_eq_zero_iff.1 (Nat.le_zero.1 (length_wholeChars_le e 0 bytes))

/-- ちょうど `n` バイトになった並びは、後ろに何をつないでも伸びない。 -/
theorem wholeChars_append (h : (e.wholeChars n bytes).length = n) (more : List UInt8) :
    e.wholeChars n (e.wholeChars n bytes ++ more) = e.wholeChars n bytes := by
  fun_induction wholeChars e n bytes with
  | case1 | case3 =>
    subst h
    exact wholeChars_zero
  | case2 n b rest hb ih =>
    have hpos := e.width_pos b
    generalize hkept : e.wholeChars (n - e.width b) (e.takeChar b rest).2 = kept at h ih ⊢
    simp only [takeChar, List.length_append, List.length_cons, List.length_take] at h
    have hlen : (rest.take (e.width b - 1)).length = e.width b - 1 := by
      rw [List.length_take]
      omega
    have htake : e.takeChar b (rest.take (e.width b - 1) ++ (kept ++ more)) =
        ((e.takeChar b rest).1, kept ++ more) := by
      simp [takeChar, hlen]
    simp only [takeChar, List.cons_append, List.append_assoc]
    rw [wholeChars, if_pos ⟨hb.1, by simp only [List.length_append, hlen]; omega⟩, htake,
      ih (by omega)]
    simp [takeChar]

theorem wholeChars_of_width_one (h : ∀ b ∈ bytes, e.width b = 1) : e.wholeChars n bytes = bytes.take n := by
  induction bytes generalizing n with
  | nil => simp [wholeChars]
  | cons b bytes ih =>
    obtain ⟨hb, hbytes⟩ := List.forall_mem_cons.1 h
    cases n with
    | zero => simp [wholeChars, hb]
    | succ n => simp [wholeChars, takeChar, hb, ih hbytes]

/-- 手がかりの長さの上限まで埋まった、完全な文字の並び。 -/
structure Full (e : Encoding) (bytes : List UInt8) : Prop where
  length : bytes.length = maxKeyLength
  whole : e.wholeChars maxKeyLength bytes = bytes

theorem Full.append (h : e.Full bytes) (more : List UInt8) : e.wholeChars maxKeyLength (bytes ++ more) = bytes := by
  have happend := wholeChars_append (h.whole ▸ h.length) more
  rwa [h.whole] at happend

theorem full_wholeChars (h : (e.wholeChars maxKeyLength bytes).length = maxKeyLength) :
    e.Full (e.wholeChars maxKeyLength bytes) := by
  refine ⟨h, ?_⟩
  simpa using wholeChars_append h []

end Encoding

namespace Key

/-- `s` から `t` までの範囲の中で、言われた距離の、`P` を満たす `p` に文字列が現れる。 -/
structure At (k : Key) (m : Matcher) (P : Nat → Prop) (s t p : Nat) : Prop where
  le : s ≤ p
  distance : k.distance.Contains (p - s)
  occurs : m.occurs k.folded k.bytes p
  within : p + k.bytes.length ≤ t
  place : P p

/-- 終わりまで届くと言うか、上限まで埋まっている。後ろにつないでよいのは、そのような文字列だけである。 -/
def canGrow (k : Key) : Bool := k.reachesEnd || k.bytes.length == maxKeyLength

/-- `p` に現れた文字列が、終わりまで届くか、もう伸ばせない長さになっている。 -/
def Fills (k : Key) (e : Encoding) (t p : Nat) : Prop := p + k.bytes.length = t ∨ e.Full k.bytes

/-- 範囲の初めに現れ、終わりまで届くと言うなら届いている。 -/
structure Leads (k : Key) (m : Matcher) (P : Nat → Prop) (s t : Nat) : Prop where
  zero : k.distance = .zero
  at_ : k.At m P s t s
  fills : k.reachesEnd → k.Fills m.encoding t s

variable {k a b : Key} {e : Encoding} {m : Matcher} {P : Nat → Prop} {s t u p n : Nat}

theorem At.mono (h : k.At m P s u p) (hut : u ≤ t) : k.At m P s t p :=
  ⟨h.le, h.distance, h.occurs, Nat.le_trans h.within hut, h.place⟩

theorem At.eq_of_zero (h : k.At m P s t p) (hz : k.distance = .zero) : p = s := by
  have hc := h.distance
  rw [hz] at hc
  have := hc.eq_zero rfl
  have := h.le
  omega

theorem At.shift {pos : Interval} (h : k.At m P u t p) (hsu : s ≤ u) (hp : pos.Contains (u - s)) :
    (k.shift pos).At m P s t p := by
  have hle := h.le
  refine ⟨Nat.le_trans hsu hle, ?_, h.occurs, h.within, h.place⟩
  have := hp.add h.distance
  rwa [show u - s + (p - u) = p - s by omega] at this

/-- 切った文字列も、同じ所に現れる。 -/
theorem At.clip (h : k.At m P s t p) (e : Encoding) (n : Nat) : (k.clip e n).At m P s t p := by
  have := h.within
  unfold Key.clip
  dsimp only
  split
  · exact ⟨h.le, h.distance, Matcher.occurs_of_prefix (e.wholeChars_prefix n k.bytes) h.occurs, by
      dsimp only; omega, h.place⟩
  · exact h

theorem clip_distance (k : Key) (e : Encoding) (n : Nat) : (k.clip e n).distance = k.distance := by
  unfold clip
  dsimp only
  split <;> rfl

/-- 終わりまで届くままの文字列は、切られていない。 -/
theorem clip_of_reachesEnd (h : (k.clip e n).reachesEnd) : k.clip e n = k := by
  unfold clip at h ⊢
  dsimp only at h ⊢
  split at h
  · cases h
  · rename_i hlen
    rw [if_neg hlen]

theorem fills_clip (h : p + k.bytes.length = t) (hk : (k.clip e maxKeyLength).canGrow) :
    (k.clip e maxKeyLength).Fills e t p := by
  unfold clip at hk ⊢
  dsimp only at hk ⊢
  split
  · rename_i hlt
    rw [if_pos hlt] at hk
    exact .inr (Encoding.full_wholeChars (by simpa [canGrow] using hk))
  · exact .inl h

theorem bytes_concat (h : e.Full a.bytes) : (a.concat b e).bytes = a.bytes := by
  unfold concat clip
  dsimp only
  rw [h.append]
  split
  · rfl
  · rename_i hlen
    have hnil : b.bytes = [] := List.length_eq_zero_iff.1 (by rw [List.length_append] at hlen; omega)
    simp [hnil]

theorem folded_concat (a b : Key) (e : Encoding) : (a.concat b e).folded = a.folded := by
  unfold concat clip
  dsimp only
  split <;> rfl

/-- 終わりまで届く文字列に、すぐ後の文字列をつなぐ。 -/
theorem At.concat (h : a.At m P s u p) (hfill : a.Fills e u p) (hfold : a.folded = b.folded)
    (hb : b.At m P s t u) : (a.concat b e).At m P s t p := by
  have := h.within
  have := hb.within
  rcases hfill with hfill | hfull
  · have hocc : m.occurs a.folded (a.bytes ++ b.bytes) p := by
      rw [Matcher.occurs_append, Bool.and_eq_true, hfill, hfold]
      exact ⟨hfold ▸ h.occurs, hb.occurs⟩
    have hjoin : At { a with bytes := a.bytes ++ b.bytes, reachesEnd := b.reachesEnd } m P s t p :=
      ⟨h.le, h.distance, hocc, by simp only [List.length_append]; omega, h.place⟩
    exact hjoin.clip e maxKeyLength
  · refine ⟨h.le, ?_, ?_, ?_, h.place⟩
    · rw [Key.concat, clip_distance]
      exact h.distance
    · rw [bytes_concat hfull, folded_concat]
      exact h.occurs
    · rw [bytes_concat hfull]
      omega

theorem Fills.concat (h : a.Fills e u p) (hb : b.reachesEnd → b.Fills e t u)
    (hr : (a.concat b e).reachesEnd) : (a.concat b e).Fills e t p := by
  have hwhole : a.concat b e = { a with bytes := a.bytes ++ b.bytes, reachesEnd := b.reachesEnd } :=
    clip_of_reachesEnd hr
  have hreach : b.reachesEnd := by rwa [hwhole] at hr
  rcases h with h | hfull
  · rcases hb hreach with hb | hfull
    · refine .inl ?_
      rw [hwhole]
      simp only [List.length_append]
      omega
    · -- 上限まで埋まった文字列の前につないで切られないのは、前が空のときだけである。
      have hle := e.length_wholeChars_le maxKeyLength (a.bytes ++ b.bytes)
      have hkept : ¬(e.wholeChars maxKeyLength (a.bytes ++ b.bytes)).length < (a.bytes ++ b.bytes).length := by
        intro hlt
        have hcut : (a.concat b e).reachesEnd = false := by
          unfold Key.concat clip
          dsimp only
          rw [if_pos hlt]
        simp [hcut] at hr
      rw [List.length_append, hfull.length] at hkept
      have hnil : a.bytes = [] := List.length_eq_zero_iff.1 (by omega)
      refine .inr ?_
      rw [hwhole]
      simpa [hnil] using hfull
  · refine .inr ?_
    rwa [bytes_concat hfull]

/-- 初めの文字列の頭の部分も、初めに現れる。 -/
theorem Leads.initial {bytes : List UInt8} {same : Bool} (h : k.Leads m P s t) (hpre : bytes <+: k.bytes)
    (hsame : same → bytes = k.bytes ∧ k.reachesEnd) : Leads ⟨.zero, bytes, k.folded, same⟩ m P s t := by
  refine ⟨rfl, ⟨Nat.le_refl _, by simpa using Interval.contains_zero, ?_, ?_, h.at_.place⟩, fun hr => ?_⟩
  · exact Matcher.occurs_of_prefix hpre h.at_.occurs
  · have := hpre.length_le
    have := h.at_.within
    dsimp only
    omega
  · obtain ⟨rfl, hend⟩ := hsame hr
    exact h.fills hend

theorem Leads.clip (h : k.Leads m P s t) (e : Encoding) (n : Nat) : (k.clip e n).Leads m P s t := by
  refine ⟨(clip_distance k e n).trans h.zero, h.at_.clip e n, fun hr => ?_⟩
  have hsame := clip_of_reachesEnd hr
  rw [hsame] at hr ⊢
  exact h.fills hr

/-- 二つの文字列をつなぐなら、前の文字列は上限より短く切れていない。 -/
def joinsEvenly (opened leading : Option Key) : Bool :=
  match opened, leading with
  | some a, some b => a.folded != b.folded || a.canGrow
  | _, _ => true

theorem joinsEvenly_shift (opened leading : Option Key) (pos : Interval) :
    joinsEvenly opened (leading.map (·.shift pos)) = joinsEvenly opened leading := by
  cases opened <;> cases leading <;> rfl

theorem eq_or_eq_of_better {x y : Option Key} (h : better x y = some k) : x = some k ∨ y = some k := by
  unfold better at h
  split at h
  · exact .inr (Option.filter_eq_some_iff.1 h).1
  · exact .inl h
  · split at h
    · exact .inl h
    · split at h
      · exact .inr h
      · exact .inl h

end Key

namespace Facts

/-- 挙げた文字列が、`s` から `t` までの範囲に現れる。 -/
structure Keyed (f : Facts) (m : Matcher) (P : Nat → Prop) (s t : Nat) : Prop where
  leading : ∀ k ∈ f.leading, k.Leads m P s t
  best : ∀ k ∈ f.best, ∃ p, k.At m P s t p
  trailing : ∀ k ∈ f.trailing, ∃ p, k.At m P s t p ∧ (k.canGrow → k.Fills m.encoding t p)

variable {m : Matcher} {P : Nat → Prop} {s t u p : Nat} {f g : Facts} {k : Key}

theorem Keyed.of_none (hleading : f.leading = none) (hbest : f.best = none) (htrailing : f.trailing = none) :
    f.Keyed m P s t := by
  constructor <;> simp [hleading, hbest, htrailing]

theorem Keyed.empty : Keyed {} m P s t := .of_none rfl rfl rfl

/-! ## 並び -/

namespace Running

variable {r : Running}

/-- もう伸びない文字列が、`s` から `t` までの範囲に現れる。 -/
structure Kept (r : Running) (m : Matcher) (P : Nat → Prop) (s t : Nat) : Prop where
  leading : ∀ k ∈ r.facts.leading, k.reachesEnd = false ∧ k.distance = .zero ∧ k.At m P s t s
  best : ∀ k ∈ r.best, ∃ p, k.At m P s t p
  trailing : r.facts.trailing = none

/-- 途中までの文字列が、読んだ範囲 `s` から `u` に現れる。 -/
structure Keyed (r : Running) (m : Matcher) (P : Nat → Prop) (s u : Nat) : Prop extends r.Kept m P s u where
  opened : ∀ k ∈ r.open_, ∃ p, k.At m P s u p ∧ (k.canGrow → k.Fills m.encoding u p)

theorem Kept.mono (h : r.Kept m P s u) (hut : u ≤ t) : r.Kept m P s t :=
  ⟨fun k hk => (h.leading k hk).imp_right (.imp_right (·.mono hut)),
    fun k hk => (h.best k hk).imp fun _ => (·.mono hut), h.trailing⟩

theorem Kept.finish (h : r.Kept m P s t) (hk : k.At m P s t p) : (r.finish k).Kept m P s t := by
  have hfin : Key.At { k with reachesEnd := false } m P s t p := ⟨hk.le, hk.distance, hk.occurs, hk.within, hk.place⟩
  refine ⟨fun k' hk' => ?_, fun k' hk' => ?_, h.trailing⟩
  · dsimp only [Running.finish] at hk'
    split at hk'
    · rename_i hz
      obtain rfl := Option.some.inj hk'
      obtain rfl := hfin.eq_of_zero hz.1
      exact ⟨rfl, hz.1, hfin⟩
    · exact h.leading k' hk'
  · rcases Key.eq_or_eq_of_better hk' with hb | hb
    · exact h.best k' hb
    · cases hb
      exact ⟨p, hfin⟩

theorem Kept.finish? (h : r.Kept m P s t) {o : Option Key} (ho : ∀ k ∈ o, ∃ p, k.At m P s t p) :
    (r.finish? o).Kept m P s t := by
  cases o with
  | none => exact h
  | some k =>
    obtain ⟨p, hk⟩ := ho k rfl
    exact h.finish hk

/-- つなげないときは、次の要素の文字列に切り替える。 -/
def switch (r : Running) (leading trailing : Option Key) : Running :=
  match leading with
  | some k => if k.reachesEnd then { r with open_ := some k } else { r.finish k with open_ := trailing }
  | none => { r with open_ := trailing }

theorem extend_eq (r : Running) (e : Encoding) (leading trailing : Option Key) :
    r.extend e leading trailing =
      match r.open_, leading with
      | some a, some b =>
        if a.folded = b.folded then
          if (a.concat b e).reachesEnd then { r with open_ := some (a.concat b e) }
          else { r.finish (a.concat b e) with open_ := trailing }
        else (r.finish a).switch leading trailing
      | opened, _ => (r.finish? opened).switch leading trailing := by
  unfold extend switch
  rfl

variable {leading trailing : Option Key}

theorem Kept.switch (h : r.Kept m P s t)
    (hlead : ∀ k ∈ leading, k.At m P s t u ∧ (k.reachesEnd → k.Fills m.encoding t u))
    (htrail : ∀ k ∈ trailing, ∃ p, k.At m P s t p ∧ (k.canGrow → k.Fills m.encoding t p)) :
    (r.switch leading trailing).Keyed m P s t := by
  unfold Running.switch
  split
  · rename_i k
    obtain ⟨hk, hfill⟩ := hlead k rfl
    split
    · rename_i hr
      refine ⟨⟨h.leading, h.best, h.trailing⟩, fun k' hk' => ?_⟩
      cases hk'
      exact ⟨u, hk, fun _ => hfill hr⟩
    · have hfin := h.finish hk
      exact ⟨⟨hfin.leading, hfin.best, hfin.trailing⟩, htrail⟩
  · exact ⟨⟨h.leading, h.best, h.trailing⟩, htrail⟩

/-- 次の要素の文字列をつないでも、読んだ範囲に現れる。 -/
theorem Kept.extend (h : r.Kept m P s t) (hut : u ≤ t) (hjoin : Key.joinsEvenly r.open_ leading)
    (hopened : ∀ k ∈ r.open_, ∃ p, k.At m P s u p ∧ (k.canGrow → k.Fills m.encoding u p))
    (hlead : ∀ k ∈ leading, k.At m P s t u ∧ (k.reachesEnd → k.Fills m.encoding t u))
    (htrail : ∀ k ∈ trailing, ∃ p, k.At m P s t p ∧ (k.canGrow → k.Fills m.encoding t p)) :
    (r.extend m.encoding leading trailing).Keyed m P s t := by
  have hopen : ∀ k ∈ r.open_, ∃ p, k.At m P s t p := fun k hk => by
    obtain ⟨p, hp, -⟩ := hopened k hk
    exact ⟨p, hp.mono hut⟩
  rw [extend_eq]
  split
  · rename_i a b ha
    obtain ⟨p, hp, hfill⟩ := hopened a ha
    obtain ⟨hb, hbfill⟩ := hlead b rfl
    split
    · rename_i hfold
      have hfill := hfill (by simpa [Key.joinsEvenly, ha, hfold] using hjoin)
      have hconcat := hp.concat hfill hfold hb
      split
      · rename_i hr
        refine ⟨⟨h.leading, h.best, h.trailing⟩, fun k hk => ?_⟩
        cases hk
        exact ⟨p, hconcat, fun _ => hfill.concat hbfill hr⟩
      · have hfin := h.finish hconcat
        exact ⟨⟨hfin.leading, hfin.best, hfin.trailing⟩, htrail⟩
    · exact (h.finish (hp.mono hut)).switch hlead htrail
  · exact (h.finish? hopen).switch hlead htrail

theorem Keyed.withLength (h : r.Keyed m P s t) (n : Interval) :
    Keyed { r with facts := { r.facts with length := n } } m P s t :=
  ⟨⟨h.leading, h.best, h.trailing⟩, h.opened⟩

/-- 要素を一つ読んでも、読んだ範囲に現れる。 -/
theorem Keyed.add (h : r.Keyed m P s u) (hlength : r.facts.length.Contains (u - s)) (hsu : s ≤ u)
    (hjoin : Key.joinsEvenly r.open_ f.leading) (hb : f.Bounds m u t) (hf : f.Keyed m P u t) (hut : u ≤ t) :
    (Running.add m.encoding r f).Keyed m P s t := by
  have hbest : ∀ k ∈ Key.better r.best (f.best.map (·.shift r.facts.length)), ∃ p, k.At m P s t p := by
    intro k hk
    rcases Key.eq_or_eq_of_better hk with hk | hk
    · exact (h.best k hk).imp fun _ => (·.mono hut)
    · obtain ⟨k', hk', rfl⟩ := Option.map_eq_some_iff.1 hk
      exact (hf.best k' hk').imp fun _ hp => hp.shift hsu hlength
  have hkept := h.toKept.mono hut
  unfold Running.add
  dsimp only
  split
  · rename_i hskip
    have hzero := hb.length.eq_zero hskip.1
    obtain rfl : t = u := by omega
    exact ⟨⟨hkept.leading, hbest, hkept.trailing⟩, h.opened⟩
  · apply Keyed.withLength
    refine Kept.extend (u := u) ?_ hut ?_ h.opened (fun k hk => ?_) fun k hk => ?_
    · exact ⟨hkept.leading, hbest, hkept.trailing⟩
    · rwa [Key.joinsEvenly_shift]
    · obtain ⟨k', hk', rfl⟩ := Option.map_eq_some_iff.1 hk
      obtain ⟨hz, hat, hfill⟩ := hf.leading k' hk'
      exact ⟨hat.shift hsu hlength, hfill⟩
    · obtain ⟨k', hk', rfl⟩ := Option.map_eq_some_iff.1 hk
      obtain ⟨p, hp, hfill⟩ := hf.trailing k' hk'
      exact ⟨p, hp.shift hsu hlength, hfill⟩

theorem done_keyed (h : r.Keyed m P s t) : r.done.Keyed m P s t := by
  have hlead : ∀ k ∈ r.facts.leading, k.Leads m P s t := fun k hk => by
    obtain ⟨hr, hz, hat⟩ := h.leading k hk
    exact ⟨hz, hat, fun h => by simp [hr] at h⟩
  unfold done
  split
  · exact ⟨hlead, h.best, fun k hk => by simp [h.trailing] at hk⟩
  · rename_i k hk
    obtain ⟨p, hp, hfill⟩ := h.opened k hk
    refine ⟨fun k' hk' => ?_, fun k' hk' => ?_, fun k' hk' => ?_⟩
    · dsimp only at hk'
      split at hk'
      · rename_i hz
        obtain rfl := Option.some.inj hk'
        obtain rfl := hp.eq_of_zero hz.1
        exact ⟨hz.1, hp, fun hr => hfill (by simp [Key.canGrow, hr])⟩
      · exact hlead k' hk'
    · rcases Key.eq_or_eq_of_better hk' with hb | hb
      · exact h.best k' hb
      · cases hb
        exact ⟨p, hp⟩
    · cases hk'
      exact ⟨p, hp, hfill⟩

end Running

/-! ## 選択 -/

theorem commonPrefix_left (xs ys : List UInt8) : commonPrefix xs ys <+: xs := by
  fun_induction commonPrefix xs ys with
  | case1 xs y ys ih => exact List.cons_prefix_cons.2 ⟨rfl, ih⟩
  | case2 | case3 => exact List.nil_prefix

theorem commonPrefix_right (xs ys : List UInt8) : commonPrefix xs ys <+: ys := by
  fun_induction commonPrefix xs ys with
  | case1 xs y ys ih => exact List.cons_prefix_cons.2 ⟨rfl, ih⟩
  | case2 | case3 => exact List.nil_prefix

theorem commonPrefix_self (xs : List UInt8) : commonPrefix xs xs = xs := by
  induction xs with
  | nil => rfl
  | cons x xs ih => simp [commonPrefix, ih]

theorem leads_commonKey_left {a b : Option Key} (h : ∀ k ∈ a, k.Leads m P s t) :
    ∀ k ∈ commonKey a b, k.Leads m P s t := by
  intro k hk
  unfold commonKey at hk
  split at hk
  · rename_i a b
    dsimp only at hk
    split at hk
    · cases hk
    · split at hk
      · cases hk
      · obtain rfl := Option.some.inj hk
        refine (h a rfl).initial (commonPrefix_left a.bytes b.bytes) fun hr => ?_
        obtain ⟨hsame, hend, -⟩ := of_decide_eq_true hr
        exact ⟨by rw [← hsame, commonPrefix_self], hend⟩
  · cases hk

theorem leads_commonKey_right {a b : Option Key} (h : ∀ k ∈ b, k.Leads m P s t) :
    ∀ k ∈ commonKey a b, k.Leads m P s t := by
  intro k hk
  unfold commonKey at hk
  split at hk
  · rename_i a b
    dsimp only at hk
    split at hk
    · cases hk
    · rename_i hfold
      split at hk
      · cases hk
      · obtain rfl := Option.some.inj hk
        rw [Classical.not_not.1 hfold]
        refine (h b rfl).initial (commonPrefix_right a.bytes b.bytes) fun hr => ?_
        obtain ⟨hsame, -, hend⟩ := of_decide_eq_true hr
        exact ⟨by rw [hsame, commonPrefix_self], hend⟩
  · cases hk

theorem Keyed.alt {fs : List Facts} (hf : f ∈ fs) (h : f.Keyed m P s t) :
    (alt m.encoding fs).Keyed m P s t := by
  cases fs with
  | nil => cases hf
  | cons c fs =>
    have hall : ∀ k ∈ (fs.foldl either { c with best := none, trailing := none }).leading,
        k.Leads m P s t := by
      refine foldl_either (P := fun f => ∀ k ∈ f.leading, k.Leads m P s t) leads_commonKey_left
        leads_commonKey_right ?_
      rcases List.mem_cons.1 hf with rfl | hf
      · exact .inl h.leading
      · exact .inr ⟨f, hf, h.leading⟩
    have hlead : ∀ k ∈ (Facts.alt m.encoding (c :: fs)).leading, k.Leads m P s t := by
      intro k hk
      obtain ⟨k', hk', rfl⟩ := Option.map_eq_some_iff.1 (Option.filter_eq_some_iff.1 hk).1
      exact (hall k' hk').clip m.encoding _
    refine ⟨hlead, fun k hk => ⟨s, (hlead k hk).at_⟩, fun k hk => ?_⟩
    obtain ⟨hk, hend⟩ := Option.filter_eq_some_iff.1 hk
    exact ⟨s, (hlead k hk).at_, fun _ => (hlead k hk).fills hend⟩

/-! ## 節 -/

/-- 文字列の現れる所には、切った文字列も現れる。 -/
theorem ofLiteral_keyed {fold : Option FoldTable} (ignoreCase : Bool) {bytes : List UInt8}
    (hfold : ∀ t ∈ fold, m.program.fold = t) (hplace : bytes ≠ [] → P s)
    (h : (ignoreCase → ∀ b ∈ bytes, m.encoding.width b = 1) →
      m.occurs ignoreCase (if ignoreCase then m.program.fold.foldAll bytes else bytes) s) :
    (ofLiteral m.encoding fold ignoreCase bytes).Keyed m P s (s + bytes.length) := by
  have hkey : ∀ (folded : Bool) (w : List UInt8) (first : ByteSet), w.length = bytes.length → bytes ≠ [] →
      m.occurs folded w s → Facts.Keyed {
        length := .fixed bytes.length
        leading := some (Key.clip ⟨.zero, w, folded, true⟩ m.encoding maxKeyLength)
        best := some (Key.clip ⟨.zero, w, folded, true⟩ m.encoding maxKeyLength)
        trailing := some (Key.clip ⟨.zero, w, folded, true⟩ m.encoding maxKeyLength)
        first := some first } m P s (s + bytes.length) := by
    intro folded w first hlen hne hocc
    have hat : Key.At ⟨.zero, w, folded, true⟩ m P s (s + bytes.length) s :=
      ⟨Nat.le_refl _, by simpa using Interval.contains_zero, hocc, by simp [hlen], hplace hne⟩
    have hclip := hat.clip m.encoding maxKeyLength
    have hfill : (Key.clip ⟨.zero, w, folded, true⟩ m.encoding maxKeyLength).canGrow →
        (Key.clip ⟨.zero, w, folded, true⟩ m.encoding maxKeyLength).Fills m.encoding (s + bytes.length) s :=
      Key.fills_clip (by simp [hlen])
    refine ⟨fun k hk => ?_, fun k hk => ?_, fun k hk => ?_⟩
    · cases hk
      exact ⟨Key.clip_distance .., hclip, fun hr => hfill (by simp [Key.canGrow, hr])⟩
    · cases hk
      exact ⟨s, hclip⟩
    · cases hk
      exact ⟨s, hclip, hfill⟩
  unfold ofLiteral
  split
  · exact .of_none rfl rfl rfl
  · rename_i b bytes
    split
    · rename_i hi
      split
      · exact .of_none rfl rfl rfl
      · rename_i t
        split
        · exact .of_none rfl rfl rfl
        · rename_i hwidth
          obtain rfl := hfold t rfl
          refine hkey true _ _ (by simp [FoldTable.foldAll]) (by simp) ?_
          simpa [hi] using h fun _ => Encoding.width_eq_one_of_any hwidth
    · rename_i hi
      refine hkey false _ _ rfl (by simp) ?_
      simpa [hi] using h fun h => absurd h hi

theorem loop_keyed (options : Options) {l : Loop} (isAny : Bool) {R : Nat → Nat → Prop} {size : Nat}
    (hR : ∀ {u v}, R u v → u ≤ size → u ≤ v ∧ v ≤ size)
    (hf : ∀ {v}, R s v → f.Keyed m P s v) (h : l.Turns R s t) (hs : s ≤ size) : (loop options l isAny f).Keyed m P s t := by
  obtain ⟨k, hl, hu, h⟩ := h
  unfold loop
  dsimp only
  split
  · rename_i hone
    obtain rfl : k = 1 := by
      have := hu 1 hone.2
      omega
    obtain ⟨u, hsu, rfl⟩ := h
    have hb := hf hsu
    exact ⟨hb.leading, hb.best, hb.trailing⟩
  · split
    · obtain ⟨k, rfl⟩ : ∃ j, k = j + 1 := ⟨k - 1, by omega⟩
      obtain ⟨u, hsu, h⟩ := h
      have hb := hf hsu
      have hut := (h.within hR (hR hsu hs).2).1
      refine ⟨fun k hk => ?_, fun k hk => (hb.best k hk).imp fun _ => (·.mono hut), by simp⟩
      obtain ⟨k', hk', rfl⟩ := Option.map_eq_some_iff.1 hk
      have hlead := hb.leading k' hk'
      have hat := hlead.at_.mono hut
      exact ⟨hlead.zero, ⟨hat.le, hat.distance, hat.occurs, hat.within, hat.place⟩, by simp⟩
    · exact .of_none rfl rfl rfl

/-! ## つなぐ所 -/

namespace Running

/-- 並びを左から読むとき、つなぐ所のどれでも、前の文字列が上限より短く切れていない。 -/
def joinsAll (e : Encoding) (r : Running) : List Facts → Bool
  | [] => true
  | f :: fs => Key.joinsEvenly r.open_ f.leading && (Running.add e r f).joinsAll e fs

end Running

end Facts

namespace Node

variable {env : CodeEnv} {m : Matcher} {bodies : List Node}

mutual
/-- 木のどの並びでも、手がかりの文字列をつなぐ所では、前の文字列が上限より短く切れていない。 -/
def joinsEvenly (e : Encoding) (fold : Option FoldTable) (options : Options) : Node → Bool
  | .list ns => joinsEvenlyIn e fold options ns &&
    Facts.Running.joinsAll e {} (Facts.ofNodes e fold options ns)
  | .alt ns => joinsEvenlyIn e fold options ns
  | .scoped inner body => body.joinsEvenly e fold inner
  | .loop _ body => body.joinsEvenly e fold options
  | .group (.capture ..) body => body.joinsEvenly e fold options
  | .group .atomic body => body.joinsEvenly e fold options
  | _ => true

def joinsEvenlyIn (e : Encoding) (fold : Option FoldTable) (options : Options) : List Node → Bool
  | [] => true
  | n :: ns => n.joinsEvenly e fold options && joinsEvenlyIn e fold options ns
end

mutual
/-- どの葉も `p` を満たす。 -/
def everyLeaf (p : Node → Bool) : Node → Bool
  | .list ns => everyLeafIn p ns
  | .alt ns => everyLeafIn p ns
  | .loop _ body => body.everyLeaf p
  | .scoped _ body => body.everyLeaf p
  | .group _ body => body.everyLeaf p
  | n => p n

def everyLeafIn (p : Node → Bool) : List Node → Bool
  | [] => true
  | n :: ns => n.everyLeaf p && everyLeafIn p ns
end

/-- 葉がどれも `p` を満たす節は、`Q` を満たす所から `Q` を満たす所へ進み、空でない文字列は `P` を満たす所に現れる。 -/
structure Guides (env : CodeEnv) (m : Matcher) (p : Node → Bool) (Q P : Nat → Prop) : Prop where
  passes : ∀ {n : Node} {options : Options} {s t : Nat}, n.everyLeaf p → n.Spans env m options s t →
    s ≤ m.text.size → Q s → Q t
  str : ∀ {bytes : List UInt8} {options : Options} {s t : Nat}, p (.str bytes) →
    (Node.str bytes).Spans env m options s t → s ≤ m.text.size → Q s → bytes ≠ [] → P s
  raw : ∀ {bytes : List UInt8} {options : Options} {s t : Nat}, p (.raw bytes) →
    (Node.raw bytes).Spans env m options s t → s ≤ m.text.size → Q s → bytes ≠ [] → P s

variable {p : Node → Bool} {Q P : Nat → Prop}

mutual
theorem everyLeaf_true : (n : Node) → n.everyLeaf fun _ => true
  | .list ns => everyLeafIn_true ns
  | .alt ns => everyLeafIn_true ns
  | .loop _ body => everyLeaf_true body
  | .scoped _ body => everyLeaf_true body
  | .group _ body => everyLeaf_true body
  | .empty | .str _ | .raw _ | .cclass _ | .word _ | .any | .anchor _ | .backref _ => rfl

theorem everyLeafIn_true : (ns : List Node) → everyLeafIn (fun _ => true) ns
  | [] => rfl
  | n :: ns => Bool.and_eq_true_iff.2 ⟨everyLeaf_true n, everyLeafIn_true ns⟩
end

theorem Guides.trivial : Guides env m (fun _ => true) (fun _ => True) fun _ => True :=
  ⟨fun _ _ _ _ => True.intro, fun _ _ _ _ _ => True.intro, fun _ _ _ _ _ => True.intro⟩

mutual
/-- 節が挙げる文字列は、節が合うどの範囲にも、`P` を満たす所に現れる。 -/
theorem spans_keyed (hx : Readable env m bodies) (hg : Guides env m p Q P) : (n : Node) → {options : Options} →
    {s t : Nat} → n.joinsEvenly m.encoding env.fold options → (∀ b ∈ n.behinds, b ∈ bodies) → n.everyLeaf p →
    n.Spans env m options s t → s ≤ m.text.size → Q s →
    (Facts.ofNode m.encoding env.fold options n).Keyed m P s t
  | .empty, _, _, _, _, _, _, _, _, _ => .empty
  | .list ns, _, _, _, hj, hn, hp, h, hs, hq => by
    obtain ⟨hjn, hjoins⟩ := Bool.and_eq_true_iff.1 hj
    exact Facts.Running.done_keyed (spansList_keyed hx hg ns hjn hjoins hn hp h ⟨.empty, fun _ => rfl⟩
      ⟨⟨by simp, by simp, rfl⟩, by simp⟩ (Nat.le_refl _) hs hq)
  | .alt [], _, _, _, _, _, _, _, _, _ => .empty
  | .alt (n :: ns), _, _, _, hj, hn, hp, h, hs, hq => by
    obtain ⟨f, hf, hb⟩ := spansAlt_keyed hx hg (n :: ns) (by simp) hj hn hp h hs hq
    exact .alt hf hb
  | .str bytes, options, _, _, _, _, hp, h, hs, hq => by
    have hplace := hg.str hp h hs hq
    obtain ⟨rfl, hocc⟩ := spans_str hx.code hx.fold h hs
    exact Facts.ofLiteral_keyed _ (fun t ht => by rw [hx.fold, ht]; rfl) hplace hocc
  | .raw bytes, options, s, t, _, _, hp, h, hs, hq => by
    have hspans : (Node.raw bytes).Spans env m options s t := h
    have hplace := hg.raw hp hspans hs hq
    obtain ⟨rfl, hocc⟩ := spans_raw hx.code h hs
    exact Facts.ofLiteral_keyed false (fun t ht => by rw [hx.fold, ht]; rfl) hplace fun _ => hocc
  | .cclass _, _, _, _, _, _, _, _, _, _ => .of_none rfl rfl rfl
  | .word _, _, _, _, _, _, _, _, _, _ => .of_none rfl rfl rfl
  | .any, _, _, _, _, _, _, _, _, _ => .of_none rfl rfl rfl
  | .anchor a, options, _, _, _, _, _, _, _, _ => by
    cases a <;> simp only [Facts.ofNode, Facts.ofAnchor] <;> (try split) <;> exact .of_none rfl rfl rfl
  | .backref _, _, _, _, _, _, _, _, _, _ => .of_none rfl rfl rfl
  | .scoped _ body, _, _, _, hj, hn, hp, h, hs, hq => spans_keyed hx hg body hj hn hp h hs hq
  | .loop l body, options, _, _, hj, hn, hp, h, hs, hq => by
    obtain ⟨isAny, hloop⟩ := facts_loop m.encoding env.fold options l body
    rw [hloop]
    have hbody : ∀ b ∈ body.behinds, b ∈ bodies := hn
    exact Facts.loop_keyed options isAny (fun huv hle => hx.le hbody huv hle)
      (fun hv => spans_keyed hx hg body hj hbody hp hv hs hq) h hs
  | .group kind body, _, s, t, hj, hn, hp, h, hs, hq => by
    cases kind with
    | capture n undo => exact spans_keyed hx hg body hj hn hp h hs hq
    | atomic => exact spans_keyed hx hg body hj hn hp h hs hq
    | _ => exact .empty

theorem spansList_keyed (hx : Readable env m bodies) (hg : Guides env m p Q P) : (ns : List Node) →
    {options : Options} → {r : Facts.Running} → {s u t : Nat} → joinsEvenlyIn m.encoding env.fold options ns →
    r.joinsAll m.encoding (Facts.ofNodes m.encoding env.fold options ns) →
    (∀ b ∈ behindsIn ns, b ∈ bodies) → everyLeafIn p ns → SpansList env m options ns u t → r.Bounds m s u →
    r.Keyed m P s u → s ≤ u → u ≤ m.text.size → Q u →
    ((Facts.ofNodes m.encoding env.fold options ns).foldl (Facts.Running.add m.encoding) r).Keyed m P s t
  | [], _, _, _, _, _, _, _, _, _, h, _, hr, _, _, _ => by
    cases h
    exact hr
  | n :: ns, _, _, _, _, _, hj, hjoins, hb, hp, ⟨_, hn, h⟩, hbounds, hr, hsu, hu, hq => by
    obtain ⟨hjn, hjns⟩ := Bool.and_eq_true_iff.1 hj
    obtain ⟨hjoin, hjoins⟩ := Bool.and_eq_true_iff.1 hjoins
    obtain ⟨hbn, hbns⟩ := List.forall_mem_append.1 hb
    obtain ⟨hpn, hpns⟩ := Bool.and_eq_true_iff.1 hp
    obtain ⟨hle, hin⟩ := hx.le hbn hn hu
    have hstep := spans_bounds hx n hbn hn hu
    exact spansList_keyed hx hg ns hjns hjoins hbns hpns h (hbounds.add hstep hsu hle)
      (hr.add hbounds.facts.length hsu hjoin hstep (spans_keyed hx hg n hjn hbn hpn hn hu hq) hle)
      (Nat.le_trans hsu hle) hin (hg.passes hpn hn hu hq)

theorem spansAlt_keyed (hx : Readable env m bodies) (hg : Guides env m p Q P) : (ns : List Node) → ns ≠ [] →
    {options : Options} → {s t : Nat} → joinsEvenlyIn m.encoding env.fold options ns →
    (∀ b ∈ behindsIn ns, b ∈ bodies) → everyLeafIn p ns → SpansAlt env m options ns s t → s ≤ m.text.size → Q s →
    ∃ f ∈ Facts.ofNodes m.encoding env.fold options ns, f.Keyed m P s t
  | [], hne, _, _, _, _, _, _, _, _, _ => absurd rfl hne
  | [n], _, _, _, _, hj, hb, hp, h, hs, hq =>
    ⟨_, List.mem_cons_self, spans_keyed hx hg n (Bool.and_eq_true_iff.1 hj).1 (List.forall_mem_append.1 hb).1
      (Bool.and_eq_true_iff.1 hp).1 h hs hq⟩
  | n :: n' :: ns, _, _, _, _, hj, hb, hp, h, hs, hq => by
    obtain ⟨hjn, hjns⟩ := Bool.and_eq_true_iff.1 hj
    obtain ⟨hbn, hbns⟩ := List.forall_mem_append.1 hb
    obtain ⟨hpn, hpns⟩ := Bool.and_eq_true_iff.1 hp
    rcases h with h | h
    · exact ⟨_, List.mem_cons_self, spans_keyed hx hg n hjn hbn hpn h hs hq⟩
    · obtain ⟨f, hf, hb⟩ := spansAlt_keyed hx hg (n' :: ns) (by simp) hjns hbns hpns h hs hq
      exact ⟨f, List.mem_cons_of_mem _ hf, hb⟩
end

end Node

end MultibyteRegex

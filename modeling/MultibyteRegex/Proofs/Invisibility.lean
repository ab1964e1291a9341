import MultibyteRegex.Proofs.Anchoring
import MultibyteRegex.Proofs.Placing
import MultibyteRegex.Proofs.Receding

/-!
# 探すものを使っても答えが変わらない検索

多バイトの本文では、探すものを使う検索は見つけるたびに切れ目へ揃え直し、使わない検索は端から一文字ずつ進む。どちらも
切れ目だけを試し、落とすのは合わない切れ目だけなら、答えは等しい。
-/

namespace MultibyteRegex

/-! ## 候補 -/

namespace Quarry

variable {q : Quarry} {start range : Nat} {w : Nat × Nat} {P : Nat → Prop}

/-- 後ろへの検索で並べる位置。探すものがあって範囲が一点なら、その一点だけを試す。 -/
def downward (q : Quarry) (w : Nat × Nat) : List Nat :=
  if !q.plan.finder.isNothing && w.1 != w.2 then q.backward w.1 (q.encoding.leftAdjust q.text 0 w.2)
  else if q.plan.finder.isNothing then (q.encoding.headsDown q.text w.1 (q.encoding.leftAdjust q.text 0 w.2)).1
  else (q.encoding.headsUp q.text w.2 w.1).1

theorem candidates_backward (hlt : range < start) (hwindow : q.plan.window? q.text start range start = some w) :
    q.candidates start range = q.downward w := by
  unfold candidates downward
  simp only [Nat.min_eq_right (Nat.le_of_lt hlt), Nat.max_eq_left (Nat.le_of_lt hlt), hwindow, if_pos hlt]

theorem candidates_none (h : q.plan.window? q.text start (min start range) (max start range) = none) :
    q.candidates start range = [] := by
  unfold candidates
  simp only [h]

variable (hw : q.encoding.isWellFormed q.text.toList) (hsize : w.2 ≤ q.text.size)
  (hmember : ∀ set, q.plan.finder = .member set → q.plan.distance = .zero)
include hw hsize hmember

theorem upward_thins (hmeets : w.1 = w.2 ∨ q.encoding.Meets q.text w.1)
    (hP : q.plan.finder ≠ .nothing → w.1 ≠ w.2 → ∀ x, w.1 ≤ x →
      (∀ y, q.encoding.Head q.text y → w.1 ≤ y → y ≤ x → q.encoding.Head q.text x) → P x →
      q.encoding.Head q.text x ∧ q.Near x) :
    Thins P (q.upward w) (q.plain.upward w) := by
  change Thins P (q.upward w) (q.encoding.headsUp q.text w.2 w.1).1
  unfold upward
  split
  · rename_i hkeyed
    simp only [Bool.and_eq_true, Bool.not_eq_true', bne_iff_ne] at hkeyed
    obtain ⟨hsome, hne⟩ := hkeyed
    have hmeets := hmeets.resolve_left hne
    have hfollows : q.Follows w.1 :=
      (Finder.isKey_or_member hsome).imp_right fun ⟨set, hset⟩ => ⟨⟨set, hset⟩, hmember set hset, hmeets⟩
    obtain ⟨hsorted, hheads, hmem⟩ := forward_heads hw hsize hfollows
    refine .of_pairwise hsorted Encoding.headsUp_sorted (fun x hx => ?_) fun x hx hp => ?_
    · obtain ⟨⟨hlo, hhi⟩, hhead⟩ := hheads x hx
      exact hmeets.mem_headsUp hhead hlo hhi
    · have hlo := Encoding.ge_of_mem_headsUp hx
      obtain ⟨hhead, hnear⟩ := hP (fun hf => by simp [hf, Finder.isNothing] at hsome) hne x hlo
        (fun y hy hwy hyx => hmeets.head_of_mem hsize hx hy hwy hyx) hp
      exact hmem x hhead hlo (Encoding.le_of_mem_headsUp hx) hnear
  · exact .refl ..

theorem downward_thins (hone : w.1 = w.2 → q.encoding.Head q.text w.1)
    (hP : q.plan.finder ≠ .nothing → ∀ x, q.encoding.Head q.text x → P x → q.Marks x) :
    Thins P (q.downward w) (q.plain.downward w) := by
  change Thins P (q.downward w) (q.encoding.headsDown q.text w.1 (q.encoding.leftAdjust q.text 0 w.2)).1
  unfold downward
  split
  · rename_i hkeyed
    simp only [Bool.and_eq_true, Bool.not_eq_true'] at hkeyed
    have hlast := Encoding.head_leftAdjust hw hsize
    obtain ⟨hsorted, hheads, hmem⟩ := backward_heads hw hmember hlast w.1
    obtain ⟨hall, hiff, -, -⟩ := Encoding.headsDown_heads hw hlast w.1
    refine .of_pairwise hsorted hall (fun x hx => ?_) fun x hx hp => ?_
    · obtain ⟨⟨hlo, hhi⟩, hhead⟩ := hheads x hx
      exact (hiff x).2 ⟨hhead, hlo, hhi⟩
    · obtain ⟨hhead, hlo, hhi⟩ := (hiff x).1 hx
      exact hmem x hhead hlo hhi (hP (fun hf => by simp [hf, Finder.isNothing] at hkeyed) x hhead hp)
  · rename_i hkeyed
    split
    · exact .refl ..
    · rename_i hsome
      -- 範囲は一点で、それが切れ目なので、どちらの向きにも一点だけを試す
      have heq : w.1 = w.2 := by simpa [hsome] using hkeyed
      rw [← heq, (hone heq).leftAdjust hw, Encoding.headsUp_self, Encoding.headsDown_self]
      exact .refl ..

end Quarry

/-! ## 探す文字列の現れる切れ目 -/

namespace Plan

variable {e : Encoding} {hints : Hints} {key : List UInt8}

theorem exists_key (h : (ofHints e hints).finder = .leaping key) :
    ∃ k, hints.key = some k ∧ (ofHints e hints).finder = finderOf e k ∧ (ofHints e hints).distance = k.distance := by
  unfold ofHints at h ⊢
  dsimp only at h ⊢
  split at h
  · rename_i k hk
    exact ⟨k, hk, rfl, rfl⟩
  · cases h
  · cases h

end Plan

namespace Source

/-- 木の葉に、途中で切れた文字を含む文字列も、後方参照もない。 -/
def keepsHeads (s : Source) : Bool := s.tree?.all (·.everyLeaf (Node.wholeLeaf s.encoding))

end Source

/-- 切れ目から合う照合では、文字列の手がかりも切れ目に現れる。 -/
theorem Source.Hinted.key_heads {s : Source} {hints : Hints} {m : Matcher} {root : Node} {x y : Nat} {k : Key}
    (h : s.Hinted hints m root x y) (hk : hints.key = some k) (hjoin : s.joinsEvenly)
    (hw : s.encoding.isWellFormed m.text.toList) (hsize : m.text.size ≤ maxSize) (hx : m.encoding.Head m.text x)
    (hguided : (s.keepsHeads ∧ (s.fold.getD .ascii).KeepsWidth s.encoding) ∨
      (s.encoding = .utf8 ∧ s.isWellFormed ∧ (s.fold.getD .ascii).KeepsTrail)) :
    ∃ p, k.At m (m.encoding.Head m.text) x y p := by
  have hcode := h.code
  have hjoin : root.joinsEvenly m.encoding s.fold s.options := by
    simpa [Source.joinsEvenly, h.tree, hcode] using hjoin
  have hfold : m.program.fold = s.env.fold.getD .ascii := h.fold
  rw [h.hints] at hk
  rw [hcode] at hw hguided
  rw [← h.fold] at hguided
  rcases hguided with ⟨hkeeps, hwidth⟩ | ⟨he, hliterals, htrail⟩
  · have hroot : root.everyLeaf (Node.wholeLeaf m.encoding) := by
      simpa [Source.keepsHeads, h.tree, hcode] using hkeeps
    exact Hints.ofTree_key h.readable hjoin (Node.guides_heads ⟨hcode.symm, hfold, hwidth, hw, hsize⟩) hroot h.spans
      hx.le hx hk
  · have hroot : root.everyLeaf (Node.literalLeaf m.encoding.isWellFormed) :=
      root.everyLeaf_of_allLiterals (by simpa [Source.isWellFormed, h.tree, hcode] using hliterals)
    exact Hints.ofTree_key h.readable hjoin (Node.guides_utf8 hcode.symm hfold he htrail hw) hroot h.spans hx.le
      True.intro hk

namespace Regex

variable {s : Source} {re : Regex} {options : Options} {text : Text} {start range fuel fuel' x : Nat}

/-- 切れ目から合う照合では、飛ばしながら探す文字列が切れ目に現れる。 -/
def LeapsToHeads (re : Regex) (s : Source) (text : Text) : Prop :=
  ∀ key, re.plan.finder = .leaping key →
    (∀ p, text.hasAt key p → s.encoding.Head text p) ∨
    (s.keepsHeads ∧ (s.fold.getD .ascii).KeepsWidth s.encoding) ∨
    (s.encoding = .utf8 ∧ s.isWellFormed ∧ (s.fold.getD .ascii).KeepsTrail)

/-- 多バイトの本文でも、探すものを使う検索と使わない検索が、合う切れ目を同じ順に試す。 -/
structure Settles (re : Regex) (s : Source) (text : Text) (start range : Nat) : Prop where
  behind : s.looksBehind = false
  joins : s.joinsEvenly
  wellFormed : s.encoding.isWellFormed text.toList
  short : ∀ x < text.size, s.encoding.isOverlong text x = false
  forward : start ≤ range → ∀ w ∈ re.plan.window? text start start range,
    w.1 = w.2 ∨ s.encoding.Head text w.1 ∨
      (s.encoding = .utf8 ∧ s.isWellFormed ∧ (s.fold.getD .ascii).KeepsTrail ∧ s.encoding.Head text start)
  backward : range < start → re.LeapsToHeads s text ∧
    ∀ w ∈ re.plan.window? text start range start, w.1 = w.2 → s.encoding.Head text w.1

/-- 切れ目から合う照合では、言われた距離の所に探すものが現れ、飛ばしながら探す文字列は切れ目に現れる。 -/
theorem marks_of_succeeds (h : Regex.compile s = .ok re) (hsize : text.size ≤ maxSize)
    (hs : re.Settles s text start range) (hleap : re.LeapsToHeads s text) (hne : re.plan.finder ≠ .nothing)
    (hx : s.encoding.Head text x) (hsucceeds : (re.matcher .unlimited options text start).Succeeds fuel x) :
    ((re.matcher .unlimited options text start).quarry re.plan).Marks x := by
  obtain ⟨t, -, -, hsound⟩ := exists_sound h hs.behind (.inr hs.joins) hs.short hsucceeds
  obtain ⟨p, hmin, hfar, hp⟩ := hsound.near hne
  have hcode : (re.matcher .unlimited options text start).encoding = s.encoding := program_encoding h
  by_cases hleaping : ∃ key, re.plan.finder = .leaping key
  · obtain ⟨key, hkey⟩ := hleaping
    rcases hleap key hkey with hheads | hguided
    · refine ⟨p, hmin, hfar, hp, fun _ _ => ?_⟩
      rw [hkey] at hp
      change (re.matcher .unlimited options text start).encoding.Head text p
      rw [hcode]
      exact hheads p hp
    · obtain ⟨length, caps, hm⟩ := hsucceeds
      obtain ⟨groups, root, htree, hcompile, -⟩ := exists_tree h
      have hhints : s.hints? = some (.ofTree s.encoding s.fold s.options root) := by simp [Source.hints?, htree]
      obtain ⟨root', ht⟩ := hinted_of_matchAt h hs.behind hhints hm
      cases htree.symm.trans ht.tree
      have hplan := plan_eq h htree
      rw [hplan] at hkey
      obtain ⟨k, hk, hfinder, hdistance⟩ := Plan.exists_key hkey
      rw [← hplan] at hfinder hdistance
      obtain ⟨p, hat⟩ := ht.key_heads hk hs.joins hs.wellFormed hsize (hcode ▸ hx) hguided
      have hle := hat.le
      obtain ⟨hnear, hfar⟩ := hat.distance
      have hhit : re.plan.finder.hits re.program.fold text p := by
        rw [hfinder]
        exact (Plan.hits_finderOf ..).trans hat.occurs
      rw [← hdistance] at hnear hfar
      refine ⟨p, show x + re.plan.distance.min ≤ p by omega, fun far hmax => ?_, hhit, fun _ _ => hat.place⟩
      have := hfar far hmax
      omega
  · exact ⟨p, hmin, hfar, hp, fun key hkey => absurd ⟨key, hkey⟩ hleaping⟩

section

variable (h : Regex.compile s = .ok re) (hs : re.Settles s text start range)
include h hs

theorem quarry_wellFormed (options : Options) :
    ((re.matcher .unlimited options text start).quarry re.plan).encoding.isWellFormed
      ((re.matcher .unlimited options text start).quarry re.plan).text.toList := by
  rw [show ((re.matcher .unlimited options text start).quarry re.plan).encoding = s.encoding from program_encoding h]
  exact hs.wellFormed

theorem candidates_thins_backward (hsize : text.size ≤ maxSize) (hlt : range < start) (hstart : start ≤ text.size)
    {w : Nat × Nat} (hwindow : re.plan.window? text start range start = some w) :
    Thins ((re.matcher .unlimited options text start).Succeeds fuel)
      (((re.matcher .unlimited options text start).quarry re.plan).downward w)
      (((re.matcher .unlimited options text start).quarry re.plan).plain.downward w) := by
  have hcode : ((re.matcher .unlimited options text start).quarry re.plan).encoding = s.encoding :=
    program_encoding h
  obtain ⟨hleap, hone⟩ := hs.backward hlt
  obtain ⟨-, hhigh, -⟩ := Plan.window?_within hwindow (Nat.le_of_lt hlt) (Nat.le_refl _)
  refine Quarry.downward_thins (quarry_wellFormed h hs options) (Nat.le_trans hhigh hstart) (fun _ => distance_of_member h)
    (fun hw => ?_) fun hne x hx hsucceeds => ?_
  · rw [hcode]
    exact hone w hwindow hw
  · rw [hcode] at hx
    exact marks_of_succeeds h hsize hs hleap hne hx hsucceeds

theorem candidates_thins_forward (hle : start ≤ range) (hrange : range ≤ text.size) {w : Nat × Nat}
    (hwindow : re.plan.window? text start start range = some w) :
    Thins ((re.matcher .unlimited options text start).Succeeds fuel)
      (((re.matcher .unlimited options text start).quarry re.plan).upward w)
      (((re.matcher .unlimited options text start).quarry re.plan).plain.upward w) := by
  have hcode : ((re.matcher .unlimited options text start).quarry re.plan).encoding = s.encoding :=
    program_encoding h
  have hw := quarry_wellFormed h hs options
  obtain ⟨-, hhigh, -⟩ := Plan.window?_within hwindow (Nat.le_refl _) hle
  refine Quarry.upward_thins hw (Nat.le_trans hhigh hrange) (fun _ => distance_of_member h) ?_
    fun hne hwne x hwx hcatch hx => ⟨?_, ?_⟩
  · refine (hs.forward hle w hwindow).imp_right fun hsync => ?_
    rw [hcode] at hw ⊢
    rcases hsync with hhead | ⟨he, -⟩
    · exact hhead.meets
    · rw [he] at hw ⊢
      exact Encoding.meets_utf8 hw w.1
  · rw [hcode] at hcatch ⊢
    rcases (hs.forward hle w hwindow).resolve_left hwne with hhead | ⟨he, hliterals, hkeeps, hstart⟩
    · exact hcatch w.1 hhead (Nat.le_refl _) hwx
    · exact head_of_succeeds h hs.behind hs.wellFormed he hliterals hkeeps hstart hwindow hwx hcatch hx
  · obtain ⟨t, -, -, hsound⟩ := exists_sound h hs.behind (.inr hs.joins) hs.short hx
    exact hsound.near hne

/-- 試す候補のうち、探すものを使う検索が落とすのは、合わない位置だけである。 -/
theorem candidates_thins (hsize : text.size ≤ maxSize) (hstart : start ≤ text.size) (hrange : range ≤ text.size) :
    Thins ((re.matcher .unlimited options text start).Succeeds fuel)
      (((re.matcher .unlimited options text start).quarry re.plan).candidates start range)
      (((re.matcher .unlimited options text start).quarry re.plan).plain.candidates start range) := by
  generalize hq : (re.matcher .unlimited options text start).quarry re.plan = q
  have hplan : q.plan = re.plan := by rw [← hq]; rfl
  have htext : q.text = text := by rw [← hq]; rfl
  cases hwindow : q.plan.window? q.text start (min start range) (max start range) with
  | none =>
    rw [Quarry.candidates_none hwindow, Quarry.candidates_none (q := q.plain) hwindow]
    exact .refl ..
  | some w =>
    rcases Nat.lt_or_ge range start with hlt | hle
    · rw [Nat.min_eq_right (Nat.le_of_lt hlt), Nat.max_eq_left (Nat.le_of_lt hlt)] at hwindow
      rw [Quarry.candidates_backward hlt hwindow, Quarry.candidates_backward (q := q.plain) hlt hwindow, ← hq]
      rw [hplan, htext] at hwindow
      exact candidates_thins_backward h hs hsize hlt hstart hwindow
    · rw [Nat.min_eq_left hle, Nat.max_eq_right hle] at hwindow
      rw [Quarry.candidates_forward hle hwindow, Quarry.candidates_forward (q := q.plain) hle hwindow]
      change Thins _ _ (if q.plan.edges.anyStar then (q.plain.upward w).filter (q.isLineHead start)
        else q.plain.upward w)
      have hthins : Thins ((re.matcher .unlimited options text start).Succeeds fuel) (q.upward w) (q.plain.upward w) := by
        rw [← hq]
        rw [hplan, htext] at hwindow
        exact candidates_thins_forward h hs hle hrange hwindow
      split
      · exact hthins.filter _
      · exact hthins

end

/-- 一バイトの符号化か、合う切れ目を同じ順に試すなら、探すものを使っても使わなくても、終わる検索の答えは等しい。 -/
theorem search_withoutFinder (h : Regex.compile s = .ok re) (hsize : text.size ≤ maxSize)
    (hs : s.encoding = .ascii ∨ re.Settles s text start range) {r r' : Result (Option Found)}
    (hr : re.search .unlimited fuel options text start range = some r)
    (hr' : re.withoutFinder.search .unlimited fuel' options text start range = some r') : r = r' := by
  have hkeyed : re.search .unlimited fuel' options text start range = some r' := by
    rcases hs with he | hs
    · exact search_of_withoutFinder h he hsize hr'
    · exact search_of_thins h (.inl hs.behind) (fun x hx _ _ => Quarry.le_of_mem_candidates hx)
        (candidates_thins h hs hsize) hr'
  exact search_unique hr hkeyed

theorem search_withoutFinder_kana :
    ∃ s re text f r, s = { pattern := Pattern.ascii "x?" ++ [0xa4, 0xa2, 0xa4, 0xa4], encoding := .eucJp } ∧
      text = #[0x61, 0xa4, 0xa2, 0xa4, 0xa4, 0x78] ∧ Regex.compile s = .ok re ∧
      re.plan.finder = .leaping [0xa4, 0xa2, 0xa4, 0xa4] ∧ text.size ≤ maxSize ∧
      (s.encoding = .ascii ∨ re.Settles s text 6 0) ∧
      re.search .unlimited 40 .none text 6 0 = some (.ok (some f)) ∧ f.start = 1 ∧ f.length = 4 ∧
      re.withoutFinder.search .unlimited 60 .none text 6 0 = some r ∧ .ok (some f) = r := by
  let s : Source := { pattern := Pattern.ascii "x?" ++ [0xa4, 0xa2, 0xa4, 0xa4], encoding := .eucJp }
  let text : Text := #[0x61, 0xa4, 0xa2, 0xa4, 0xa4, 0x78]
  obtain ⟨re, h, hok⟩ := exists_ok (x := Regex.compile s)
    (p := fun re => !s.looksBehind && s.joinsEvenly && s.keepsHeads &&
      (re.plan.finder == .leaping [0xa4, 0xa2, 0xa4, 0xa4]) && (re.plan.window? text 6 0 6 == some (0, 2)) &&
      ((re.search .unlimited 40 .none text 6 0).bind Result.toOption).any
        (·.any fun f => f.start == 1 && f.length == 4) &&
      (re.withoutFinder.search .unlimited 60 .none text 6 0).isSome) (by decide +kernel)
  simp only [Bool.and_eq_true, Bool.not_eq_true', beq_iff_eq] at hok
  obtain ⟨⟨⟨⟨⟨⟨hbehind, hjoin⟩, hkeeps⟩, hfinder⟩, hwindow⟩, hkeyed⟩, hplain⟩ := hok
  obtain ⟨r, hr, hsome⟩ := exists_some_ok hkeyed
  obtain ⟨f, rfl, hf⟩ := (Option.any_eq_true ..).1 hsome
  simp only [Bool.and_eq_true, beq_iff_eq] at hf
  obtain ⟨r', hr'⟩ := Option.isSome_iff_exists.1 hplain
  have hsettles : re.Settles s text 6 0 :=
    ⟨hbehind, hjoin, by decide +kernel, by decide +kernel, fun hle => absurd hle (by decide), fun _ =>
      ⟨fun _ _ => .inr (.inl ⟨hkeeps, FoldTable.keepsWidth_ascii _⟩), fun w hw hone => by
        cases hwindow.symm.trans hw
        cases hone⟩⟩
  exact ⟨s, re, text, f, r', rfl, rfl, h, hfinder, by decide, .inr hsettles, hr, hf.1, hf.2, hr',
    search_withoutFinder h (by decide) (.inr hsettles) hr hr'⟩

end Regex
end MultibyteRegex

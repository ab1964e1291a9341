import MultibyteRegex.Proofs.Keys
import MultibyteRegex.Proofs.Finding

/-!
# 検索の手順の正しさ

手順が言う両端の検査、長さ、探すものの場所は、どの照合でも成り立つ。だから始まりの範囲を狭めても、
照合の始まりは範囲に残る。
-/

namespace MultibyteRegex

namespace Hints

/-- 長さ、両端の検査、始まるバイトの手がかりが、`s` から `t` までの照合で成り立つ。 -/
structure Bounds (h : Hints) (m : Matcher) (s t : Nat) : Prop where
  left : h.edges.Begin m s
  right : h.edges.End m t
  length : h.length.Contains (t - s)
  threshold : h.threshold ≤ t - s
  first : ∀ set ∈ h.first, m.encoding.StartsIn m.text set s

/-- 文字列の手がかりも、`s` から `t` までの照合で成り立つ。 -/
structure Sound (h : Hints) (m : Matcher) (s t : Nat) : Prop extends h.Bounds m s t where
  key : ∀ k ∈ h.key, ∃ p, k.At m (fun _ => True) s t p

/-- 文字列と始まるバイトは、木の手がかりから選ぶ。 -/
theorem ofTree_eq (e : Encoding) (fold : Option FoldTable) (options : Options) (root : Node) :
    ∃ edges key first, ofTree e fold options root =
        { edges, length := (Facts.ofNode e fold options root).length,
          threshold := (Facts.ofNode e fold options root).length.min, key, first } ∧
      (edges.beginBuf = (Facts.ofNode e fold options root).left.beginBuf ∧
        edges.beginPosition = (Facts.ofNode e fold options root).left.beginPosition) ∧
      (edges.endBuf = (Facts.ofNode e fold options root).right.endBuf ∧
        edges.semiEndBuf = (Facts.ofNode e fold options root).right.semiEndBuf) ∧
      (∀ k ∈ key, k ∈ (Facts.ofNode e fold options root).best) ∧
      ∀ set ∈ first, set ∈ (Facts.ofNode e fold options root).first := by
  have hfirst : ∀ set ∈ (Facts.ofNode e fold options root).first.filter (·.count < 256),
      set ∈ (Facts.ofNode e fold options root).first :=
    fun set hset => (Option.filter_eq_some_iff.1 hset).1
  unfold ofTree
  dsimp only
  split
  · rename_i k set hkey hset
    split
    · exact ⟨_, _, _, rfl, ⟨rfl, rfl⟩, ⟨rfl, rfl⟩, nofun, fun set' h => hfirst set' (hset.trans h)⟩
    · exact ⟨_, _, _, rfl, ⟨rfl, rfl⟩, ⟨rfl, rfl⟩, fun k' h => hkey.trans h, nofun⟩
  · exact ⟨_, _, _, rfl, ⟨rfl, rfl⟩, ⟨rfl, rfl⟩, fun _ => id, hfirst⟩

variable {env : CodeEnv} {m : Matcher} {options : Options} {root : Node} {s t : Nat}

/-- 木の手がかりは、木が合うどの範囲でも成り立つ。 -/
theorem ofTree_bounds (hx : Readable env m root.behinds) (h : root.Spans env m options s t)
    (hs : s ≤ m.text.size) : (ofTree m.encoding env.fold options root).Bounds m s t := by
  have hb := Node.spans_bounds hx root (fun _ => id) h hs
  obtain ⟨edges, key, first, heq, hleft, hright, -, hfirst⟩ := ofTree_eq m.encoding env.fold options root
  rw [heq]
  exact ⟨⟨fun h => hb.left.buf (hleft.1 ▸ h), fun h => hb.left.position (hleft.2 ▸ h)⟩,
    ⟨fun h => hb.right.buf (hright.1 ▸ h), fun h => hb.right.semiBuf (hright.2 ▸ h)⟩, hb.length,
    hb.length.1, fun set hset => hb.first set (hfirst set hset)⟩

/-- 上限より短く切れた文字列につなぐ所がなければ、文字列の手がかりは、木の文字列が現れる所に現れる。 -/
theorem ofTree_key (hx : Readable env m root.behinds) (hjoin : root.joinsEvenly m.encoding env.fold options)
    {p : Node → Bool} {Q P : Nat → Prop} (hg : Node.Guides env m p Q P) (hp : root.everyLeaf p)
    (h : root.Spans env m options s t) (hs : s ≤ m.text.size) (hq : Q s) {k : Key}
    (hk : (ofTree m.encoding env.fold options root).key = some k) : ∃ x, k.At m P s t x := by
  refine (Node.spans_keyed hx hg root hjoin (fun _ => id) hp h hs hq).best k ?_
  obtain ⟨edges, key, first, heq, -, -, hkey, -⟩ := ofTree_eq m.encoding env.fold options root
  rw [heq] at hk
  exact hkey k hk

theorem ofTree_sound (hx : Readable env m root.behinds) (hjoin : root.joinsEvenly m.encoding env.fold options)
    (h : root.Spans env m options s t) (hs : s ≤ m.text.size) :
    (ofTree m.encoding env.fold options root).Sound m s t :=
  ⟨ofTree_bounds hx h hs, fun _ hk => ofTree_key hx hjoin .trivial root.everyLeaf_true h hs True.intro hk⟩

end Hints

namespace Plan

/-- 手順が言うことが、`s` から `t` までの照合で成り立つ。 -/
structure Sound (p : Plan) (m : Matcher) (s t : Nat) : Prop where
  left : p.edges.Begin m s
  right : p.edges.End m t
  length : p.length.Contains (t - s)
  threshold : p.threshold ≤ t - s
  near : p.finder ≠ .nothing → ∃ x, s + p.distance.min ≤ x ∧ (∀ far ∈ p.distance.max, x ≤ s + far) ∧
    p.finder.hits m.program.fold m.text x

variable {m : Matcher} {s t : Nat}

theorem hits_finderOf (e : Encoding) (k : Key) (x : Nat) :
    (finderOf e k).hits m.program.fold m.text x = m.occurs k.folded k.bytes x := by
  unfold finderOf Matcher.occurs
  split
  · rfl
  · split <;> rfl

theorem ofHints_edges {e : Encoding} {hints : Hints} : (ofHints e hints).edges = hints.edges := by
  unfold ofHints
  dsimp only
  split <;> rfl

/-- 長い形で書いた文字から始まらないなら、手がかりから決めた手順も成り立つ。 -/
theorem ofHints_sound {h : Hints} (hs : h.Sound m s t) (hshort : m.encoding.isOverlong m.text s = false)
    (e : Encoding) : (ofHints e h).Sound m s t := by
  unfold ofHints
  dsimp only
  split
  · rename_i _ k hkey
    refine ⟨hs.left, hs.right, hs.length, hs.threshold, fun _ => ?_⟩
    obtain ⟨x, hx⟩ := hs.key k hkey
    have hle := hx.le
    refine ⟨x, ?_, fun far hfar => ?_, (hits_finderOf e k x).trans hx.occurs⟩
    · have := hx.distance.1
      dsimp only
      omega
    · have := hx.distance.2 far hfar
      omega
  · rename_i set _ hset
    refine ⟨hs.left, hs.right, hs.length, hs.threshold, fun _ => ?_⟩
    obtain ⟨b, hb, hin⟩ := (hs.first set hset).byte hshort
    refine ⟨s, Nat.le_refl _, fun far _ => Nat.le_add_right .., ?_⟩
    simp [Finder.hits, hb, hin]
  · exact ⟨hs.left, hs.right, hs.length, hs.threshold, fun hne => absurd rfl hne⟩

/-! ## 始まりの範囲 -/

/-- 始まりの検査で狭めた範囲。 -/
def atBegin (p : Plan) (start : Nat) (w : Nat × Nat) : Option (Nat × Nat) :=
  let w := if p.edges.beginPosition ∨ p.edges.anyStarNewline then (start, start) else w
  if p.edges.beginBuf then if 0 < w.1 then none else some (w.1, 0) else some w

/-- 終わりの検査で狭めた範囲。 -/
def atEnd (p : Plan) (text : Text) (w : Nat × Nat) : Option (Nat × Nat) :=
  if p.edges.endBuf ∨ p.edges.semiEndBuf then
    (minus? text.size p.length.min).map fun latest =>
      (match p.length.max with
        | some longest => max w.1 (p.earliestEnd text - longest)
        | none => w.1, min w.2 latest)
  else some w

/-- 長さの下限で狭めた範囲。 -/
def atLeast (p : Plan) (text : Text) (w : Nat × Nat) : Option (Nat × Nat) :=
  (minus? text.size p.threshold).bind fun latest =>
    if w.1 ≤ min w.2 latest then some (w.1, min w.2 latest) else none

variable {p : Plan} {text : Text} {start lo hi : Nat} {w v : Nat × Nat}

theorem window?_eq : p.window? text start lo hi =
    ((p.atBegin start (lo, hi)).bind (p.atEnd text)).bind (p.atLeast text) := by
  simp only [window?, atBegin, Option.bind_eq_bind]
  generalize (if p.edges.beginPosition ∨ p.edges.anyStarNewline then (start, start) else (lo, hi)) = w
  have hrest : ∀ hi, (if p.edges.endBuf ∨ p.edges.semiEndBuf then
        (minus? text.size p.length.min).bind fun latest =>
          (some (match p.length.max with
            | some longest => max w.1 (p.earliestEnd text - longest)
            | none => w.1, min hi latest)).bind (p.atLeast text)
      else (some (w.1, hi)).bind (p.atLeast text)) = (p.atEnd text (w.1, hi)).bind (p.atLeast text) := by
    intro hi
    unfold atEnd
    split
    · cases minus? text.size p.length.min <;> rfl
    · rfl
  split
  · split
    · rfl
    · exact hrest 0
  · exact hrest w.2

theorem atBegin_within (h : p.atBegin start w = some v) (hlo : w.1 ≤ start) (hhi : start ≤ w.2) :
    w.1 ≤ v.1 ∧ v.2 ≤ w.2 ∧ (p.edges.anyStarNewline → v.1 = start ∧ v.2 ≤ start) := by
  unfold atBegin at h
  dsimp only at h
  split at h <;> split at h <;> (try split at h) <;> cases h <;> grind

theorem Sound.atBegin (h : p.Sound m s t) (hlo : w.1 ≤ s) (hhi : s ≤ w.2)
    (hstar : p.edges.anyStarNewline → s = m.searchStart) :
    ∃ v, p.atBegin m.searchStart w = some v ∧ v.1 ≤ s ∧ s ≤ v.2 := by
  have hw : ∃ u, (if p.edges.beginPosition ∨ p.edges.anyStarNewline then (m.searchStart, m.searchStart)
      else w) = u ∧ u.1 ≤ s ∧ s ≤ u.2 := by
    split
    · rename_i hp
      have := hp.elim h.left.position hstar
      exact ⟨_, rfl, Nat.le_of_eq this.symm, Nat.le_of_eq this⟩
    · exact ⟨_, rfl, hlo, hhi⟩
  obtain ⟨u, hu, hlo, hhi⟩ := hw
  unfold Plan.atBegin
  rw [hu]
  dsimp only
  split
  · rename_i hbuf
    have := h.left.buf hbuf
    exact ⟨(u.1, 0), if_neg (by omega), hlo, Nat.le_of_eq this⟩
  · exact ⟨u, rfl, hlo, hhi⟩

theorem atEnd_within (h : p.atEnd text w = some v) : w.1 ≤ v.1 ∧ v.2 ≤ w.2 := by
  unfold atEnd at h
  split at h
  · obtain ⟨latest, -, rfl⟩ := Option.map_eq_some_iff.1 h
    refine ⟨?_, Nat.min_le_left ..⟩
    dsimp only
    split
    · exact Nat.le_max_left ..
    · exact Nat.le_refl _
  · cases h
    exact ⟨Nat.le_refl _, Nat.le_refl _⟩

theorem earliestEnd_le (h : p.edges.End m t) (hne : p.edges.endBuf ∨ p.edges.semiEndBuf) :
    p.earliestEnd m.text ≤ t := by
  unfold earliestEnd
  by_cases hend : t = m.text.size
  · split <;> omega
  · have hsemi : p.edges.semiEndBuf := hne.resolve_left fun hb => hend (h.buf hb)
    obtain ⟨hlast, hnewline⟩ := (h.semiBuf hsemi).resolve_left hend
    have hback : m.text.back? = some 0x0a := by
      rw [Array.back?, ← hlast]
      exact hnewline
    rw [if_pos ⟨hsemi, hback⟩]
    omega

theorem minus?_of_le {a b : Nat} (h : b ≤ a) : minus? a b = some (a - b) := if_pos h

theorem Sound.atEnd (h : p.Sound m s t) (hst : s ≤ t) (ht : t ≤ m.text.size) (hlo : w.1 ≤ s)
    (hhi : s ≤ w.2) : ∃ v, p.atEnd m.text w = some v ∧ v.1 ≤ s ∧ s ≤ v.2 := by
  unfold Plan.atEnd
  split
  · rename_i hend
    have hmin := h.length.1
    rw [minus?_of_le (by omega)]
    refine ⟨_, rfl, ?_, by dsimp only; omega⟩
    dsimp only
    split
    · rename_i longest hmax
      have := h.length.2 longest hmax
      have := earliestEnd_le h.right hend
      omega
    · exact hlo
  · exact ⟨w, rfl, hlo, hhi⟩

theorem atLeast_within (h : p.atLeast text w = some v) : w.1 ≤ v.1 ∧ v.2 ≤ w.2 := by
  obtain ⟨latest, -, h⟩ := Option.bind_eq_some_iff.1 h
  split at h
  · cases h
    exact ⟨Nat.le_refl _, Nat.min_le_left ..⟩
  · cases h

theorem Sound.atLeast (h : p.Sound m s t) (hst : s ≤ t) (ht : t ≤ m.text.size) (hlo : w.1 ≤ s)
    (hhi : s ≤ w.2) : ∃ v, p.atLeast m.text w = some v ∧ v.1 ≤ s ∧ s ≤ v.2 := by
  have hmin := h.threshold
  unfold Plan.atLeast
  rw [minus?_of_le (by omega), Option.bind_some, if_pos (by omega)]
  exact ⟨_, rfl, hlo, by dsimp only; omega⟩

/-- 始まりの範囲は、言われた範囲の中にある。 -/
theorem window?_within (h : p.window? text start lo hi = some v) (hlo : lo ≤ start) (hhi : start ≤ hi) :
    lo ≤ v.1 ∧ v.2 ≤ hi ∧ (p.edges.anyStarNewline → start ≤ v.1 ∧ v.2 ≤ start) := by
  rw [window?_eq] at h
  obtain ⟨u, hu, hv⟩ := Option.bind_eq_some_iff.1 h
  obtain ⟨w, hw, hu⟩ := Option.bind_eq_some_iff.1 hu
  obtain ⟨hlw, hwh, hstar⟩ := atBegin_within hw hlo hhi
  have hwu := atEnd_within hu
  have huv := atLeast_within hv
  refine ⟨by omega, by omega, fun hs => ?_⟩
  have := hstar hs
  omega

/-- 照合の始まりは、始まりの範囲に残る。 -/
theorem Sound.window? (h : p.Sound m s t) (hst : s ≤ t) (ht : t ≤ m.text.size) (hlo : lo ≤ s)
    (hhi : s ≤ hi) (hstar : p.edges.anyStarNewline → s = m.searchStart) :
    ∃ v, p.window? m.text m.searchStart lo hi = some v ∧ v.1 ≤ s ∧ s ≤ v.2 := by
  obtain ⟨w, hw, hlo, hhi⟩ := h.atBegin (w := (lo, hi)) hlo hhi hstar
  obtain ⟨u, hu, hlo, hhi⟩ := h.atEnd hst ht hlo hhi
  obtain ⟨v, hv, hlo, hhi⟩ := h.atLeast hst ht hlo hhi
  refine ⟨v, ?_, hlo, hhi⟩
  rw [window?_eq, hw, Option.bind_some, hu, Option.bind_some, hv]

end Plan
end MultibyteRegex

import MultibyteRegex.Proofs.Planning
import MultibyteRegex.Proofs.Resyncing

/-!
# 文字の途中から始まる照合

UTF-8 の文字の途中からは、文字列は合わず、一文字の節は一バイトしか進まない。手がかりは一文字を六バイトまでと
数えるので、途中から始まって進む照合の長さは、長さの上端に五バイト余る。
-/

namespace MultibyteRegex

/-! ## 区間 -/

namespace Interval

/-- 進んだ長さ `n` は、上端まで `d` 余る。 -/
def Spares (i : Interval) (d n : Nat) : Prop := 0 < n → ∀ u ∈ i.max, n + d ≤ u

namespace Spares

variable {a b : Interval} {d k x y : Nat}

theorem zero : a.Spares d 0 := fun h => absurd h (Nat.lt_irrefl 0)

theorem hull_left (h : a.Spares d x) : (a.hull b).Spares d x := by
  intro hx u hu
  simp only [Interval.hull] at hu
  split at hu
  · rename_i ua ub hua hub
    have := h hx ua hua
    cases hu
    omega
  · cases hu

theorem hull_right (h : b.Spares d x) : (a.hull b).Spares d x := by
  intro hx u hu
  simp only [Interval.hull] at hu
  split at hu
  · rename_i ua ub hua hub
    have := h hx ub hub
    cases hu
    omega
  · cases hu

/-- 初めに進んだ所で余れば、その後の長さによらず余る。 -/
theorem add (hx : a.Contains x) (hy : b.Contains y) (h : a.Spares d x) (h' : x = 0 → b.Spares d y) :
    (a.add b).Spares d (x + y) := by
  intro hpos u hu
  simp only [Interval.add] at hu
  split at hu
  · rename_i ua ub hua hub
    have hxa := hx.2 ua hua
    have hyb := hy.2 ub hub
    have hsum := eq_of_bounded? hu
    rcases Nat.eq_zero_or_pos x with h0 | hpos'
    · have := h' h0 (by omega) ub hub
      omega
    · have := h hpos' ua hua
      omega
  · cases hu

theorem times {lower : Nat} {upper : Option Nat} (ht : a.Totals k x) (hu : ∀ u ∈ upper, k ≤ u)
    (h : 0 < x → ∀ u ∈ a.max, x + d ≤ u * k) : (a.times lower upper).Spares d x := by
  intro hpos u hs
  simp only [Interval.times] at hs
  split at hs
  · rename_i h0
    have := h hpos 0 h0
    omega
  · have := ht.zero (Nat.le_zero.1 (hu 0 rfl))
    omega
  · rename_i v n _ _ hv
    have := h hpos v hv
    have := Nat.mul_le_mul_left v (hu n rfl)
    have := eq_of_bounded? hs
    omega
  · cases hs

end Spares
end Interval

/-! ## 手がかり -/

namespace Facts

variable {e : Encoding} {m : Matcher} {f : Facts} {d n s t u : Nat}

theorem alt_spares {fs : List Facts} (hf : f ∈ fs) (h : f.length.Spares d n) : (alt e fs).length.Spares d n := by
  cases fs with
  | nil => cases hf
  | cons c fs =>
    have hall : (fs.foldl either { c with best := none, trailing := none }).length.Spares d n := by
      refine foldl_either (P := (·.length.Spares d n)) .hull_left .hull_right ?_
      rcases List.mem_cons.1 hf with rfl | hf
      · exact .inl h
      · exact .inr ⟨f, hf, h⟩
    exact hall

namespace Running

variable {r : Running}

theorem done_length (r : Running) : r.done.length = r.facts.length := by
  unfold done
  split <;> rfl

/-- 初めて進む要素で余れば、読んだ範囲で余る。 -/
theorem add_spares (h : r.Bounds m s u) (hspare : r.facts.length.Spares d (u - s)) (hf : f.Bounds m u t)
    (hfirst : u = s → f.length.Spares d (t - u)) (hsu : s ≤ u) (hut : u ≤ t) :
    (Running.add e r f).facts.length.Spares d (t - s) := by
  have hsum : (r.facts.length.add f.length).Spares d (t - s) := by
    have := hspare.add h.facts.length hf.length fun hu => hfirst (by omega)
    rwa [show u - s + (t - u) = t - s by omega] at this
  unfold Running.add
  dsimp only
  split
  · rename_i hskip
    have := hf.length.eq_zero hskip.1
    rwa [show t - s = u - s by omega]
  · exact hsum

end Running

variable {a : Interval} {k size : Nat} {R : Nat → Nat → Prop} {l : Loop}

/-- 初めて進む回で余れば、続けた回の全体で余る。 -/
theorem iterated_spares (hR : ∀ {u v}, R u v → u ≤ size → u ≤ v ∧ v ≤ size)
    (hlen : ∀ {u v}, R u v → u ≤ size → a.Contains (v - u))
    (hfirst : ∀ {v}, R s v → a.Spares d (v - s)) (h : Iterated R k s t) (hs : s ≤ size) :
    0 < t - s → ∀ u ∈ a.max, t - s + d ≤ u * k := by
  induction k with
  | zero =>
    cases h
    omega
  | succ k ih =>
    intro hpos ub hub
    obtain ⟨u, hu, h⟩ := h
    obtain ⟨hsu, hin⟩ := hR hu hs
    have hut := (h.within hR hin).1
    rw [Nat.mul_succ]
    rcases Nat.lt_or_eq_of_le hsu with hlt | rfl
    · have := hfirst hu (by omega) ub hub
      have := (h.totals hR hlen hin).max ub hub
      omega
    · have := ih h hpos ub hub
      omega

theorem loop_spares (options : Options) (isAny : Bool)
    (hR : ∀ {u v}, R u v → u ≤ m.text.size → u ≤ v ∧ v ≤ m.text.size)
    (hf : ∀ {u v}, R u v → u ≤ m.text.size → f.Bounds m u v)
    (hfirst : ∀ {v}, R s v → f.length.Spares d (v - s)) (h : l.Turns R s t) (hs : s ≤ m.text.size) :
    (loop options l isAny f).length.Spares d (t - s) := by
  obtain ⟨k, hl, hu, h⟩ := h
  have hlen : ∀ {u v}, R u v → u ≤ m.text.size → f.length.Contains (v - u) := fun huv hle => (hf huv hle).length
  have htimes : (f.length.times l.lower l.upper).Spares d (t - s) :=
    .times (h.totals hR hlen hs) hu (iterated_spares hR hlen hfirst h hs)
  unfold loop
  dsimp only
  split
  · rename_i hone
    obtain rfl : k = 1 := by
      have := hu 1 hone.2
      omega
    obtain ⟨u, hsu, rfl⟩ := h
    exact hfirst hsu
  · split <;> exact htimes

end Facts

/-! ## 節 -/

/-- 写しても、UTF-8 の先頭でないバイトはそのままの側に残る。 -/
def FoldTable.KeepsTrail (t : FoldTable) : Prop :=
  ∀ b, Encoding.isUtf8Trail (t.fold b) = Encoding.isUtf8Trail b

theorem FoldTable.keepsTrail_ascii : FoldTable.ascii.KeepsTrail := by
  intro b
  unfold FoldTable.ascii
  dsimp only
  split
  · rename_i hupper
    simp only [CharKind.isUpper, Bool.and_eq_true, decide_eq_true_eq] at hupper
    rw [Bool.eq_iff_iff]
    simp only [Encoding.isUtf8Trail, Bool.and_eq_true, decide_eq_true_eq, UInt8.le_iff_toNat_le,
      UInt8.lt_iff_toNat_lt, UInt8.toNat_add, UInt8.reduceToNat]
    omega
  · rfl

/-- UTF-8 の文字の途中にある位置。 -/
structure Matcher.Strays (m : Matcher) (s : Nat) : Prop where
  encoding : m.encoding = .utf8
  keeps : m.program.fold.KeepsTrail
  lt : s < m.text.size
  trail : Encoding.isUtf8Trail (m.text.getD s 0)

/-- 合う所のバイトは、文字の先頭のバイトに等しいか、写すと等しい。 -/
theorem Setting.lead_of_charEnd? {x : Setting} {ignoreCase : Bool} {b : UInt8} {c : List UInt8} {s t : Nat}
    (h : x.charEnd? ignoreCase (b :: c) s = some t) :
    x.text.getD s 0 = b ∨ x.fold.fold (x.text.getD s 0) = x.fold.fold b := by
  simp only [Setting.charEnd?_eq, Option.ite_none_right_eq_some] at h
  obtain ⟨hsame, -⟩ := h
  split at hsame
  · exact .inr (Text.lead_of_hasFoldedAt hsame).2
  · exact .inl (Text.lead_of_hasAt hsame).2

namespace Matcher.Strays

variable {m : Matcher} {s t : Nat} {ignoreCase : Bool} {bytes : List UInt8}

theorem of_not_head (he : m.encoding = .utf8) (hkeeps : m.program.fold.KeepsTrail)
    (hw : m.encoding.isWellFormed m.text.toList) (hs : s ≤ m.text.size) (h : ¬m.encoding.Head m.text s) :
    m.Strays s := by
  have hlt : s < m.text.size := by
    refine Nat.lt_of_le_of_ne hs fun hsize => h ?_
    rw [hsize]
    exact Encoding.head_size hw
  rw [he] at hw h
  exact ⟨he, hkeeps, hlt, Encoding.isUtf8Trail_of_not_head hw hlt h⟩

/-- 文字の途中からは、文字列で進めない。 -/
theorem eq_of_charsEnd? (h : m.Strays s) (hb : m.encoding.isWellFormed bytes)
    (hend : m.setting.charsEnd? ignoreCase (m.encoding.chars bytes) s = some t) : t = s := by
  cases bytes with
  | nil =>
    rw [Encoding.chars] at hend
    exact (Option.some.inj hend).symm
  | cons b rest =>
    rw [Encoding.chars] at hend
    obtain ⟨u, hu, -⟩ := Option.bind_eq_some_iff.1 hend
    have htrail := h.trail
    have hlead : ¬Encoding.isUtf8Trail b := (Encoding.isWellFormed_cons hb).2.2.1 h.encoding
    refine absurd ?_ hlead
    rcases Setting.lead_of_charEnd? hu with hsame | hfold
    · exact hsame ▸ htrail
    · have hfold : m.program.fold.fold (m.text.getD s 0) = m.program.fold.fold b := hfold
      rw [← h.keeps b, ← hfold, h.keeps]
      exact htrail

/-- 文字の途中からは、一文字で一バイトだけ進む。 -/
theorem next (h : m.Strays s) (ht : t = m.encoding.nextHead m.text s) : t = s + 1 := by
  rw [ht, h.encoding]
  exact Encoding.nextHead_of_isUtf8Trail h.lt h.trail

/-- 文字の途中から一文字進むと、長さの上端まで五バイト余る。 -/
theorem ofChar_spares (h : m.Strays s) {set : ByteSet} (ht : t = m.encoding.nextHead m.text s) :
    (Facts.ofChar m.encoding set).length.Spares 5 (t - s) := by
  intro hpos u hu
  rw [h.next ht, Nat.add_sub_cancel_left]
  rw [h.encoding] at hu
  cases hu
  exact Nat.le_refl 6

end Matcher.Strays

namespace Node

variable {env : CodeEnv} {m : Matcher} {bodies : List Node} {s : Nat}

mutual
/-- 文字の途中から節が進む長さは、手がかりの長さの上端まで五バイト余る。 -/
theorem spans_spares (hx : Readable env m bodies) (hs : m.Strays s) : (n : Node) → {options : Options} →
    {t : Nat} → (∀ b ∈ n.behinds, b ∈ bodies) → n.allLiterals m.encoding.isWellFormed →
    n.Spans env m options s t → (Facts.ofNode m.encoding env.fold options n).length.Spares 5 (t - s)
  | .empty, _, _, _, _, h => by
    cases h
    rw [Nat.sub_self]
    exact .zero
  | .list ns, _, _, hn, hl, h => by
    have hempty : Facts.Running.Bounds {} m s s := ⟨.empty, fun _ => rfl⟩
    have hlist := spansList_spares hx hs ns hn hl h hempty (Nat.sub_self s ▸ .zero) (Nat.le_refl s)
      (Nat.le_of_lt hs.lt)
    exact (Facts.Running.done_length _).symm ▸ hlist
  | .alt [], _, _, _, _, h => by
    cases h
    rw [Nat.sub_self]
    exact .zero
  | .alt (n :: ns), _, _, hn, hl, h => by
    obtain ⟨f, hf, hb⟩ := spansAlt_spares hx hs (n :: ns) (by simp) hn hl h
    exact Facts.alt_spares hf hb
  | .str bytes, options, t, _, hl, h => by
    obtain ⟨fold, hfold, h⟩ := h
    rw [← hx.code] at h
    have hchars := Matcher.charsEnd?_of_path _ (CodeEnv.foldFor_eq_ok hx.fold hfold) h
    obtain rfl := hs.eq_of_charsEnd? hl hchars
    rw [Nat.sub_self]
    exact .zero
  | .raw bytes, _, _, _, hl, h => by
    change m.Path (Literal.code env.encoding none bytes) _ _ at h
    rw [← hx.code] at h
    have hchars := Matcher.charsEnd?_of_path false (by simp) h
    obtain rfl := hs.eq_of_charsEnd? hl hchars
    rw [Nat.sub_self]
    exact .zero
  | .cclass c, _, _, _, _, h => by
    change m.Passes (classInstruction env.encoding c) _ _ at h
    rw [← hx.code] at h
    exact hs.ofChar_spares (Matcher.passes_class_next h).2
  | .word _, _, _, _, _, h => hs.ofChar_spares (Matcher.passes_word_next h).2
  | .any, _, _, _, _, h => hs.ofChar_spares (Matcher.passes_any_next h).2
  | .anchor _, _, _, _, _, h => by
    obtain ⟨rfl, -⟩ := Matcher.passes_anchor h
    rw [Nat.sub_self]
    exact .zero
  | .backref _, _, _, _, _, _ => fun _ _ hu => by cases hu
  | .scoped _ body, _, _, hn, hl, h => spans_spares hx hs body hn hl h
  | .loop l body, options, _, hn, hl, h => by
    obtain ⟨isAny, hloop⟩ := facts_loop m.encoding env.fold options l body
    rw [hloop]
    have hbody : ∀ b ∈ body.behinds, b ∈ bodies := hn
    exact Facts.loop_spares options isAny (fun huv hle => hx.le hbody huv hle) (spans_bounds hx body hbody)
      (spans_spares hx hs body hbody hl) h (Nat.le_of_lt hs.lt)
  | .group kind body, _, t, hn, hl, h => by
    cases kind with
    | capture n undo => exact spans_spares hx hs body hn hl h
    | atomic => exact spans_spares hx hs body hn hl h
    | behind =>
      obtain rfl := hx.rests body (hn body List.mem_cons_self) h (Nat.le_of_lt hs.lt)
      rw [Nat.sub_self]
      exact .zero
    | ahead | notAhead | notBehind =>
      cases h
      rw [Nat.sub_self]
      exact .zero

theorem spansList_spares (hx : Readable env m bodies) (hs : m.Strays s) : (ns : List Node) →
    {options : Options} → {r : Facts.Running} → {u t : Nat} → (∀ b ∈ behindsIn ns, b ∈ bodies) →
    allLiteralsIn m.encoding.isWellFormed ns → SpansList env m options ns u t → r.Bounds m s u →
    r.facts.length.Spares 5 (u - s) → s ≤ u → u ≤ m.text.size →
    ((Facts.ofNodes m.encoding env.fold options ns).foldl (Facts.Running.add m.encoding) r).facts.length.Spares 5
      (t - s)
  | [], _, _, _, _, _, _, h, _, hspare, _, _ => by
    cases h
    exact hspare
  | n :: ns, _, _, _, _, hb, hl, ⟨_, hn, h⟩, hr, hspare, hsu, hu => by
    obtain ⟨hbn, hbns⟩ := List.forall_mem_append.1 hb
    obtain ⟨hln, hlns⟩ := Bool.and_eq_true_iff.1 hl
    obtain ⟨hle, hin⟩ := hx.le hbn hn hu
    have hf := spans_bounds hx n hbn hn hu
    refine spansList_spares hx hs ns hbns hlns h (hr.add hf hsu hle)
      (Facts.Running.add_spares hr hspare hf (fun hus => ?_) hsu hle) (Nat.le_trans hsu hle) hin
    rw [hus] at hn ⊢
    exact spans_spares hx hs n hbn hln hn

theorem spansAlt_spares (hx : Readable env m bodies) (hs : m.Strays s) : (ns : List Node) → ns ≠ [] →
    {options : Options} → {t : Nat} → (∀ b ∈ behindsIn ns, b ∈ bodies) →
    allLiteralsIn m.encoding.isWellFormed ns → SpansAlt env m options ns s t →
    ∃ f ∈ Facts.ofNodes m.encoding env.fold options ns, f.length.Spares 5 (t - s)
  | [], hne, _, _, _, _, _ => absurd rfl hne
  | [n], _, _, _, hb, hl, h =>
    ⟨_, List.mem_cons_self,
      spans_spares hx hs n (List.forall_mem_append.1 hb).1 (Bool.and_eq_true_iff.1 hl).1 h⟩
  | n :: n' :: ns, _, _, _, hb, hl, h => by
    obtain ⟨hbn, hbns⟩ := List.forall_mem_append.1 hb
    obtain ⟨hln, hlns⟩ := Bool.and_eq_true_iff.1 hl
    rcases h with h | h
    · exact ⟨_, List.mem_cons_self, spans_spares hx hs n hbn hln h⟩
    · obtain ⟨f, hf, hspare⟩ := spansAlt_spares hx hs (n' :: ns) (by simp) hbns hlns h
      exact ⟨f, List.mem_cons_of_mem _ hf, hspare⟩
end

end Node
/-! ## 終わりの検査で絞った範囲 -/

namespace Plan

variable {p : Plan} {text : Text} {start hi : Nat} {w : Nat × Nat}

theorem atBegin_low (h : p.atBegin start (start, hi) = some w) : w.1 = start := by
  unfold atBegin at h
  dsimp only at h
  split at h <;> split at h <;> (try split at h) <;> cases h <;> rfl

/-- 始まりの範囲の下端は、検索を始めた位置か、照合の終わりの下限から長さの上端を引いた所である。 -/
theorem window?_low (h : p.window? text start start hi = some w) : w.1 = start ∨
    (p.edges.endBuf ∨ p.edges.semiEndBuf) ∧
      ∃ longest ∈ p.length.max, start < w.1 ∧ w.1 = p.earliestEnd text - longest := by
  rw [window?_eq] at h
  obtain ⟨u, hu, hw⟩ := Option.bind_eq_some_iff.1 h
  obtain ⟨v, hv, hu⟩ := Option.bind_eq_some_iff.1 hu
  have hlow := atBegin_low hv
  have hkeep : w.1 = u.1 := by
    obtain ⟨latest, -, hw⟩ := Option.bind_eq_some_iff.1 hw
    split at hw
    · cases hw
      rfl
    · cases hw
  rw [hkeep]
  unfold atEnd at hu
  split at hu
  · rename_i hend
    obtain ⟨latest, -, rfl⟩ := Option.map_eq_some_iff.1 hu
    dsimp only
    split
    · rename_i longest hmax
      rw [hlow]
      rcases Nat.lt_or_ge start (p.earliestEnd text - longest) with hlt | hge
      · rw [Nat.max_eq_right (Nat.le_of_lt hlt)]
        exact .inr ⟨hend, longest, hmax, hlt, rfl⟩
      · exact .inl (Nat.max_eq_left hge)
    · exact .inl hlow
  · cases hu
    exact .inl hlow

variable {m : Matcher} {x y : Nat}

/-- 始まりの範囲の下端が UTF-8 の文字の途中なら、その文字の途中から始めて五バイト余らせると、終わりの検査に届かない。 -/
theorem not_end_of_inside (hwhole : m.encoding.isWellFormed m.text.toList) (he : m.encoding = .utf8)
    (hstart : m.encoding.Head m.text start) (hwindow : p.window? m.text start start hi = some w)
    (hlo : w.1 ≤ x) (hx : x < m.text.size) (hinside : ∀ z, m.encoding.Head m.text z → w.1 ≤ z → ¬z ≤ x)
    (hxy : x ≤ y) (hspare : p.length.Spares 5 (y - x)) : ¬p.edges.End m y := by
  intro hend
  have hlow : ¬m.encoding.Head m.text w.1 := fun h => hinside _ h (Nat.le_refl _) hlo
  obtain ⟨hanchor, longest, hmax, hlt, hw⟩ :=
    (window?_low hwindow).resolve_left fun h => hlow (h ▸ hstart)
  -- 下端の文字の先頭から、高々六バイトで次の切れ目に着く
  obtain ⟨hhead, hle, hlt'⟩ := Encoding.leftAdjust_starts hwhole (Nat.lt_of_le_of_lt hlo hx)
  generalize m.encoding.leftAdjust m.text 0 w.1 = c at hhead hle hlt'
  have hcw : c < w.1 := Nat.lt_of_le_of_ne hle fun h => hlow (h ▸ hhead)
  have hxnext : x < m.encoding.nextHead m.text c :=
    Nat.lt_of_not_le (hinside _ (hhead.next hwhole (by omega)) (Nat.le_of_lt hlt'))
  have hwidth := (hhead.char hwhole (by omega)).1
  have hmaxWidth := m.encoding.width_le_maxWidth (m.text.getD c 0)
  have hsix : m.encoding.maxWidth = 6 := by rw [he]; rfl
  rcases Nat.lt_or_eq_of_le hxy with hpos | rfl
  · have := hspare (by omega) longest hmax
    have := earliestEnd_le hend hanchor
    omega
  -- 進まない照合は本文の終わりか末尾の改行の前にあり、どちらも文字の途中ではない
  · have htrail : Encoding.isUtf8Trail (m.text.getD x 0) :=
      Encoding.isUtf8Trail_of_not_head (he ▸ hwhole) hx fun h => hinside x (he ▸ h) hlo (Nat.le_refl x)
    rcases hanchor with hbuf | hsemi
    · exact absurd (hend.buf hbuf) (Nat.ne_of_lt hx)
    · obtain ⟨-, hnewline⟩ := (hend.semiBuf hsemi).resolve_left (Nat.ne_of_lt hx)
      rw [Array.getD_eq_getD_getElem?, hnewline] at htrail
      exact absurd htrail (by decide)

end Plan
end MultibyteRegex

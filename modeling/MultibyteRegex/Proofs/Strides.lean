import MultibyteRegex.Proofs.Alignment

/-!
# 節の進む文字数

文字数の決まった節は、切れ目からちょうどその数だけ進む。後読みの本体が途中で切れた文字列を持たなければ、節は
どの位置からも前へ進む。
-/

namespace MultibyteRegex

/-- 文字数の決まった選択では、どの枝もその数である。 -/
theorem CharCount.eq_of_either {top : Bool} {k : Nat} {cs : List CharCount}
    (h : either top cs = .fixed k) : ∀ c ∈ cs, c = .fixed k := by
  cases cs with
  | nil => simp
  | cons d cs =>
    simp only [either] at h
    split at h
    · cases h
    · split at h
      · rename_i hall
        subst h
        simpa using hall
      · split at h <;> cases h

theorem CharCount.eq_of_add {a b : CharCount} {k : Nat} (h : a.add b = .fixed k) :
    ∃ i j, a = .fixed i ∧ b = .fixed j ∧ k = satAdd i j := by
  cases a with
  | fixed i =>
    cases b with
    | fixed j => exact ⟨i, j, rfl, rfl, (CharCount.fixed.inj h).symm⟩
    | _ => cases h
  | _ => cases h

/-- `s` から本文の中を前へ進んで `t` に着く。`least` が正なら必ず進む。 -/
structure Forward (size least s t : Nat) : Prop where
  le : s ≤ t
  within : t ≤ size
  lt : 0 < least → s < t

namespace Forward

variable {size n k s t u : Nat}

theorem refl (hs : s ≤ size) : Forward size 0 s s := ⟨Nat.le_refl _, hs, fun h => absurd h (Nat.lt_irrefl 0)⟩

theorem mono (h : Forward size n s t) (hk : 0 < k → 0 < n) : Forward size k s t :=
  ⟨h.le, h.within, fun hlt => h.lt (hk hlt)⟩

theorem trans (h : Forward size n s u) (h' : Forward size k u t) : Forward size (n + k) s t := by
  refine ⟨Nat.le_trans h.le h'.le, h'.within, fun hlt => ?_⟩
  by_cases hn : 0 < n
  · exact Nat.lt_of_lt_of_le (h.lt hn) h'.le
  · exact Nat.lt_of_le_of_lt h.le (h'.lt (by omega))

theorem iterated {R : Nat → Nat → Prop} (hR : ∀ {u v}, R u v → u ≤ size → Forward size n u v)
    (h : Iterated R k s t) (hs : s ≤ size) : Forward size (n * k) s t := by
  induction k generalizing s with
  | zero =>
    cases h
    exact .refl hs
  | succ k ih =>
    obtain ⟨u, hu, h⟩ := h
    have hhead := hR hu hs
    refine (hhead.trans (ih h hhead.within)).mono ?_
    rw [Nat.mul_succ]
    omega

end Forward

theorem Iterated.within {R : Nat → Nat → Prop} {size k s t : Nat}
    (hR : ∀ {u v}, R u v → u ≤ size → u ≤ v ∧ v ≤ size) (h : Iterated R k s t) (hs : s ≤ size) :
    s ≤ t ∧ t ≤ size := by
  have hforward : Forward size (0 * k) s t :=
    .iterated (fun h hs => ⟨(hR h hs).1, (hR h hs).2, fun h => absurd h (Nat.lt_irrefl 0)⟩) h hs
  exact ⟨hforward.le, hforward.within⟩

namespace Matcher

variable {m : Matcher} {caps : Captures} {s t : Nat}

/-- 捕獲を見ない命令の列の道は、一つに決まる。 -/
theorem pathEnd?_of_path {is : List Instruction}
    (hi : ∀ i ∈ is, ∀ (c c' : Captures) (s : Nat), m.leafEnd? i c s = m.leafEnd? i c' s)
    (h : m.Path is s t) : m.pathEnd? caps is s = some t := by
  induction is generalizing s with
  | nil =>
    cases h
    rfl
  | cons i is ih =>
    obtain ⟨hi, his⟩ := List.forall_mem_cons.1 hi
    obtain ⟨u, ⟨c, -, hu⟩, h⟩ := h
    simp [pathEnd?, hi caps c, hu, ih his h]

/-- 文字列の命令の道は、文字を順に比べる。 -/
theorem charsEnd?_of_path {e : Encoding} {bytes : List UInt8} {fold : Option FoldTable} (ignoreCase : Bool)
    (hf : fold = if ignoreCase then some m.program.fold else none)
    (h : m.Path (Literal.code e fold bytes) s t) :
    m.setting.charsEnd? ignoreCase (e.chars bytes) s = some t := by
  have hpath : m.pathEnd? #[] (Literal.code e fold bytes) s = some t :=
    pathEnd?_of_path (fun i hi c c' s => ?_) h
  · rwa [Literal.code, pathEnd?_runs ignoreCase hf] at hpath
  · obtain ⟨r, -, rfl⟩ := List.mem_map.1 hi
    rw [leafEnd?_literal ignoreCase hf, leafEnd?_literal ignoreCase hf]

theorem passes_class_next {c : CharClass} (h : m.Passes (classInstruction m.encoding c) s t) :
    s < m.text.size ∧ t = m.encoding.nextHead m.text s := by
  obtain ⟨caps, -, h⟩ := h
  rw [leafEnd?_class] at h
  obtain ⟨n, hn, rfl⟩ := Option.map_eq_some_iff.1 h
  exact classEnd_eq hn

theorem passes_word_next {isWord : Bool} (h : m.Passes (.word isWord) s t) :
    s < m.text.size ∧ t = m.encoding.nextHead m.text s := by
  obtain ⟨caps, -, h⟩ := h
  rw [leafEnd?_word] at h
  simp only [Option.ite_none_right_eq_some, Option.some.injEq] at h
  obtain ⟨⟨hlt, -⟩, rfl⟩ := h
  exact ⟨hlt, (Encoding.nextHead_eq _ hlt).symm⟩

theorem passes_any_next {newline : Bool} (h : m.Passes (.any newline) s t) :
    s < m.text.size ∧ t = m.encoding.nextHead m.text s := by
  obtain ⟨caps, -, h⟩ := h
  rw [leafEnd?_any, Setting.anyEnd?] at h
  split at h
  · cases h
  · rename_i b hb
    simp only [Option.ite_none_left_eq_some, Option.some.injEq] at h
    obtain ⟨-, rfl⟩ := h
    have hlt : s < m.text.size := (Array.getElem?_eq_some_iff.1 hb).1
    exact ⟨hlt, (Encoding.nextHead_eq _ hlt).symm⟩

theorem passes_anchor {options : Options} {a : Anchor}
    (hp : m.Passes (anchorInstruction options a) s t) : t = s ∧ m.setting.holds options s a := by
  obtain ⟨caps, -, hp⟩ := hp
  rw [leafEnd?_anchor] at hp
  simp only [Option.ite_none_right_eq_some, Option.some.injEq] at hp
  exact ⟨hp.2.symm, hp.1⟩

theorem passes_backref {n : Nat} {ignoreCase : Bool} (hp : m.Passes (.backref n ignoreCase) s t) :
    s ≤ t ∧ t ≤ m.text.size := by
  obtain ⟨caps, -, hp⟩ := hp
  rw [leafEnd?_backref] at hp
  obtain ⟨n, hn, rfl⟩ := Option.map_eq_some_iff.1 hp
  exact ⟨Nat.le_add_right .., Captures.backrefLength_le hn⟩

end Matcher

namespace Node

variable {env : CodeEnv} {m : Matcher}

section

variable (hx : Aligned env m)
include hx

theorem stride_str {options : Options} {bytes : List UInt8} {s t : Nat} (hb : m.encoding.isWhole bytes)
    (h : (Node.str bytes).Spans env m options s t) (hs : m.encoding.Head m.text s) :
    Stride m.encoding m.text (m.encoding.chars bytes).length s t := by
  obtain ⟨fold, hfold, h⟩ := h
  rw [← hx.code] at h
  have hf := CodeEnv.foldFor_eq_ok hx.fold hfold
  exact m.setting.charsEnd?_stride hx.text hx.keeps hb hs (Matcher.charsEnd?_of_path _ hf h)

theorem stride_raw {options : Options} {bytes : List UInt8} {s t : Nat} (hb : m.encoding.isWhole bytes)
    (h : (Node.raw bytes).Spans env m options s t) (hs : m.encoding.Head m.text s) :
    Stride m.encoding m.text (m.encoding.chars bytes).length s t := by
  change m.Path (Literal.code env.encoding none bytes) s t at h
  rw [← hx.code] at h
  exact m.setting.charsEnd?_stride hx.text hx.keeps hb hs (Matcher.charsEnd?_of_path false (by simp) h)

/-- 一文字進む。 -/
theorem stride_next {s t : Nat} (h : s < m.text.size ∧ t = m.encoding.nextHead m.text s)
    (hs : m.encoding.Head m.text s) : Stride m.encoding m.text 1 s t := by
  obtain ⟨hlt, rfl⟩ := h
  exact .step hx.text hs hlt

end

mutual
/-- 途中で切れた文字列を持たない、文字数の決まった節は、切れ目からちょうどその数だけ進む。 -/
theorem spans_stride (hx : Aligned env m) : (n : Node) → (top : Bool) → {options : Options} →
    {k s t : Nat} → n.isWhole m.encoding → n.charCountAt m.encoding top = .fixed k →
    n.Spans env m options s t → m.encoding.Head m.text s → Stride m.encoding m.text k s t
  | .empty, _, _, _, _, _, _, hk, h, hs => by
    cases hk
    cases h
    exact .refl hs
  | .list ns, _, _, _, _, _, hw, hk, h, hs => spansList_stride hx ns hw hk h hs
  | .alt [], _, _, _, _, _, _, hk, h, hs => by
    cases hk
    cases h
    exact .refl hs
  | .alt (n :: ns), _, _, _, _, _, hw, hk, h, hs =>
    spansAlt_stride hx (n :: ns) hw (CharCount.eq_of_either hk) (by simp) h hs
  | .str bytes, _, _, _, _, _, hw, hk, h, hs => by
    cases hk
    exact stride_str hx hw h hs
  | .raw bytes, _, _, _, _, _, hw, hk, h, hs => by
    cases hk
    exact stride_raw hx hw h hs
  | .cclass c, _, _, _, _, _, _, hk, h, hs => by
    cases hk
    change m.Passes (classInstruction env.encoding c) _ _ at h
    rw [← hx.code] at h
    exact stride_next hx (Matcher.passes_class_next h) hs
  | .word _, _, _, _, _, _, _, hk, h, hs => by
    cases hk
    exact stride_next hx (Matcher.passes_word_next h) hs
  | .any, _, _, _, _, _, _, hk, h, hs => by
    cases hk
    exact stride_next hx (Matcher.passes_any_next h) hs
  | .anchor _, _, _, _, _, _, _, hk, h, hs => by
    cases hk
    obtain ⟨rfl, -⟩ := Matcher.passes_anchor h
    exact .refl hs
  | .backref _, _, _, _, _, _, _, hk, _, _ => by cases hk
  | .scoped _ body, _, _, _, _, _, hw, hk, h, hs => spans_stride hx body false hw hk h hs
  | .loop l body, _, options, _, _, _, hw, hk, ⟨k, hl, hu, hi⟩, hs => by
    simp only [charCountAt] at hk
    split at hk
    · rename_i hfix
      have hturns : k = l.lower := by
        have := hu l.lower (by simpa [Loop.isFixed] using hfix)
        omega
      split at hk
      · rename_i j hj
        have hbody : ∀ {u v}, body.Spans env m options u v → m.encoding.Head m.text u →
            Stride m.encoding m.text j u v := spans_stride hx body false hw hj
        cases hk
        rw [← hturns]
        exact (Stride.iterated hbody hi hs).sat hx.size
      · rename_i hne
        exact absurd hk (hne _)
    · cases hk
  | .group kind body, _, _, _, s, _, hw, hk, h, hs => by
    cases kind with
    | capture n undo => exact spans_stride hx body false hw hk h hs
    | atomic => exact spans_stride hx body false hw hk h hs
    | behind =>
      cases hk
      obtain ⟨n, p, hn, hp, h⟩ := h
      rw [← hx.code] at hn
      obtain ⟨hhead, hcount⟩ := Encoding.stepBack_spec hx.text hs hp
      have hbody := spans_stride hx body true hw hn h hhead
      obtain rfl : _ = s := hbody.count.symm.trans hcount
      exact .refl hs
    | ahead =>
      cases hk
      cases h
      exact .refl hs
    | notAhead =>
      cases hk
      cases h
      exact .refl hs
    | notBehind =>
      cases hk
      cases h
      exact .refl hs

theorem spansList_stride (hx : Aligned env m) : (ns : List Node) → {options : Options} → {k s t : Nat} →
    allWhole m.encoding ns → sumCharCount m.encoding ns = .fixed k → SpansList env m options ns s t →
    m.encoding.Head m.text s → Stride m.encoding m.text k s t
  | [], _, _, _, _, _, hk, h, hs => by
    cases hk
    cases h
    exact .refl hs
  | n :: ns, _, _, _, _, hw, hk, ⟨_, hn, h⟩, hs => by
    obtain ⟨hwn, hwns⟩ := Bool.and_eq_true_iff.1 hw
    obtain ⟨i, j, hi, hj, rfl⟩ := CharCount.eq_of_add hk
    have hstep := spans_stride hx n false hwn hi hn hs
    exact (hstep.trans (spansList_stride hx ns hwns hj h hstep.head)).sat hx.size

theorem spansAlt_stride (hx : Aligned env m) : (ns : List Node) → {options : Options} → {k s t : Nat} →
    allWhole m.encoding ns → (∀ c ∈ charCounts m.encoding ns, c = .fixed k) → ns ≠ [] →
    SpansAlt env m options ns s t → m.encoding.Head m.text s → Stride m.encoding m.text k s t
  | [], _, _, _, _, _, _, hne, _, _ => absurd rfl hne
  | [n], _, _, _, _, hw, hk, _, h, hs =>
    spans_stride hx n false (Bool.and_eq_true_iff.1 hw).1 (hk _ List.mem_cons_self) h hs
  | n :: n' :: ns, _, _, _, _, hw, hk, _, h, hs => by
    obtain ⟨hwn, hwns⟩ := Bool.and_eq_true_iff.1 hw
    rcases h with h | h
    · exact spans_stride hx n false hwn (hk _ List.mem_cons_self) h hs
    · exact spansAlt_stride hx (n' :: ns) hwns (fun c hc => hk c (List.mem_cons_of_mem _ hc)) (by simp) h hs
end

/-- `body` の後読みは、一文字でも戻るなら、どの位置からも前へ進む。 -/
def ReadsForward (env : CodeEnv) (m : Matcher) (body : Node) : Prop :=
  ∀ {options : Options} {k p s t : Nat}, body.charCount env.encoding = .fixed (k + 1) →
    m.encoding.stepBack m.text 0 s (k + 1) = some p → body.Spans env m options p t → s ≤ m.text.size →
    s ≤ t ∧ t ≤ m.text.size

/-- 途中で切れた文字列を持たない後読みは、前へ進む。 -/
theorem readsForward_of_isWhole (hx : Aligned env m) {body : Node} (hbody : body.isWhole m.encoding) :
    body.ReadsForward env m := by
  intro options k p s t hn hp h hs
  rw [← hx.code] at hn
  obtain ⟨hhead, hle⟩ := Encoding.le_iterate_of_stepBack hx.text hs hp
  have hstride := spans_stride hx body true hbody hn h hhead
  exact ⟨hstride.count ▸ hle, hstride.head.le⟩

theorem next_forward {s t : Nat} (h : s < m.text.size ∧ t = m.encoding.nextHead m.text s) :
    Forward m.text.size 1 s t := by
  obtain ⟨hlt, rfl⟩ := h
  have hpos := m.encoding.lengthAt_pos hlt
  rw [Encoding.nextHead_eq _ hlt]
  exact ⟨Nat.le_add_right .., Encoding.lengthAt_le _ _ _ (Nat.le_of_lt hlt), fun _ => by omega⟩

theorem chars_forward {ignoreCase : Bool} {bytes : List UInt8} {s t : Nat}
    (h : m.setting.charsEnd? ignoreCase (env.encoding.chars bytes) s = some t) (hs : s ≤ m.text.size) :
    Forward m.text.size bytes.length s t := by
  obtain ⟨rfl, hle⟩ := Setting.charsEnd?_eq_some h
  rw [Encoding.flatten_chars] at hle ⊢
  exact ⟨Nat.le_add_right .., hle hs, fun hpos => by omega⟩

mutual
/-- 後読みが前へ進むなら、節はどの位置からも前へ進む。 -/
theorem spans_forward (hcode : m.encoding = env.encoding) (hfold : m.program.fold = env.fold.getD .ascii) :
    (n : Node) → {options : Options} → {s t : Nat} →
    (∀ b ∈ n.behinds, b.ReadsForward env m) → n.Spans env m options s t → s ≤ m.text.size →
    Forward m.text.size n.minLength s t
  | .empty, _, _, _, _, h, hs => by
    cases h
    exact .refl hs
  | .list ns, _, _, _, hb, h, hs => spansList_forward hcode hfold ns hb h hs
  | .alt ns, _, _, _, hb, h, hs => spansAlt_forward hcode hfold ns hb h hs
  | .str bytes, _, _, _, _, ⟨fold, hfor, h⟩, hs =>
    chars_forward (Matcher.charsEnd?_of_path _ (CodeEnv.foldFor_eq_ok hfold hfor) h) hs
  | .raw bytes, _, _, _, _, h, hs => chars_forward (Matcher.charsEnd?_of_path false (by simp) h) hs
  | .cclass c, _, _, _, _, h, _ => by
    change m.Passes (classInstruction env.encoding c) _ _ at h
    rw [← hcode] at h
    exact next_forward (Matcher.passes_class_next h)
  | .word _, _, _, _, _, h, _ => next_forward (Matcher.passes_word_next h)
  | .any, _, _, _, _, h, _ => next_forward (Matcher.passes_any_next h)
  | .anchor _, _, _, _, _, h, hs => by
    obtain ⟨rfl, -⟩ := Matcher.passes_anchor h
    exact .refl hs
  | .backref _, _, _, _, _, h, _ =>
    ⟨(Matcher.passes_backref h).1, (Matcher.passes_backref h).2, fun h => absurd h (Nat.lt_irrefl 0)⟩
  | .scoped _ body, _, _, _, hb, h, hs => spans_forward hcode hfold body hb h hs
  | .loop l body, _, _, _, hb, ⟨k, hl, _, hi⟩, hs => by
    refine (Forward.iterated (fun h hs => spans_forward hcode hfold body hb h hs) hi hs).mono fun hpos => ?_
    have hle : body.minLength * l.lower ≤ body.minLength * k := Nat.mul_le_mul_left _ hl
    simp only [minLength, satMul] at hpos
    omega
  | .group kind body, _, s, t, hb, h, hs => by
    cases kind with
    | capture n undo => exact spans_forward hcode hfold body hb h hs
    | atomic => exact spans_forward hcode hfold body hb h hs
    | behind =>
      obtain ⟨hbody, hb⟩ := List.forall_mem_cons.1 hb
      obtain ⟨n, p, hn, hp, h⟩ := h
      have hle : s ≤ t ∧ t ≤ m.text.size := by
        cases n with
        | zero =>
          cases hp
          have hforward := spans_forward hcode hfold body hb h hs
          exact ⟨hforward.le, hforward.within⟩
        | succ n => exact hbody hn hp h hs
      exact ⟨hle.1, hle.2, fun h => absurd h (Nat.lt_irrefl 0)⟩
    | ahead | notAhead | notBehind =>
      cases h
      exact .refl hs

theorem spansList_forward (hcode : m.encoding = env.encoding) (hfold : m.program.fold = env.fold.getD .ascii) :
    (ns : List Node) → {options : Options} → {s t : Nat} →
    (∀ b ∈ behindsIn ns, b.ReadsForward env m) → SpansList env m options ns s t → s ≤ m.text.size →
    Forward m.text.size (sumMinLength ns) s t
  | [], _, _, _, _, h, hs => by
    cases h
    exact .refl hs
  | n :: ns, _, _, _, hb, ⟨_, hn, h⟩, hs => by
    obtain ⟨hbn, hbns⟩ := List.forall_mem_append.1 hb
    have hhead := spans_forward hcode hfold n hbn hn hs
    refine (hhead.trans (spansList_forward hcode hfold ns hbns h hhead.within)).mono fun hpos => ?_
    simp only [sumMinLength, satAdd] at hpos
    omega

theorem spansAlt_forward (hcode : m.encoding = env.encoding) (hfold : m.program.fold = env.fold.getD .ascii) :
    (ns : List Node) → {options : Options} → {s t : Nat} →
    (∀ b ∈ behindsIn ns, b.ReadsForward env m) → SpansAlt env m options ns s t → s ≤ m.text.size →
    Forward m.text.size (leastMinLength ns) s t
  | [], _, _, _, _, h, hs => by
    cases h
    exact .refl hs
  | [n], _, _, _, hb, h, hs => spans_forward hcode hfold n (List.forall_mem_append.1 hb).1 h hs
  | n :: n' :: ns, _, _, _, hb, h, hs => by
    obtain ⟨hbn, hbns⟩ := List.forall_mem_append.1 hb
    rcases h with h | h
    · exact (spans_forward hcode hfold n hbn h hs).mono fun hpos => by simp only [leastMinLength] at hpos; omega
    · exact (spansAlt_forward hcode hfold (n' :: ns) hbns h hs).mono fun hpos => by
        simp only [leastMinLength] at hpos ⊢
        omega
end

/-- 後読みの本体が途中で切れた文字列を持たなければ、節はどの位置からも前へ進む。 -/
theorem spans_le (hx : Aligned env m) (n : Node) {options : Options} {s t : Nat}
    (hb : ∀ b ∈ n.behinds, b.isWhole m.encoding) (h : n.Spans env m options s t) (hs : s ≤ m.text.size) :
    s ≤ t ∧ t ≤ m.text.size := by
  have hforward := spans_forward hx.code hx.fold n (fun b hbn => readsForward_of_isWhole hx (hb b hbn)) h hs
  exact ⟨hforward.le, hforward.within⟩

end Node

end MultibyteRegex

import MultibyteRegex.Proofs.Straying
import MultibyteRegex.Proofs.Strides

/-!
# 文字列の現れる切れ目

正しい本文で切れ目から始まる照合は、途中で切れた文字列も後方参照も含まない木なら、切れ目だけを通る。UTF-8 では、正しい
文字だけを並べた文字列は、どこから読んでも切れ目に現れる。だから木の文字列の手がかりも切れ目に現れる。
-/

namespace MultibyteRegex

theorem Iterated.invariant {R : Nat → Nat → Prop} {P : Nat → Prop} {k s t : Nat} (h : Iterated R k s t)
    (hR : ∀ {u v}, R u v → P u → P v) (hs : P s) : P t := by
  induction k generalizing s with
  | zero =>
    cases h
    exact hs
  | succ k ih =>
    obtain ⟨u, hu, h⟩ := h
    exact ih h (hR hu hs)

namespace Node

/-- 葉が文字列なら、`p` を満たす。 -/
def literalLeaf (p : List UInt8 → Bool) : Node → Bool
  | .str bytes => p bytes
  | .raw bytes => p bytes
  | _ => true

/-- 途中で切れた文字を含む文字列でも、後方参照でもない葉。 -/
def wholeLeaf (e : Encoding) : Node → Bool
  | .backref _ => false
  | n => n.literalLeaf e.isWhole

mutual
theorem everyLeaf_of_allLiterals {p : List UInt8 → Bool} : (n : Node) → n.allLiterals p → n.everyLeaf (literalLeaf p)
  | .list ns, h => everyLeafIn_of_allLiteralsIn ns h
  | .alt ns, h => everyLeafIn_of_allLiteralsIn ns h
  | .str _, h => h
  | .raw _, h => h
  | .loop _ body, h => everyLeaf_of_allLiterals body h
  | .scoped _ body, h => everyLeaf_of_allLiterals body h
  | .group _ body, h => everyLeaf_of_allLiterals body h
  | .empty, _ | .cclass _, _ | .word _, _ | .any, _ | .anchor _, _ | .backref _, _ => rfl

theorem everyLeafIn_of_allLiteralsIn {p : List UInt8 → Bool} :
    (ns : List Node) → allLiteralsIn p ns → everyLeafIn (literalLeaf p) ns
  | [], _ => rfl
  | n :: ns, h => by
    obtain ⟨hn, hns⟩ := Bool.and_eq_true_iff.1 h
    exact Bool.and_eq_true_iff.2 ⟨everyLeaf_of_allLiterals n hn, everyLeafIn_of_allLiteralsIn ns hns⟩
end

variable {env : CodeEnv} {m : Matcher}

mutual
/-- 途中で切れた文字列も後方参照も含まない節は、切れ目から切れ目へ進む。 -/
theorem spans_heads (hx : Aligned env m) : (n : Node) → {options : Options} → {s t : Nat} →
    n.everyLeaf (wholeLeaf m.encoding) → n.Spans env m options s t → m.encoding.Head m.text s →
    m.encoding.Head m.text t
  | .empty, _, _, _, _, h, hs => by
    cases h
    exact hs
  | .list ns, _, _, _, hn, h, hs => spansList_heads hx ns hn h hs
  | .alt ns, _, _, _, hn, h, hs => spansAlt_heads hx ns hn h hs
  | .str _, _, _, _, hn, h, hs => (stride_str hx hn h hs).head
  | .raw bytes, options, s, t, hn, h, hs => by
    have hspans : (Node.raw bytes).Spans env m options s t := h
    exact (stride_raw hx hn hspans hs).head
  | .cclass c, _, _, _, _, h, hs => by
    change m.Passes (classInstruction env.encoding c) _ _ at h
    rw [← hx.code] at h
    exact (stride_next hx (Matcher.passes_class_next h) hs).head
  | .word _, _, _, _, _, h, hs => (stride_next hx (Matcher.passes_word_next h) hs).head
  | .any, _, _, _, _, h, hs => (stride_next hx (Matcher.passes_any_next h) hs).head
  | .anchor _, _, _, _, _, h, hs => by
    obtain ⟨rfl, -⟩ := Matcher.passes_anchor h
    exact hs
  | .backref _, _, _, _, hn, _, _ => by cases hn
  | .scoped _ body, _, _, _, hn, h, hs => spans_heads hx body hn h hs
  | .loop _ body, _, _, _, hn, ⟨_, _, _, h⟩, hs => h.invariant (fun h => spans_heads hx body hn h) hs
  | .group kind body, _, _, _, hn, h, hs => by
    cases kind with
    | capture n undo => exact spans_heads hx body hn h hs
    | atomic => exact spans_heads hx body hn h hs
    | behind =>
      obtain ⟨n, p, -, hp, h⟩ := h
      exact spans_heads hx body hn h (Encoding.stepBack_spec hx.text hs hp).1
    | ahead | notAhead | notBehind =>
      cases h
      exact hs

theorem spansList_heads (hx : Aligned env m) : (ns : List Node) → {options : Options} → {s t : Nat} →
    everyLeafIn (wholeLeaf m.encoding) ns → SpansList env m options ns s t → m.encoding.Head m.text s →
    m.encoding.Head m.text t
  | [], _, _, _, _, h, hs => by
    cases h
    exact hs
  | n :: ns, _, _, _, hn, ⟨_, h, hrest⟩, hs => by
    obtain ⟨hn, hns⟩ := Bool.and_eq_true_iff.1 hn
    exact spansList_heads hx ns hns hrest (spans_heads hx n hn h hs)

theorem spansAlt_heads (hx : Aligned env m) : (ns : List Node) → {options : Options} → {s t : Nat} →
    everyLeafIn (wholeLeaf m.encoding) ns → SpansAlt env m options ns s t → m.encoding.Head m.text s →
    m.encoding.Head m.text t
  | [], _, _, _, _, h, hs => by
    cases h
    exact hs
  | [n], _, _, _, hn, h, hs => spans_heads hx n (Bool.and_eq_true_iff.1 hn).1 h hs
  | n :: n' :: ns, _, _, _, hn, h, hs => by
    obtain ⟨hn, hns⟩ := Bool.and_eq_true_iff.1 hn
    rcases h with h | h
    · exact spans_heads hx n hn h hs
    · exact spansAlt_heads hx (n' :: ns) hns h hs
end

/-- 切れ目から始まれば、木の文字列はどれも切れ目に現れる。 -/
theorem guides_heads (hx : Aligned env m) :
    Guides env m (wholeLeaf m.encoding) (m.encoding.Head m.text) (m.encoding.Head m.text) :=
  ⟨fun hn h _ hs => spans_heads hx _ hn h hs, fun _ _ _ hs _ => hs, fun _ _ _ hs _ => hs⟩

/-- UTF-8 では、どこから始まっても、木の文字列はどれも切れ目に現れる。 -/
theorem guides_utf8 (hcode : m.encoding = env.encoding) (hfold : m.program.fold = env.fold.getD .ascii)
    (he : m.encoding = .utf8) (hkeeps : m.program.fold.KeepsTrail) (hw : m.encoding.isWellFormed m.text.toList) :
    Guides env m (literalLeaf m.encoding.isWellFormed) (fun _ => True) (m.encoding.Head m.text) := by
  have hchars : ∀ {ignoreCase : Bool} {bytes : List UInt8} {s t : Nat}, m.encoding.isWellFormed bytes →
      m.setting.charsEnd? ignoreCase (m.encoding.chars bytes) s = some t → s ≤ m.text.size → bytes ≠ [] →
      m.encoding.Head m.text s := by
    intro ignoreCase bytes s t hb h hs hne
    refine Classical.byContradiction fun hhead => ?_
    -- 切れ目でない所からは、文字列で進めない
    have hstay := (Matcher.Strays.of_not_head he hkeeps hw hs hhead).eq_of_charsEnd? hb h
    obtain ⟨hend, -⟩ := Setting.charsEnd?_eq_some h
    rw [Encoding.flatten_chars] at hend
    exact hne (List.length_eq_zero_iff.1 (by omega))
  refine ⟨fun _ _ _ _ => True.intro, fun hb h hs _ => ?_, fun hb h hs _ => ?_⟩
  · obtain ⟨fold, hfor, h⟩ := h
    rw [← hcode] at h
    exact hchars hb (Matcher.charsEnd?_of_path _ (CodeEnv.foldFor_eq_ok hfold hfor) h) hs
  · change m.Path (Literal.code env.encoding none _) _ _ at h
    rw [← hcode] at h
    exact hchars hb (Matcher.charsEnd?_of_path false (by simp) h) hs

end Node
end MultibyteRegex

import MultibyteRegex.Proofs.Strides

/-!
# 節の始まりのバイト

文字列の節が合う所には文字列が現れ、一文字の節が合う所には、その文字の先頭になりうるバイトがある。一バイトで
書ける文字を長い形で書いた所では、先頭のバイトの代わりに、その文字が集合に入る。
-/

namespace MultibyteRegex

/-! ## 文字の先頭のバイト -/

namespace Encoding

variable {e : Encoding} {text : Text} {s : Nat}

/-- 一バイトで書ける文字が、`s` から二バイト以上の形で書かれている。本文の終わりで切れた形も含む。 -/
def isOverlong (e : Encoding) (text : Text) (s : Nat) : Bool :=
  e.width (text.getD s 0) != 1 && e.codeAt text s < 0x80

/-- 集合のバイトから始まる文字が `s` にある。長い形で書いた文字なら、その文字が集合に入ればよい。 -/
def StartsIn (e : Encoding) (text : Text) (set : ByteSet) (s : Nat) : Prop :=
  ∃ b, text[s]? = some b ∧
    (set.contains b ∨ e.isOverlong text s ∧ set.contains (e.codeAt text s).toUInt8)

theorem StartsIn.mono {set set' : ByteSet} (h : e.StartsIn text set s)
    (hset : ∀ b, set.contains b → set'.contains b) : e.StartsIn text set' s := by
  obtain ⟨b, hb, hin⟩ := h
  exact ⟨b, hb, hin.imp (hset b) (.imp_right (hset _))⟩

/-- 長い形で書いた文字でなければ、集合のバイトから始まる。 -/
theorem StartsIn.byte {set : ByteSet} (h : e.StartsIn text set s) (hshort : e.isOverlong text s = false) :
    ∃ b, text[s]? = some b ∧ set.contains b := by
  obtain ⟨b, hb, hin | ⟨hlong, -⟩⟩ := h
  · exact ⟨b, hb, hin⟩
  · simp [hshort] at hlong

theorem width_le_maxWidth (e : Encoding) (b : UInt8) : e.width b ≤ e.maxWidth := by
  cases e <;> simp only [width, maxWidth] <;> (repeat' split) <;> omega

/-- ASCII の文字は、どの符号化でも一バイトである。 -/
theorem width_of_lt {b : UInt8} (h : b.toNat < 0x80) : e.width b = 1 := by
  cases e <;>
    simp only [width, ← UInt8.toNat_inj, UInt8.le_iff_toNat_le, UInt8.lt_iff_toNat_lt, UInt8.reduceToNat] <;>
    grind

theorem width_eq_one_of_any {bytes : List UInt8} (h : ¬bytes.any (1 < e.width ·)) :
    ∀ b ∈ bytes, e.width b = 1 := by
  intro b hb
  have hpos := e.width_pos b
  have hle : ¬1 < e.width b := fun hlt => h (List.any_eq_true.2 ⟨b, hb, decide_eq_true hlt⟩)
  omega

/-- 符号位置は、先頭のバイトとその続きから計算する。 -/
theorem codeAt_eq (h : s < text.size) : ∃ trail, e.codeAt text s = e.decode (text[s] :: trail) := by
  have hpos := e.width_pos text[s]
  have hlen : 0 < e.lengthAt text s := by
    simp only [lengthAt, Array.getElem?_eq_getElem h]
    omega
  refine ⟨(text.slice s (s + e.lengthAt text s)).tail, ?_⟩
  rw [codeAt]
  congr 1
  rw [Text.slice, Array.toList_extract, List.extract_eq_take_drop, List.drop_eq_getElem_cons (by simpa using h),
    Nat.add_sub_cancel_left]
  obtain ⟨n, hn⟩ := Nat.exists_eq_add_of_lt hlen
  simp [hn]

theorem codeAt_of_width_one (h : s < text.size) (hw : e.width text[s] = 1) :
    e.codeAt text s = text[s].toNat := by
  obtain ⟨trail, hcode⟩ := codeAt_eq (e := e) h
  rw [hcode]
  cases e <;> simp [decode, hw]

theorem le_foldl_code (code : Nat) (trail : List UInt8) :
    code ≤ trail.foldl (fun code b => code * 256 + b.toNat) code := by
  induction trail generalizing code with
  | nil => exact Nat.le_refl _
  | cons b trail ih =>
    rw [List.foldl_cons]
    have := ih (code * 256 + b.toNat)
    omega

/-- 続きを足した符号位置は、一バイトには収まらない。 -/
theorem codeAt_eq_or_le (he : e ≠ .utf8) (h : s < text.size) (hb : text[s] ≠ 0) :
    e.codeAt text s = text[s].toNat ∨ 0x100 ≤ e.codeAt text s := by
  obtain ⟨trail, hcode⟩ := codeAt_eq (e := e) h
  have hpos : 0 < text[s].toNat := Nat.pos_of_ne_zero fun h0 => hb (UInt8.toNat_inj.1 h0)
  have key : ∀ trail : List UInt8,
      trail.foldl (fun code b => code * 256 + b.toNat) text[s].toNat = text[s].toNat ∨
        0x100 ≤ trail.foldl (fun code b => code * 256 + b.toNat) text[s].toNat := by
    intro trail
    cases trail with
    | nil => exact .inl rfl
    | cons b trail =>
      rw [List.foldl_cons]
      have := le_foldl_code (text[s].toNat * 256 + b.toNat) trail
      exact .inr (by omega)
  rw [hcode]
  cases e with
  | utf8 => exact absurd rfl he
  | _ => exact key _

/-- UTF-8 のほかでは、二バイト以上の文字の符号位置はいつも大きい。 -/
theorem isOverlong_of_ne_utf8 (he : e ≠ .utf8) : e.isOverlong text s = false := by
  rw [Bool.eq_false_iff]
  intro h
  simp only [isOverlong, Bool.and_eq_true, bne_iff_ne, decide_eq_true_eq] at h
  obtain ⟨hw, hcode⟩ := h
  have hs : s < text.size := by
    refine Nat.lt_of_not_le fun hle => hw ?_
    rw [show text.getD s 0 = 0 from dif_neg (Nat.not_lt.2 hle)]
    exact width_of_lt (by decide)
  rw [show text.getD s 0 = text[s] by simp [Array.getD, hs]] at hw
  have hlead : 0x80 ≤ text[s].toNat :=
    Nat.le_of_not_lt fun hlt => hw (width_of_lt hlt)
  rcases codeAt_eq_or_le he hs fun h0 => by simp [h0] at hlead with heq | hle <;> omega

end Encoding

namespace CharClass

variable {e : Encoding} {text : Text} {s : Nat} {c : CharClass}

theorem width_of_isSingle {b : UInt8} (h : isSingle e b.toNat) : e.width b = 1 := by
  cases e with
  | utf8 => exact Encoding.width_of_lt (by simpa [isSingle] using h)
  | _ =>
    simp only [isSingle, Nat.toUInt8_eq, UInt8.ofNat_toNat, Bool.and_eq_true, beq_iff_eq] at h
    exact h.2

/-- 集合で持たないバイトから始まる文字を集合で持つなら、その文字は長い形で書かれている。 -/
theorem isOverlong_of_isSingle (h : s < text.size) (hb : ¬isSingle e text[s].toNat)
    (hc : isSingle e (e.codeAt text s)) : e.isOverlong text s := by
  have hne : e.codeAt text s ≠ text[s].toNat := fun heq => hb (heq ▸ hc)
  have hw : e.width text[s] ≠ 1 := fun hw => hne (Encoding.codeAt_of_width_one h hw)
  have hcode : e.codeAt text s < 0x80 := by
    by_cases he : e = .utf8
    · subst he
      simpa [isSingle] using hc
    · have h0 : text[s] ≠ 0 := by
        intro h0
        rw [h0] at hw
        exact hw (by cases e <;> rfl)
      have hle := (Encoding.codeAt_eq_or_le he h h0).resolve_left hne
      cases e with
      | utf8 => exact absurd rfl he
      | _ =>
        simp only [isSingle, Bool.and_eq_true, decide_eq_true_eq] at hc
        omega
  simp [Encoding.isOverlong, Array.getD, h, hw, hcode]

/-- 集まりに含まれる文字は、先頭になりうるバイトから始まる。 -/
theorem starts_leadBytes (h : s < text.size) (hc : c.contains e (e.codeAt text s)) :
    e.StartsIn text (c.leadBytes e) s := by
  refine ⟨text[s], Array.getElem?_eq_getElem h, ?_⟩
  simp only [leadBytes, ByteSet.contains_ofPred]
  unfold contains at hc
  by_cases hb : isSingle e text[s].toNat
  · rw [Encoding.codeAt_of_width_one h (width_of_isSingle hb)] at hc
    exact .inl (by simpa [hb] using hc)
  · by_cases hcode : isSingle e (e.codeAt text s)
    · have hlong := isOverlong_of_isSingle h hb hcode
      have hsmall : e.codeAt text s < 0x80 := by simpa using (Bool.and_eq_true_iff.1 hlong).2
      have hbyte : (e.codeAt text s).toUInt8.toNat = e.codeAt text s := by
        simp
        omega
      refine .inr ⟨hlong, ?_⟩
      rw [hbyte, if_pos hcode]
      simpa [hcode] using hc
    · refine .inl ?_
      rw [if_neg hb]
      simp only [hcode, Bool.false_eq_true, if_false, bne_iff_ne, ne_eq] at hc
      cases hn : c.negated with
      | true => rfl
      | false =>
        rw [hn, Bool.not_eq_false] at hc
        cases hr : c.ranges with
        | nil =>
          rw [hr] at hc
          cases hc
        | cons => rfl

end CharClass

/-! ## 一文字の節 -/

namespace Matcher

variable {m : Matcher} {caps : Captures} {s t : Nat}

/-- `s` の一文字を進み、その文字は集合のバイトから始まる。 -/
structure Reads (m : Matcher) (set : ByteSet) (s t : Nat) : Prop where
  lt : s < m.text.size
  next : t = m.encoding.nextHead m.text s
  starts : m.encoding.StartsIn m.text set s

theorem reads_class {c : CharClass} (h : m.Passes (classInstruction m.encoding c) s t) : m.Reads (c.leadBytes m.encoding) s t := by
  obtain ⟨hlt, hnext⟩ := passes_class_next h
  obtain ⟨caps, -, h⟩ := h
  rw [leafEnd?_class] at h
  obtain ⟨n, hn, -⟩ := Option.map_eq_some_iff.1 h
  simp only [CharClass.matchAt, Option.ite_none_right_eq_some] at hn
  exact ⟨hlt, hnext, CharClass.starts_leadBytes hlt hn.1.2⟩

theorem reads_word {isWord : Bool} (h : m.Passes (.word isWord) s t) :
    m.Reads (.ofPred fun b => m.encoding.isWordLead b == isWord) s t := by
  obtain ⟨hlt, hnext⟩ := passes_word_next h
  obtain ⟨caps, -, h⟩ := h
  rw [leafEnd?_word] at h
  simp only [Option.ite_none_right_eq_some] at h
  refine ⟨hlt, hnext, m.text[s], Array.getElem?_eq_getElem hlt, .inl ?_⟩
  simpa [Encoding.isWordAt, Array.getElem?_eq_getElem hlt] using h.1.2

theorem reads_any {newline : Bool} (h : m.Passes (.any newline) s t) :
    m.Reads (.ofPred fun b => newline || b != 0x0a) s t := by
  obtain ⟨hlt, hnext⟩ := passes_any_next h
  obtain ⟨caps, -, h⟩ := h
  rw [leafEnd?_any, Setting.anyEnd?] at h
  simp only [setting, Array.getElem?_eq_getElem hlt, Option.ite_none_left_eq_some] at h
  refine ⟨hlt, hnext, m.text[s], Array.getElem?_eq_getElem hlt, .inl ?_⟩
  cases newline with
  | false => simpa using h.1
  | true => simp

/-! ## 文字列の節 -/

/-- `p` に文字列が現れる。`folded` なら、写した後のバイト列と比べる。 -/
def occurs (m : Matcher) (folded : Bool) (bytes : List UInt8) (p : Nat) : Bool :=
  if folded then m.text.hasFoldedAt m.program.fold bytes p else m.text.hasAt bytes p

variable {folded : Bool} {a b bytes : List UInt8} {p : Nat}

theorem occurs_append :
    m.occurs folded (a ++ b) p = (m.occurs folded a p && m.occurs folded b (p + a.length)) := by
  cases folded
  · exact Text.hasAt_append
  · exact Text.hasFoldedAt_append

theorem occurs_of_prefix (h : a <+: b) (hb : m.occurs folded b p) : m.occurs folded a p := by
  obtain ⟨rest, rfl⟩ := h
  rw [occurs_append, Bool.and_eq_true] at hb
  exact hb.1

end Matcher

theorem Encoding.chars_of_width_one {e : Encoding} {bytes : List UInt8} (h : ∀ b ∈ bytes, e.width b = 1) :
    e.chars bytes = bytes.map ([·]) := by
  induction bytes with
  | nil => simp [chars]
  | cons b bytes ih =>
    obtain ⟨hb, hbytes⟩ := List.forall_mem_cons.1 h
    simp [chars, takeChar, hb, ih hbytes]

theorem Setting.charsEnd?_singletons {x : Setting} {ignoreCase : Bool} {bytes : List UInt8} {s : Nat}
    (hs : s ≤ x.text.size) :
    x.charsEnd? ignoreCase (bytes.map ([·])) s = x.runEnd? ignoreCase 1 bytes s := by
  induction bytes generalizing s with
  | nil => cases ignoreCase <;> simp [charsEnd?, runEnd?, Text.hasAt, Text.hasFoldedAt, FoldTable.foldAll, hs]
  | cons b bytes ih =>
    rw [List.map_cons, charsEnd?, Option.bind_congr fun t ht => ih (charEnd?_eq_some ht).2, charEnd?_eq_runEnd?]
    exact runEnd?_append.symm

namespace Matcher

variable {m : Matcher} {e : Encoding} {ignoreCase : Bool} {bytes : List UInt8} {s t : Nat}

/-- 文字列がバイトごとに比べられる形なら、合う所に現れている。 -/
theorem occurs_of_charsEnd? (h : m.setting.charsEnd? ignoreCase (e.chars bytes) s = some t)
    (hs : s ≤ m.text.size) (hw : ignoreCase → ∀ b ∈ bytes, e.width b = 1) :
    m.occurs ignoreCase (if ignoreCase then m.program.fold.foldAll bytes else bytes) s := by
  cases ignoreCase with
  | false =>
    rw [Setting.charsEnd?_false hs, Encoding.flatten_chars] at h
    simp only [Option.ite_none_right_eq_some] at h
    exact h.1
  | true =>
    rw [Encoding.chars_of_width_one (hw rfl), Setting.charsEnd?_singletons hs] at h
    simp only [Setting.runEnd?, Bool.true_and, beq_self_eq_true, if_true, Option.ite_none_right_eq_some] at h
    exact h.1

end Matcher

namespace Node

variable {env : CodeEnv} {m : Matcher} {options : Options} {bytes : List UInt8} {s t : Nat}

/-- 文字列が合うなら、そのバイト数だけ進む。 -/
theorem spans_str (hcode : m.encoding = env.encoding) (hf : m.program.fold = env.fold.getD .ascii)
    (h : (Node.str bytes).Spans env m options s t) (hs : s ≤ m.text.size) :
    t = s + bytes.length ∧
      ((options.contains .ignoreCase → ∀ b ∈ bytes, m.encoding.width b = 1) →
        m.occurs (options.contains .ignoreCase)
          (if options.contains .ignoreCase then m.program.fold.foldAll bytes else bytes) s) := by
  obtain ⟨fold, hfold, h⟩ := h
  rw [← hcode] at h
  have hchars := Matcher.charsEnd?_of_path _ (CodeEnv.foldFor_eq_ok hf hfold) h
  refine ⟨?_, Matcher.occurs_of_charsEnd? hchars hs⟩
  rw [(Setting.charsEnd?_eq_some hchars).1, Encoding.flatten_chars]

theorem spans_raw (hcode : m.encoding = env.encoding) (h : (Node.raw bytes).Spans env m options s t)
    (hs : s ≤ m.text.size) :
    t = s + bytes.length ∧ m.occurs false bytes s := by
  change m.Path (Literal.code env.encoding none bytes) s t at h
  rw [← hcode] at h
  have hchars := Matcher.charsEnd?_of_path false (by simp) h
  refine ⟨?_, Matcher.occurs_of_charsEnd? hchars hs nofun⟩
  rw [(Setting.charsEnd?_eq_some hchars).1, Encoding.flatten_chars]

end Node

/-- 節の手がかりを読める照合。翻訳と照合が同じ符号化と写像に従い、`bodies` を本体とする後読みは位置を動かさない。 -/
structure Readable (env : CodeEnv) (m : Matcher) (bodies : List Node) : Prop where
  code : m.encoding = env.encoding
  fold : m.program.fold = env.fold.getD .ascii
  rests : ∀ b ∈ bodies, ∀ {options s t}, (Node.group .behind b).Spans env m options s t →
    s ≤ m.text.size → t = s

namespace Readable

variable {env : CodeEnv} {m : Matcher} {bodies : List Node}

/-- 後読みがなければ、いつでも読める。 -/
theorem of_nil (hcode : m.encoding = env.encoding) (hfold : m.program.fold = env.fold.getD .ascii) :
    Readable env m [] :=
  ⟨hcode, hfold, nofun⟩

theorem le (hx : Readable env m bodies) {n : Node} (hn : ∀ b ∈ n.behinds, b ∈ bodies) {options : Options}
    {s t : Nat} (h : n.Spans env m options s t) (hs : s ≤ m.text.size) : s ≤ t ∧ t ≤ m.text.size := by
  have hbehinds : ∀ b ∈ n.behinds, b.ReadsForward env m := by
    intro b hb options k p s t hk hp hspans hs
    obtain rfl := hx.rests b (hn b hb) ⟨k + 1, p, hk, hp, hspans⟩ hs
    exact ⟨Nat.le_refl _, hs⟩
  have hforward := n.spans_forward hx.code hx.fold hbehinds h hs
  exact ⟨hforward.le, hforward.within⟩

end Readable

end MultibyteRegex

import MultibyteRegex.Proofs.Characters
import MultibyteRegex.Proofs.Positions
import MultibyteRegex.Proofs.Simulation
import MultibyteRegex.Proofs.Spans

/-!
# 文字の切れ目に揃った照合

正しい本文では、途中で切れた文字列を持たない命令は、切れ目から切れ目へ進む。文字数の決まった節はちょうど
その数だけ進むので、切れ目からの後読みは始めた位置に戻る。
-/

namespace MultibyteRegex

/-- 写しても、文字の長さは変わらない。 -/
def FoldTable.KeepsWidth (t : FoldTable) (e : Encoding) : Prop := ∀ b, e.width (t.fold b) = e.width b

namespace FoldTable

variable {t : FoldTable} {e : Encoding}

theorem keepsWidth_ascii (e : Encoding) : FoldTable.ascii.KeepsWidth e := by
  cases e <;> exact forall_byte (by decide +kernel)

theorem KeepsWidth.eq_of_fold_eq (h : t.KeepsWidth e) {b c : UInt8} (hf : t.fold b = t.fold c) :
    e.width b = e.width c := by rw [← h b, hf, h c]

theorem KeepsWidth.map_foldAll (h : t.KeepsWidth e) (bytes : List UInt8) :
    (t.foldAll bytes).map e.width = bytes.map e.width := by
  simp [foldAll, Function.comp_def, h _]

/-- 写して等しい文字の並びでは、対応するバイトの求める長さが等しい。 -/
theorem KeepsWidth.sameChars (h : t.KeepsWidth e) {cs : List (List UInt8)} {bytes : List UInt8}
    (hs : t.sameChars cs bytes) :
    cs.flatten.map e.width = (bytes.take cs.flatten.length).map e.width := by
  induction cs generalizing bytes with
  | nil => simp
  | cons c cs ih =>
    simp only [FoldTable.sameChars, Bool.and_eq_true] at hs
    have hhead : c.map e.width = (bytes.take c.length).map e.width := by
      obtain ⟨hc, -⟩ := hs
      split at hc
      · rw [← h.map_foldAll c, ← h.map_foldAll (bytes.take c.length), beq_iff_eq.1 hc]
      · rw [← beq_iff_eq.1 hc]
    rw [List.flatten_cons, List.map_append, hhead, ih hs.2, List.length_append, List.take_add,
      List.map_append]

end FoldTable

/-- 翻訳と照合が同じ符号化と写像に従い、本文は正しい文字を並べたもので、長さが機械の語に収まる。 -/
structure Aligned (env : CodeEnv) (m : Matcher) : Prop where
  code : m.encoding = env.encoding
  fold : m.program.fold = env.fold.getD .ascii
  keeps : m.program.fold.KeepsWidth m.encoding
  text : m.encoding.isWellFormed m.text.toList
  size : m.text.size ≤ maxSize

/-! ## 文字列 -/

namespace Encoding.Head

variable {e : Encoding} {text : Text} {p q s : Nat}

/-- 先頭バイトの求める長さが同じ文字の並びは、切れ目から切れ目までを占める。 -/
theorem shift (hw : e.isWellFormed text.toList) (hp : e.Head text p) (hq : e.Head text q) (hpq : p ≤ q)
    (hs : e.Head text s) (hle : s + (q - p) ≤ text.size)
    (h : ∀ i, p + i < q → e.width (text.getD (p + i) 0) = e.width (text.getD (s + i) 0)) :
    e.Head text (s + (q - p)) := by
  induction hn : q - p using Nat.strongRecOn generalizing p s with
  | ind n ih =>
    subst hn
    rcases Nat.lt_or_eq_of_le hpq with hlt | rfl
    · have hnp := (hp.char hw (Nat.lt_of_lt_of_le hlt hq.le)).1
      have hns := (hs.char hw (by omega)).1
      have hwidth := h 0 (by omega)
      simp only [Nat.add_zero] at hwidth
      rw [← hwidth] at hns
      have hle' := hp.nextHead_le hq hlt
      have hpos := e.width_pos (text.getD p 0)
      have hnext := hs.next hw (by omega)
      have hrec := ih (q - e.nextHead text p) (by omega) (hp.next hw (Nat.lt_of_lt_of_le hlt hq.le)) hle' hnext
        (by omega) (fun i hi => by
          rw [hnp, hns, Nat.add_assoc, Nat.add_assoc]
          exact h _ (by omega)) rfl
      rwa [show e.nextHead text s + (q - e.nextHead text p) = s + (q - p) by omega] at hrec
    · simpa using hs

end Encoding.Head

theorem Text.lead_of_hasAt {text : Text} {b : UInt8} {bytes : List UInt8} {s : Nat}
    (h : text.hasAt (b :: bytes) s) : s < text.size ∧ text.getD s 0 = b := by
  simp only [hasAt, Bool.and_eq_true, beq_iff_eq] at h
  obtain ⟨hlt, hb⟩ := Array.getElem?_eq_some_iff.1 h.1
  exact ⟨hlt, by simp [Array.getD, hlt, hb]⟩

theorem Text.lead_of_hasFoldedAt {t : FoldTable} {text : Text} {b : UInt8} {bytes : List UInt8} {s : Nat}
    (h : text.hasFoldedAt t (b :: bytes) s) : s < text.size ∧ t.fold (text.getD s 0) = b := by
  simp only [hasFoldedAt, Bool.and_eq_true, beq_iff_eq, Option.map_eq_some_iff] at h
  obtain ⟨⟨c, hc, hb⟩, -⟩ := h
  obtain ⟨hlt, rfl⟩ := Array.getElem?_eq_some_iff.1 hc
  exact ⟨hlt, by simp [Array.getD, hlt, hb]⟩

theorem Text.getElem?_slice {text : Text} {a b i : Nat} (hb : b ≤ text.size) (hi : a + i < b) :
    (text.slice a b)[i]? = some (text.getD (a + i) 0) := by
  have hlt : a + i < text.size := by omega
  have : i < b - a := by omega
  simp [slice, Array.getD, hlt, this]

theorem Text.length_slice {text : Text} {a b : Nat} (hb : b ≤ text.size) :
    (text.slice a b).length = b - a := by
  simp [slice]
  omega

/-- 切れ目から、ちょうど `k` 文字進む。 -/
structure Stride (e : Encoding) (text : Text) (k s t : Nat) : Prop where
  head : e.Head text t
  count : (e.nextHead text)^[k] s = t

namespace Stride

variable {e : Encoding} {text : Text} {s t u a b k : Nat}

theorem refl (hs : e.Head text s) : Stride e text 0 s s := ⟨hs, rfl⟩

theorem step (hw : e.isWellFormed text.toList) (hs : e.Head text s) (hlt : s < text.size) :
    Stride e text 1 s (e.nextHead text s) := ⟨hs.next hw hlt, rfl⟩

theorem le (h : Stride e text k s t) : s + k ≤ t := h.count ▸ Encoding.add_le_iterate k

theorem trans (h : Stride e text a s u) (h' : Stride e text b u t) : Stride e text (a + b) s t :=
  ⟨h'.head, by rw [Nat.add_comm, Function.iterate_add_apply, h.count, h'.count]⟩

/-- 文字数が頭打ちになることはない。 -/
theorem sat (hsize : text.size ≤ maxSize) (h : Stride e text k s t) :
    Stride e text (min k maxSize) s t := by
  have := h.le
  have := h.head.le
  rwa [Nat.min_eq_left (by omega)]

theorem iterated {R : Nat → Nat → Prop} (h : ∀ {s t}, R s t → e.Head text s → Stride e text a s t)
    (hi : Iterated R k s t) (hs : e.Head text s) : Stride e text (a * k) s t := by
  induction k generalizing s with
  | zero =>
    cases hi
    exact refl hs
  | succ k ih =>
    obtain ⟨u, hu, hi⟩ := hi
    have hstep := h hu hs
    rw [Nat.mul_succ, Nat.add_comm]
    exact hstep.trans (ih hi hstep.head)

end Stride

namespace Setting

variable {x : Setting} {ignoreCase : Bool} {s t : Nat}

/-- 一文字に合うと、次の切れ目に着く。 -/
theorem charEnd?_stride (hw : x.encoding.isWellFormed x.text.toList)
    (hkeeps : x.fold.KeepsWidth x.encoding) {c : List UInt8} (hc : x.encoding.isWholeChar c)
    (hs : x.encoding.Head x.text s) (h : x.charEnd? ignoreCase c s = some t) :
    Stride x.encoding x.text 1 s t := by
  obtain ⟨rfl, -⟩ := charEnd?_eq_some h
  cases c with
  | nil => cases hc
  | cons b trail =>
    have hlen : x.encoding.width b = (b :: trail).length := by
      simpa [Encoding.isWholeChar] using hc
    suffices hbyte : s < x.text.size ∧ x.encoding.width (x.text.getD s 0) = x.encoding.width b by
      have hnext := (hs.char hw hbyte.1).1
      rw [hbyte.2, hlen] at hnext
      rw [← hnext]
      exact .step hw hs hbyte.1
    simp only [charEnd?_eq, Option.ite_none_right_eq_some] at h
    obtain ⟨hsame, -⟩ := h
    split at hsame
    · obtain ⟨hlt, hb⟩ := Text.lead_of_hasFoldedAt hsame
      exact ⟨hlt, hkeeps.eq_of_fold_eq hb⟩
    · obtain ⟨hlt, hb⟩ := Text.lead_of_hasAt hsame
      exact ⟨hlt, by rw [hb]⟩

theorem charsEnd?_stride (hw : x.encoding.isWellFormed x.text.toList)
    (hkeeps : x.fold.KeepsWidth x.encoding) {cs : List (List UInt8)}
    (hcs : cs.all x.encoding.isWholeChar) (hs : x.encoding.Head x.text s)
    (h : x.charsEnd? ignoreCase cs s = some t) : Stride x.encoding x.text cs.length s t := by
  induction cs generalizing s with
  | nil =>
    cases h
    exact .refl hs
  | cons c cs ih =>
    rw [List.all_cons, Bool.and_eq_true] at hcs
    obtain ⟨u, hu, h⟩ := Option.bind_eq_some_iff.1 h
    have hstep := charEnd?_stride hw hkeeps hcs.1 hs hu
    rw [List.length_cons, Nat.add_comm]
    exact hstep.trans (ih hcs.2 hstep.head h)

end Setting

/-- 途中で切れた文字を含まない文字列は、切れ目から、その文字の数だけ並ぶ。 -/
theorem Encoding.Head.stride {e : Encoding} {text : Text} {w : List UInt8} {s : Nat}
    (hw : e.isWellFormed text.toList) (hs : e.Head text s) (hb : e.isWhole w) (h : text.hasAt w s) :
    Stride e text (e.chars w).length s (s + w.length) := by
  let x : Setting := ⟨e, .ascii, text, 0, .none⟩
  have hchars : x.charsEnd? false (e.chars w) s = some (s + w.length) := by
    rw [Setting.charsEnd?_false hs.le, flatten_chars]
    exact if_pos h
  exact x.charsEnd?_stride hw (FoldTable.keepsWidth_ascii e) hb hs hchars

/-! ## 命令 -/

/-- 後方参照は、本文の中で終わる。 -/
theorem Captures.backrefLength_le {caps : Captures} {e : Encoding} {fold : Option FoldTable} {text : Text}
    {n s k : Nat} (h : caps.backrefLength e fold text n s = some k) : s + k ≤ text.size := by
  unfold backrefLength at h
  split at h
  · cases h
  · simp only [Option.ite_none_left_eq_some, Option.ite_none_right_eq_some, Option.some.injEq] at h
    obtain ⟨hle, -, rfl⟩ := h
    omega

/-- 命令の文字列が、途中で切れた文字を含まない。 -/
def Instruction.isWhole (e : Encoding) : Instruction → Bool
  | .exact _ bytes => e.isWhole bytes
  | .exactFold _ bytes => bytes.all (e.width · == 1)
  | _ => true

namespace Matcher

variable {m : Matcher} {caps : Captures} {s t : Nat}

theorem classEnd_eq {c : CharClass} {n : Nat} (h : c.matchAt m.encoding m.text s = some n) :
    s < m.text.size ∧ s + n = m.encoding.nextHead m.text s := by
  simp only [CharClass.matchAt, Option.ite_none_right_eq_some, Option.some.injEq] at h
  obtain ⟨⟨hne, -⟩, rfl⟩ := h
  have hlt := Encoding.lengthAt_ne_zero_iff.1 hne
  exact ⟨hlt, (Encoding.nextHead_eq _ hlt).symm⟩

/-- 捕獲の両端が切れ目にあるなら、後方参照は切れ目で終わる。 -/
theorem backrefLength_head (hw : m.encoding.isWellFormed m.text.toList)
    (hkeeps : m.program.fold.KeepsWidth m.encoding) (hcaps : caps.At (m.encoding.Head m.text))
    (hs : m.encoding.Head m.text s) {ignoreCase : Bool} {n k : Nat}
    (h : caps.backrefLength m.encoding (if ignoreCase then some m.program.fold else none) m.text n s = some k) :
    m.encoding.Head m.text (s + k) := by
  unfold Captures.backrefLength at h
  split at h
  · cases h
  · rename_i start stop hspan
    have hslot : m.encoding.Head m.text start ∧ m.encoding.Head m.text stop ∧ start ≤ stop := by
      unfold Captures.span? at hspan
      split at hspan
      · rename_i a b hget
        split at hspan
        · rename_i hle
          cases hspan
          have hslot := hcaps _ (Array.mem_of_getElem? hget)
          exact ⟨hslot.start _ rfl, hslot.stop _ rfl, hle⟩
        · cases hspan
      · cases hspan
    obtain ⟨hstart, hstop, hle⟩ := hslot
    simp only [Option.ite_none_left_eq_some, Option.ite_none_right_eq_some, Option.some.injEq] at h
    obtain ⟨hin, hsame, rfl⟩ := h
    have hlen := Text.length_slice (a := start) hstop.le
    rw [hlen] at hin hsame ⊢
    -- 対応するバイトの求める長さは、写して比べても等しい。
    have hwidths : (m.text.slice start stop).map m.encoding.width =
        (m.text.slice s (s + (stop - start))).map m.encoding.width := by
      cases ignoreCase with
      | false => rw [beq_iff_eq.1 hsame]
      | true =>
        have hsame := hkeeps.sameChars hsame
        rw [Encoding.flatten_chars, hlen] at hsame
        rw [hsame, List.take_of_length_le]
        rw [Text.length_slice (by omega)]
        omega
    refine hstart.shift hw hstop hle hs (by omega) fun i hi => ?_
    have hget := congrArg (·[i]?) hwidths
    have hi' : s + i < s + (stop - start) := by omega
    rw [List.getElem?_map, List.getElem?_map, Text.getElem?_slice hstop.le hi,
      Text.getElem?_slice (Nat.not_lt.1 hin) hi'] at hget
    exact Option.some.inj hget

/-- 写した後のバイトがどれも一文字なら、合う所もそうである。 -/
theorem hasFoldedAt_head (hw : m.encoding.isWellFormed m.text.toList)
    (hkeeps : m.program.fold.KeepsWidth m.encoding) {bytes : List UInt8}
    (hb : bytes.all (m.encoding.width · == 1)) (hs : m.encoding.Head m.text s)
    (h : m.text.hasFoldedAt m.program.fold bytes s) : m.encoding.Head m.text (s + bytes.length) := by
  induction bytes generalizing s with
  | nil => exact hs
  | cons b bytes ih =>
    rw [List.all_cons, Bool.and_eq_true, beq_iff_eq] at hb
    obtain ⟨hlt, hfold⟩ := Text.lead_of_hasFoldedAt h
    have hnext := (hs.char hw hlt).1
    rw [← hkeeps, hfold, hb.1] at hnext
    have hrest := ih hb.2 (hnext ▸ hs.next hw hlt) (Bool.and_eq_true_iff.1 h).2
    rwa [List.length_cons, Nat.add_comm bytes.length, ← Nat.add_assoc]

theorem hasAt_head (hw : m.encoding.isWellFormed m.text.toList) {bytes : List UInt8}
    (hb : m.encoding.isWhole bytes) (hs : m.encoding.Head m.text s) (h : m.text.hasAt bytes s) :
    m.encoding.Head m.text (s + bytes.length) := (hs.stride hw hb h).head

theorem leafEnd?_consume {i : Instruction} {n : Option Nat}
    (he : m.execute 0 i { pc := 0, pos := s, caps } = .ok (.consume n { pc := 0, pos := s, caps })) :
    m.leafEnd? i caps s = n.map (s + ·) := by
  unfold leafEnd?
  rw [he]
  cases n <;> rfl

theorem leafEnd?_check {i : Instruction} {ok : Bool}
    (he : m.execute 0 i { pc := 0, pos := s, caps } = .ok (.check ok { pc := 0, pos := s, caps })) :
    m.leafEnd? i caps s = if ok then some s else none := by
  unfold leafEnd?
  rw [he]
  cases ok <;> rfl

/-- 一文字進んだ先と、戻った先と、文字列の終わりと、参照の終わりが `P` を満たすなら、命令は `P` を保つ。 -/
theorem keeps_of {P : Nat → Prop} {i : Instruction}
    (hnext : ∀ s, s < m.text.size → P s → P (m.encoding.nextHead m.text s))
    (hback : ∀ chars s p, m.encoding.stepBack m.text 0 s chars = some p → P s → P p)
    (hexact : ∀ form bytes s, i = .exact form bytes → m.text.hasAt bytes s → P s → P (s + bytes.length))
    (hfold : ∀ one bytes s, i = .exactFold one bytes → m.text.hasFoldedAt m.program.fold bytes s → P s →
      P (s + bytes.length))
    (href : ∀ caps (ignoreCase : Bool) n s k, Captures.backrefLength caps m.encoding
      (if ignoreCase then some m.program.fold else none) m.text n s = some k →
        Captures.At P caps → P s → P (s + k)) : i.Keeps m P := by
  -- 一文字を調べる命令は、その文字の終わりへ進む。
  have hchar {s t : Nat} {n : Option Nat} (hs : P s)
      (hn : ∀ k, n = some k → s < m.text.size ∧ s + k = m.encoding.nextHead m.text s)
      (h : n.map (s + ·) = some t) : P t := by
    obtain ⟨k, hk, rfl⟩ := Option.map_eq_some_iff.1 h
    obtain ⟨hlt, heq⟩ := hn k hk
    exact heq ▸ hnext s hlt hs
  have hlength {s : Nat} (hlt : s < m.text.size) :
      s + m.encoding.lengthAt m.text s = m.encoding.nextHead m.text s := (Encoding.nextHead_eq _ hlt).symm
  -- 幅のない検査は、位置を動かさない。
  have hstay {ok : Bool} {s t : Nat} (hs : P s) (h : (if ok then some s else none) = some t) : P t := by
    cases ok <;> cases h
    exact hs
  cases i with
  | anyStar newline peek => exact hnext
  | pushLookBehindNot addr chars => exact hback chars
  | lookBehind chars =>
    intro _ caps s t h _ hs
    rw [CodeEnv.leafEnd?_lookBehind] at h
    exact hback chars s t h hs
  | exact form bytes =>
    intro _ caps s t h _ hs
    rw [leafEnd?_consume rfl] at h
    obtain ⟨k, hk, rfl⟩ := Option.map_eq_some_iff.1 h
    simp only [Option.ite_none_right_eq_some, Option.some.injEq] at hk
    obtain ⟨hat, rfl⟩ := hk
    exact hexact form bytes s rfl hat hs
  | exactFold one bytes =>
    intro _ caps s t h _ hs
    rw [leafEnd?_consume rfl] at h
    obtain ⟨k, hk, rfl⟩ := Option.map_eq_some_iff.1 h
    simp only [Option.ite_none_right_eq_some, Option.some.injEq] at hk
    obtain ⟨hat, rfl⟩ := hk
    exact hfold one bytes s rfl hat hs
  | inSet _ _ | inRanges _ _ | inEither _ _ _ =>
    intro _ caps s t h _ hs
    rw [leafEnd?_consume rfl] at h
    exact hchar hs (fun k hk => classEnd_eq hk) h
  | any newline =>
    intro _ caps s t h _ hs
    rw [leafEnd?_any, Setting.anyEnd?] at h
    split at h
    · cases h
    · rename_i b hb
      simp only [Option.ite_none_left_eq_some, Option.some.injEq] at h
      have hlt : s < m.text.size := (Array.getElem?_eq_some_iff.1 hb).1
      obtain ⟨-, rfl⟩ := h
      exact (hlength hlt).symm ▸ hnext s hlt hs
  | word isWord =>
    intro _ caps s t h _ hs
    rw [leafEnd?_word] at h
    simp only [Option.ite_none_right_eq_some, Option.some.injEq] at h
    obtain ⟨⟨hlt, -⟩, rfl⟩ := h
    exact (hlength hlt).symm ▸ hnext s hlt hs
  | backref n fold =>
    intro _ caps s t h hcaps hs
    rw [leafEnd?_backref] at h
    obtain ⟨k, hk, rfl⟩ := Option.map_eq_some_iff.1 h
    exact href caps fold n s k hk hcaps hs
  | fail => intro _ caps s t h; cases h
  | _ =>
    intro hl caps s t h _ hs
    first
      | cases hl; done
      | rw [leafEnd?_check rfl] at h
        exact hstay hs h

/-- 途中で切れた文字を含まない命令は、切れ目から切れ目へ進む。 -/
theorem keeps_head (hw : m.encoding.isWellFormed m.text.toList)
    (hkeeps : m.program.fold.KeepsWidth m.encoding) {i : Instruction} (hi : i.isWhole m.encoding) :
    i.Keeps m (m.encoding.Head m.text) := by
  refine keeps_of (fun s hlt hs => hs.next hw hlt) (fun chars s p hp hs => (Encoding.stepBack_spec hw hs hp).1)
    (fun form bytes s he hat hs => ?_) (fun one bytes s he hat hs => ?_)
    fun caps ignoreCase n s k hk hcaps hs => backrefLength_head hw hkeeps hcaps hs hk
  · subst he
    exact hasAt_head hw hi hs hat
  · subst he
    exact hasFoldedAt_head hw hkeeps hi hs hat

/-- どの命令も、本文の外へは進まない。 -/
theorem keeps_within (i : Instruction) : i.Keeps m (· ≤ m.text.size) := by
  refine keeps_of (fun s hlt hs => ?_) (fun chars s p hp hs => Nat.le_trans (Encoding.stepBack_le hp) hs)
    (fun form bytes s _ hat _ => Text.hasAt_le hat) (fun one bytes s _ hat _ => Text.hasFoldedAt_le hat)
    fun caps ignoreCase n s k hk _ _ => Captures.backrefLength_le hk
  rw [Encoding.nextHead_eq _ hlt]
  exact Encoding.lengthAt_le _ _ _ hs

/-- 本文の中から始めた照合は、本文の中に留まる。 -/
theorem Reachable.within {origin : Nat} {r : Registers} (h : m.Reachable origin r) (ho : origin ≤ m.text.size) :
    r.pos ≤ m.text.size :=
  (h.positions (fun i _ => keeps_within i) ho).pos

end Matcher

/-! ## 生成した命令 -/

namespace Node

mutual
/-- どの文字列も `p` を満たす。 -/
def allLiterals (p : List UInt8 → Bool) : Node → Bool
  | .list nodes => allLiteralsIn p nodes
  | .alt nodes => allLiteralsIn p nodes
  | .str bytes => p bytes
  | .raw bytes => p bytes
  | .loop _ body => body.allLiterals p
  | .scoped _ body => body.allLiterals p
  | .group _ body => body.allLiterals p
  | _ => true

def allLiteralsIn (p : List UInt8 → Bool) : List Node → Bool
  | [] => true
  | n :: ns => n.allLiterals p && allLiteralsIn p ns
end

mutual
theorem allLiterals_of_forall {p : List UInt8 → Bool} (h : ∀ bytes, p bytes) : (n : Node) → n.allLiterals p
  | .list ns => allLiteralsIn_of_forall h ns
  | .alt ns => allLiteralsIn_of_forall h ns
  | .str bytes => h bytes
  | .raw bytes => h bytes
  | .loop _ body => allLiterals_of_forall h body
  | .scoped _ body => allLiterals_of_forall h body
  | .group _ body => allLiterals_of_forall h body
  | .empty | .cclass _ | .word _ | .any | .anchor _ | .backref _ => rfl

theorem allLiteralsIn_of_forall {p : List UInt8 → Bool} (h : ∀ bytes, p bytes) :
    (ns : List Node) → allLiteralsIn p ns
  | [] => rfl
  | n :: ns => Bool.and_eq_true_iff.2 ⟨allLiterals_of_forall h n, allLiteralsIn_of_forall h ns⟩
end

/-- 文字列がどれも、途中で切れた文字を含まない。 -/
def isWhole (e : Encoding) (n : Node) : Bool := n.allLiterals e.isWhole

def allWhole (e : Encoding) (ns : List Node) : Bool := allLiteralsIn e.isWhole ns

end Node

theorem Encoding.isWhole_of_isWholeChar {e : Encoding} {c : List UInt8} (h : e.isWholeChar c) :
    e.isWhole c := by
  cases c with
  | nil => cases h
  | cons b trail =>
    have hlen : e.width b = trail.length + 1 := by simpa [isWholeChar] using h
    have htake : e.takeChar b trail = (b :: trail, []) := by simp [takeChar, hlen]
    simp [isWhole, chars, htake, h]

namespace Literal

variable {e : Encoding}

/-- 同じ長さの文字の続きも、途中で切れた文字を含まない。 -/
theorem runs_whole {cs : List (List UInt8)} (h : cs.all e.isWholeChar) :
    ∀ r ∈ runs cs, e.isWhole r.2 ∧ (r.1 = 1 → r.2.all (e.width · == 1)) := by
  induction cs with
  | nil => exact fun r hr => by cases hr
  | cons c cs ih =>
    rw [List.all_cons, Bool.and_eq_true] at h
    have hc : e.isWhole c ∧ (c.length = 1 → c.all (e.width · == 1)) := by
      refine ⟨Encoding.isWhole_of_isWholeChar h.1, fun hlen => ?_⟩
      obtain ⟨b, rfl⟩ := List.length_eq_one_iff.1 hlen
      simpa [Encoding.isWholeChar] using h.1
    have hrest := ih h.2
    unfold runs
    split
    · rename_i width bytes more hruns
      rw [hruns] at hrest
      obtain ⟨hbytes, hmore⟩ := List.forall_mem_cons.1 hrest
      split
      · rename_i hwidth
        refine List.forall_mem_cons.2 ⟨⟨Encoding.isWhole_append hc.1 hbytes.1, fun h1 => ?_⟩, hmore⟩
        simp only [List.all_append, Bool.and_eq_true]
        exact ⟨hc.2 (hwidth ▸ h1), hbytes.2 h1⟩
      · exact List.forall_mem_cons.2 ⟨hc, hrest⟩
    · exact List.forall_mem_cons.2 ⟨hc, fun r hr => by cases hr⟩

theorem isWhole_code {fold : Option FoldTable} {bytes : List UInt8} (hf : ∀ t ∈ fold, t.KeepsWidth e)
    (h : e.isWhole bytes) : ∀ i ∈ code e fold bytes, i.isWhole e := by
  intro i hi
  obtain ⟨r, hr, rfl⟩ := List.mem_map.1 hi
  obtain ⟨hwhole, hone⟩ := runs_whole h r hr
  unfold instruction
  split
  · rename_i t
    split
    · rename_i hwidth
      have hbytes := hone hwidth
      simp only [List.all_eq_true, beq_iff_eq] at hbytes
      simp only [Instruction.isWhole, FoldTable.foldAll, List.all_map, List.all_eq_true,
        Function.comp_apply, beq_iff_eq]
      exact fun b hb => (hf t rfl b).trans (hbytes b hb)
    · exact hwhole
  · exact hwhole

end Literal

theorem Instruction.isWhole_of_isControl {e : Encoding} {i : Instruction} (h : i.isControl) : i.isWhole e := by
  cases i <;> first | rfl | cases h

namespace CodeEnv

variable {env : CodeEnv}

mutual
/-- 途中で切れた文字列を持たない節からは、そうした命令しか生成しない。 -/
theorem emit_whole (hf : ∀ t ∈ env.fold, t.KeepsWidth env.encoding) : (n : Node) → {options : Options} →
    n.isWhole env.encoding → (env.emit options n).Only (·.isWhole env.encoding)
  | .empty, _, _ => .nil
  | .list ns, _, h => emitList_whole hf ns h
  | .alt ns, _, h => emitAlt_whole hf ns h
  | .str bytes, options, h => by
    intro c c' code hc
    obtain ⟨fold, hfold, hc⟩ := Except.bind_eq_ok hc
    cases hc
    refine Literal.isWhole_code (fun t ht => hf t ?_) h
    unfold foldFor at hfold
    split at hfold
    · split at hfold
      · cases hfold
        cases ht
        assumption
      · cases hfold
    · cases hfold
      cases ht
  | .raw bytes, _, h => by
    intro c c' code hc
    cases hc
    exact Literal.isWhole_code (fun t ht => by cases ht) h
  | .cclass c, _, _ => by
    refine .instr ?_
    unfold classInstruction
    dsimp only
    repeat' split
    all_goals rfl
  | .word _, _, _ => .instr rfl
  | .any, _, _ => .instr rfl
  | .anchor a, _, _ => .instr (by cases a <;> rfl)
  | .backref _, _, _ => .instr rfl
  | .scoped _ body, _, h => emit_whole hf body h
  | .loop l body, _, h => by
    refine emit_loop_only (fun _ => Instruction.isWhole_of_isControl) (emit_whole hf body h) (fun addr => ?_)
      fun _ => rfl
    unfold Emit.enter
    split <;> rfl
  | .group _ body, _, h =>
    emit_group_only (fun _ => Instruction.isWhole_of_isControl) (emit_whole hf body h) fun _ _ _ => ⟨rfl, rfl⟩

theorem emitList_whole (hf : ∀ t ∈ env.fold, t.KeepsWidth env.encoding) : (ns : List Node) →
    {options : Options} → Node.allWhole env.encoding ns →
    Emit.Only (·.isWhole env.encoding) (env.emitList options ns)
  | [], _, _ => .nil
  | n :: ns, _, h => by
    obtain ⟨hn, hns⟩ := Bool.and_eq_true_iff.1 h
    exact (emit_whole hf n hn).append (emitList_whole hf ns hns)

theorem emitAlt_whole (hf : ∀ t ∈ env.fold, t.KeepsWidth env.encoding) : (ns : List Node) →
    {options : Options} → Node.allWhole env.encoding ns →
    Emit.Only (·.isWhole env.encoding) (env.emitAlt options ns)
  | [], _, _ => .nil
  | [n], _, h => emit_whole hf n (Bool.and_eq_true_iff.1 h).1
  | n :: n' :: ns, _, h => by
    obtain ⟨hn, hns⟩ := Bool.and_eq_true_iff.1 h
    exact emitAlt_cons_only (fun _ => Instruction.isWhole_of_isControl) (emit_whole hf n hn)
      (emitAlt_whole hf (n' :: ns) hns)
end

end CodeEnv

end MultibyteRegex

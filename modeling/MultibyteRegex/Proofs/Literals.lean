import MultibyteRegex.Proofs.Dividing
import MultibyteRegex.Proofs.Extremes

/-!
# 文字列の命令

文字列の命令は、文字列を文字に分け、同じ幅の続きごとに切ったものである。順に実行すると、文字が一つずつ本文に並ぶ
ときに限って、どれも合う。
-/

namespace MultibyteRegex

namespace LiteralForm

/-- 一文字の幅。 -/
def width : LiteralForm → Nat
  | .one | .two | .three | .four | .five | .many => 1
  | .wide2One | .wide2Two | .wide2Three | .wide2Many => 2
  | .wide3Many => 3
  | .wideMany width => width

/-- 決まったバイト数だけを持つ形の、そのバイト数。 -/
def size? : LiteralForm → Option Nat
  | .one => some 1
  | .two => some 2
  | .three => some 3
  | .four => some 4
  | .five => some 5
  | .wide2One => some 2
  | .wide2Two => some 4
  | .wide2Three => some 6
  | _ => none

end LiteralForm

namespace Encoding

variable {e : Encoding} {bytes c : List UInt8} {a b : List (List UInt8)}

theorem ne_nil_of_mem_chars (h : c ∈ e.chars bytes) : c ≠ [] := by
  fun_induction chars e bytes with
  | case1 => cases h
  | case2 b rest ih =>
    rcases List.mem_cons.1 h with rfl | h
    · exact List.cons_ne_nil _ _
    · exact ih h

/-- 文字に分けた列をどこで切っても、それぞれは元と同じに分かれる。末尾で切れた文字は、列の最後にしかない。 -/
theorem chars_flatten_of_append (h : e.chars bytes = a ++ b) :
    e.chars a.flatten = a ∧ e.chars b.flatten = b := by
  fun_induction chars e bytes generalizing a with
  | case1 =>
    obtain ⟨rfl, rfl⟩ := List.append_eq_nil_iff.1 h.symm
    exact ⟨by simp [chars], by simp [chars]⟩
  | case2 lead rest ih =>
    cases a with
    | nil =>
      refine ⟨by simp [chars], ?_⟩
      rw [List.nil_append] at h
      rw [← h, ← chars, flatten_chars, chars]
    | cons c a =>
      rw [List.cons_append, List.cons.injEq] at h
      obtain ⟨rfl, h⟩ := h
      obtain ⟨ha, hb⟩ := ih h
      have htake : e.takeChar lead (rest.take (e.width lead - 1) ++ a.flatten) =
          ((e.takeChar lead rest).1, a.flatten) := by
        by_cases hlen : e.width lead - 1 ≤ rest.length
        · simp [takeChar, hlen]
        · -- 末尾で切れた文字の後には、何も残らない。
          have hnil : a = [] := by
            simp only [takeChar, List.drop_eq_nil_of_le (Nat.le_of_not_le hlen), chars] at h
            exact (List.append_eq_nil_iff.1 h.symm).1
          simp [takeChar, hnil, List.take_take, List.drop_eq_nil_of_le (Nat.le_of_not_le hlen)]
      refine ⟨?_, hb⟩
      rw [List.flatten_cons, takeChar, List.cons_append, chars, htake, ha]
      rfl

end Encoding

namespace Literal

/-- 表があれば、写してから比べる。 -/
def image : Option FoldTable → UInt8 → UInt8
  | some t => t.fold
  | none => id

/-- 一文字 `char` が `s` から並ぶ。一バイトの文字だけを写してから比べる。 -/
def CharAt (fold : Option FoldTable) (text : Text) (char : List UInt8) (s : Nat) : Prop :=
  let fold := if char.length = 1 then fold else none
  ∀ i (hi : i < char.length), (text[s + i]?).map (image fold) = some (image fold char[i])

/-- 文字列を分けた文字が、`s` から順に並ぶ。 -/
def Spelled (e : Encoding) (fold : Option FoldTable) (text : Text) (bytes : List UInt8) (s : Nat) : Prop :=
  s + bytes.length ≤ text.size ∧ ∀ before c after, e.chars bytes = before ++ c :: after →
    CharAt fold text c (s + before.flatten.length)

end Literal

namespace Setting

variable {x : Setting} {ignoreCase : Bool} {fold : Option FoldTable} {s t : Nat} {c : List UInt8}

theorem charEnd?_iff (hf : fold = if ignoreCase then some x.fold else none) :
    x.charEnd? ignoreCase c s = some t ↔
      t = s + c.length ∧ s + c.length ≤ x.text.size ∧ Literal.CharAt fold x.text c s := by
  have hsame : (if ignoreCase && c.length == 1 then x.text.hasFoldedAt x.fold (x.fold.foldAll c) s
      else x.text.hasAt c s) = true ↔ s + c.length ≤ x.text.size ∧ Literal.CharAt fold x.text c s := by
    subst hf
    by_cases hone : c.length = 1 <;> cases ignoreCase <;>
      simp [Literal.CharAt, Literal.image, hone, Text.hasAt_eq_hasFoldedAt, Text.hasFoldedAt_iff_getElem?,
        FoldTable.foldAll]
  simp only [charEnd?_eq, Option.ite_none_right_eq_some, Option.some.injEq, hsame]
  constructor
  · rintro ⟨h, rfl⟩
    exact ⟨rfl, h⟩
  · rintro ⟨rfl, h⟩
    exact ⟨h, rfl⟩

theorem charsEnd?_iff (hf : fold = if ignoreCase then some x.fold else none) (cs : List (List UInt8))
    (hs : s ≤ x.text.size) : x.charsEnd? ignoreCase cs s = some t ↔ t = s + cs.flatten.length ∧
      s + cs.flatten.length ≤ x.text.size ∧ ∀ before c after, cs = before ++ c :: after →
        Literal.CharAt fold x.text c (s + before.flatten.length) := by
  induction cs generalizing s with
  | nil => simp [charsEnd?, eq_comm, hs]
  | cons c cs ih =>
    simp only [charsEnd?, Option.bind_eq_some_iff, charEnd?_iff hf]
    constructor
    · rintro ⟨_, ⟨rfl, hle, hc⟩, hrest⟩
      obtain ⟨rfl, hle, hall⟩ := (ih hle).1 hrest
      refine ⟨by simp [Nat.add_assoc], by simpa [Nat.add_assoc] using hle, fun before c' after heq => ?_⟩
      cases before with
      | nil =>
        obtain ⟨rfl, -⟩ := List.cons.inj heq
        exact hc
      | cons b before =>
        obtain ⟨rfl, htail⟩ := List.cons.inj heq
        simpa [Nat.add_assoc] using hall before c' after htail
    · rintro ⟨rfl, hle, hall⟩
      rw [List.flatten_cons, List.length_append] at hle
      refine ⟨_, ⟨rfl, by omega, hall [] c cs rfl⟩, (ih (by omega)).2 ⟨by simp [Nat.add_assoc], by omega, ?_⟩⟩
      intro before c' after heq
      simpa [Nat.add_assoc] using hall (c :: before) c' after (by rw [heq]; rfl)

end Setting

/-! ## 切り分け -/

namespace Literal

variable {e : Encoding} {fold : Option FoldTable} {bytes : List UInt8}

theorem width_form {width : Nat} (h : width ≠ 0) (count : Nat) : (form width count).width = width := by
  unfold form
  split <;> simp_all [LiteralForm.width]

theorem eq_of_size?_form {width count n : Nat} (h : (form width count).size? = some n) : count = n := by
  unfold form at h
  split at h <;> simp_all [LiteralForm.size?]

theorem exists_groups (cs : List (List UInt8)) : ∃ gs : List (Nat × List (List UInt8)),
    (gs.map (·.2)).flatten = cs ∧ runs cs = gs.map (fun g => (g.1, g.2.flatten)) ∧
      (∀ g ∈ gs, g.2 ≠ [] ∧ ∀ c ∈ g.2, c.length = g.1) ∧ (gs.map (·.1)).IsChain (· ≠ ·) := by
  induction cs with
  | nil => exact ⟨[], by simp [runs]⟩
  | cons c cs ih =>
    obtain ⟨gs, hflatten, hruns, hgroups, hchain⟩ := ih
    cases gs with
    | nil => exact ⟨[(c.length, [c])], by simpa using hflatten, by simp [runs, hruns], by simp, by simp⟩
    | cons g gs =>
      obtain ⟨width, g⟩ := g
      obtain ⟨⟨hne, hlen⟩, hgroups⟩ := List.forall_mem_cons.1 hgroups
      rw [List.map_cons] at hruns
      by_cases hw : width = c.length
      · refine ⟨(width, c :: g) :: gs, by simpa using hflatten, by simp [runs, hruns, hw],
          List.forall_mem_cons.2 ⟨⟨List.cons_ne_nil _ _, List.forall_mem_cons.2 ⟨hw.symm, hlen⟩⟩, hgroups⟩, hchain⟩
      · refine ⟨(c.length, [c]) :: (width, g) :: gs, by simpa using hflatten, by simp [runs, hruns, hw],
          List.forall_mem_cons.2 ⟨by simp, List.forall_mem_cons.2 ⟨⟨hne, hlen⟩, hgroups⟩⟩, ?_⟩
        exact List.isChain_cons_cons.2 ⟨Ne.symm hw, hchain⟩

/-- 表がなければ、命令は文字列を切り分けたもので、一つの命令は同じ幅の文字を持ち、隣の命令とは幅が違う。 -/
theorem exists_parts (e : Encoding) (bytes : List UInt8) : ∃ parts : List (LiteralForm × List UInt8),
    code e none bytes = parts.map (fun p => .exact p.1 p.2) ∧ (parts.map (·.2)).flatten = bytes ∧
      (parts.map (·.1.width)).IsChain (· ≠ ·) ∧
      ∀ p ∈ parts, p.2 ≠ [] ∧ (∀ c ∈ e.chars p.2, c.length = p.1.width) ∧ ∀ n ∈ p.1.size?, p.2.length = n := by
  obtain ⟨gs, hflatten, hruns, hgroups, hchain⟩ := exists_groups (e.chars bytes)
  have hwidth : ∀ g ∈ gs, (form g.1 g.2.flatten.length).width = g.1 := fun g hg => by
    obtain ⟨hne, hlen⟩ := hgroups g hg
    obtain ⟨c, hc⟩ := List.exists_mem_of_ne_nil _ hne
    refine width_form (fun h0 => ?_) _
    have hmem : c ∈ e.chars bytes := hflatten ▸ List.mem_flatten.2 ⟨g.2, List.mem_map_of_mem hg, hc⟩
    exact Encoding.ne_nil_of_mem_chars hmem (List.eq_nil_of_length_eq_zero ((hlen c hc).trans h0))
  refine ⟨gs.map fun g => (form g.1 g.2.flatten.length, g.2.flatten), ?_, ?_, ?_, ?_⟩
  · simp [code, hruns, instruction]
  · have hbytes := (congrArg List.flatten hflatten).trans (e.flatten_chars bytes)
    rw [List.flatten_flatten, List.map_map] at hbytes
    rw [List.map_map]
    exact hbytes
  · rw [List.map_map, List.map_congr_left (g := (·.1)) hwidth]
    exact hchain
  · rintro p hp
    obtain ⟨g, hg, rfl⟩ := List.mem_map.1 hp
    obtain ⟨hne, hlen⟩ := hgroups g hg
    obtain ⟨before, after, rfl⟩ := List.append_of_mem hg
    have hchars : e.chars g.2.flatten = g.2 := by
      have happend : e.chars bytes = (before.map (·.2)).flatten ++ (g.2 ++ (after.map (·.2)).flatten) := by
        rw [← hflatten]
        simp
      exact (Encoding.chars_flatten_of_append (Encoding.chars_flatten_of_append happend).2).1
    refine ⟨fun hnil => ?_, fun c hc => ?_, fun n hn => eq_of_size?_form hn⟩
    · have hflat : g.2.flatten = [] := hnil
      rw [hflat, Encoding.chars] at hchars
      exact hne hchars.symm
    · rw [hwidth g hg]
      exact hlen c (hchars ▸ hc)

end Literal

/-! ## 実行 -/

namespace Matcher

variable {m : Matcher} {origin : Nat} {fold : Option FoldTable} {bytes : List UInt8} {e : Encoding}

/-- 命令を順に実行し、どれも合った後の状態。合わない命令があれば、そこで止まって先はない。 -/
def executeAll (m : Matcher) (origin : Nat) : List Instruction → Registers → Except EvalError (Option Registers)
  | [], r => .ok (some r)
  | i :: is, r =>
    match m.execute origin i r with
    | .ok (.go r) => m.executeAll origin is r
    | .ok _ => .ok none
    | .error e => .error e

variable {is : List Instruction} {r r' : Registers}

theorem executeAll_leaf (hleaf : ∀ i ∈ is, i.isLeaf) : m.executeAll origin is r =
    .ok ((m.pathEnd? r.caps is r.pos).map fun t => { r with pc := r.pc + is.length, pos := t }) := by
  induction is generalizing r with
  | nil => rfl
  | cons i is ih =>
    obtain ⟨hi, hleaf⟩ := List.forall_mem_cons.1 hleaf
    rw [executeAll, execute_leaf hi, pathEnd?]
    cases m.leafEnd? i r.caps r.pos with
    | none => rfl
    | some t => simp [ih hleaf, Registers.moveTo, Nat.add_assoc, Nat.add_comm 1]

theorem run_of_executeAll (hleaf : ∀ i ∈ is, i.isLeaf) (hcode : CodeAt m.program r.pc is)
    (h : m.executeAll origin is r = .ok (some r')) (fuel : Nat) :
    m.run origin (is.length + fuel) r = m.run origin fuel r' := by
  induction is generalizing r with
  | nil =>
    cases h
    rw [List.length_nil, Nat.zero_add]
  | cons i is ih =>
    obtain ⟨hi, hleaf⟩ := List.forall_mem_cons.1 hleaf
    rw [executeAll] at h
    rw [List.length_cons, Nat.add_right_comm, run, step, hcode.head]
    dsimp only
    rw [execute_leaf hi] at h ⊢
    cases hend : m.leafEnd? i r.caps r.pos with
    | none =>
      rw [hend] at h
      cases h
    | some t =>
      rw [hend] at h
      exact ih hleaf hcode.tail h

/-- プログラムに並んだ命令に合わないものがあれば、機械は、積み重ねと捕獲を変えずに、そこから後戻りする。 -/
theorem run_of_executeAll_none (hleaf : ∀ i ∈ is, i.isLeaf) (hcode : CodeAt m.program r.pc is)
    (h : m.executeAll origin is r = .ok none) : ∃ k < is.length, ∃ t i, is[k]? = some i ∧
      (∀ fuel, m.run origin (k + fuel) r = m.run origin fuel { r with pc := r.pc + k, pos := t }) ∧
      m.execute origin i { r with pc := r.pc + k, pos := t } = .ok (.fail { r with pc := r.pc + k, pos := t }) := by
  induction is generalizing r with
  | nil => cases h
  | cons i is ih =>
    obtain ⟨hi, hleaf⟩ := List.forall_mem_cons.1 hleaf
    rw [executeAll, execute_leaf hi] at h
    cases hend : m.leafEnd? i r.caps r.pos with
    | none =>
      refine ⟨0, Nat.succ_pos _, r.pos, i, rfl, fun fuel => by rw [Nat.zero_add]; rfl, ?_⟩
      have hx := execute_leaf (m := m) hi origin r
      rw [hend] at hx
      exact hx
    | some t =>
      rw [hend] at h
      obtain ⟨k, hk, u, j, hj, hrun, hfail⟩ := ih (r := r.moveTo t) hleaf hcode.tail h
      refine ⟨k + 1, Nat.succ_lt_succ hk, u, j, hj, fun fuel => ?_, ?_⟩
      · rw [Nat.add_right_comm, run, step, hcode.head]
        dsimp only
        rw [execute_leaf hi, hend]
        dsimp only
        rw [hrun]
        simp [Registers.moveTo, Nat.add_assoc, Nat.add_comm 1]
      · simpa [Registers.moveTo, Nat.add_assoc, Nat.add_comm 1] using hfail

end Matcher

namespace Literal

variable {m : Matcher} {r : Registers}

theorem executeAll_code (e : Encoding) (fold : Option FoldTable) (bytes : List UInt8) (origin : Nat)
    (hfold : ∀ t ∈ fold, m.program.fold = t) (hr : r.pos ≤ m.text.size) :
    ∃ end? : Option Nat, m.executeAll origin (code e fold bytes) r =
        .ok (end?.map fun t => { r with pc := r.pc + (code e fold bytes).length, pos := t }) ∧
      ∀ t, end? = some t ↔ t = r.pos + bytes.length ∧ Spelled e fold m.text bytes r.pos := by
  have hignore : fold = if fold.isSome then some m.program.fold else none := by
    cases fold with
    | none => rfl
    | some t => simp [hfold t rfl]
  refine ⟨_, Matcher.executeAll_leaf (isLeaf_code e fold bytes), fun t => ?_⟩
  have hiff := Setting.charsEnd?_iff (x := m.setting) (t := t) hignore (e.chars bytes) hr
  rw [e.flatten_chars] at hiff
  rw [code, Matcher.pathEnd?_runs fold.isSome hignore]
  exact hiff

theorem length_code_le (e : Encoding) (fold : Option FoldTable) (bytes : List UInt8) :
    (code e fold bytes).length ≤ bytes.length := by
  rw [code, List.length_map]
  exact Nat.le_trans (Node.length_runs_le _) (Node.length_chars_le e bytes)

/-- 文字列の命令はバイト数より多くない。文字が順に並ぶときに限ってどれも合い、位置は文字列の終わりへ進む。並ばなければ、
合わない命令で後戻りする。表がなければ、命令は文字列を切り分けたもので、隣どうしの幅が違う。 -/
theorem executeAll_code_iff (e : Encoding) (fold : Option FoldTable) (bytes : List UInt8) (origin : Nat)
    (hfold : ∀ t ∈ fold, m.program.fold = t) (hr : r.pos ≤ m.text.size) :
    (code e fold bytes).length ≤ bytes.length ∧
    (∀ r', m.executeAll origin (code e fold bytes) r = .ok (some r') ↔ Spelled e fold m.text bytes r.pos ∧
      r' = { r with pc := r.pc + (code e fold bytes).length, pos := r.pos + bytes.length }) ∧
    (m.executeAll origin (code e fold bytes) r = .ok none ↔ ¬Spelled e fold m.text bytes r.pos) ∧
    (CodeAt m.program r.pc (code e fold bytes) →
      (Spelled e fold m.text bytes r.pos → ∀ fuel, m.run origin ((code e fold bytes).length + fuel) r =
        m.run origin fuel { r with pc := r.pc + (code e fold bytes).length, pos := r.pos + bytes.length }) ∧
      (¬Spelled e fold m.text bytes r.pos → ∃ k < (code e fold bytes).length, ∃ t i,
        (code e fold bytes)[k]? = some i ∧
        (∀ fuel, m.run origin (k + fuel) r = m.run origin fuel { r with pc := r.pc + k, pos := t }) ∧
        m.execute origin i { r with pc := r.pc + k, pos := t } =
          .ok (.fail { r with pc := r.pc + k, pos := t }))) ∧
    ∃ parts : List (LiteralForm × List UInt8), code e none bytes = parts.map (fun p => .exact p.1 p.2) ∧
      (parts.map (·.2)).flatten = bytes ∧ (parts.map (·.1.width)).IsChain (· ≠ ·) ∧
      ∀ p ∈ parts, p.2 ≠ [] ∧ (∀ c ∈ e.chars p.2, c.length = p.1.width) ∧ ∀ n ∈ p.1.size?, p.2.length = n := by
  obtain ⟨end?, hexec, hend⟩ := executeAll_code e fold bytes origin hfold hr
  have hleaf := isLeaf_code e fold bytes
  have hsucceeds (h : Spelled e fold m.text bytes r.pos) : m.executeAll origin (code e fold bytes) r =
      .ok (some { r with pc := r.pc + (code e fold bytes).length, pos := r.pos + bytes.length }) := by
    rw [hexec, (hend _).2 ⟨rfl, h⟩]
    rfl
  have hfails (h : ¬Spelled e fold m.text bytes r.pos) :
      m.executeAll origin (code e fold bytes) r = .ok none := by
    rw [hexec, Option.eq_none_iff_forall_ne_some.2 fun t ht => h ((hend t).1 ht).2]
    rfl
  refine ⟨length_code_le e fold bytes, fun r' => ⟨fun h => ?_, ?_⟩, ⟨fun h hspelled => ?_, hfails⟩,
    fun hcode => ⟨fun h => Matcher.run_of_executeAll hleaf hcode (hsucceeds h),
      fun h => Matcher.run_of_executeAll_none hleaf hcode (hfails h)⟩, exists_parts e bytes⟩
  · by_cases hspelled : Spelled e fold m.text bytes r.pos
    · rw [hsucceeds hspelled] at h
      exact ⟨hspelled, (Option.some.inj (Except.ok.inj h)).symm⟩
    · rw [hfails hspelled] at h
      cases h
  · rintro ⟨hspelled, rfl⟩
    exact hsucceeds hspelled
  · rw [hsucceeds hspelled] at h
    cases h

/-- 文字列の命令だけを並べたプログラムを走らせる機械。 -/
def machine (e : Encoding) (fold : FoldTable) (bytes : List UInt8) (text : Text) : Matcher where
  program :=
    { code := (code e (some fold) bytes).toArray, encoding := e, options := .none, fold, groups := 0, repeats := #[],
      nullChecks := 0 }
  text
  searchStart := 0
  options := .none
  limits := .unlimited

/-- 幅の違う四つの続きに分かれ、末尾の文字が切れている例。一バイトの文字だけが、大文字と小文字を区別しない。 -/
theorem executeAll_code_iff_clipped :
    code .utf8 (some .ascii) [0x41, 0xe3, 0x81, 0x82, 0x62, 0xe3, 0x81] = [.exactFold true [0x61],
      .exact .wide3Many [0xe3, 0x81, 0x82], .exactFold true [0x62], .exact .wide2One [0xe3, 0x81]] ∧
    Spelled .utf8 (some .ascii) #[0x2e, 0x61, 0xe3, 0x81, 0x82, 0x42, 0xe3, 0x81, 0x84]
      [0x41, 0xe3, 0x81, 0x82, 0x62, 0xe3, 0x81] 1 ∧
    ¬Spelled .utf8 (some .ascii) #[0x61, 0xe3, 0x81, 0x83, 0x42, 0xe3, 0x81]
      [0x41, 0xe3, 0x81, 0x82, 0x62, 0xe3, 0x81] 0 ∧
    ∀ fuel, (machine .utf8 .ascii [0x41, 0xe3, 0x81, 0x82, 0x62, 0xe3, 0x81]
        #[0x2e, 0x61, 0xe3, 0x81, 0x82, 0x42, 0xe3, 0x81, 0x84]).run 1 (4 + fuel) { pc := 0, pos := 1, caps := #[] } =
      (machine .utf8 .ascii [0x41, 0xe3, 0x81, 0x82, 0x62, 0xe3, 0x81]
        #[0x2e, 0x61, 0xe3, 0x81, 0x82, 0x42, 0xe3, 0x81, 0x84]).run 1 fuel { pc := 4, pos := 8, caps := #[] } := by
  have hcode : code .utf8 (some .ascii) [0x41, 0xe3, 0x81, 0x82, 0x62, 0xe3, 0x81] = [.exactFold true [0x61],
      .exact .wide3Many [0xe3, 0x81, 0x82], .exactFold true [0x62], .exact .wide2One [0xe3, 0x81]] := by
    have hchars : Encoding.utf8.chars [0x41, 0xe3, 0x81, 0x82, 0x62, 0xe3, 0x81] =
        [[0x41], [0xe3, 0x81, 0x82], [0x62], [0xe3, 0x81]] := by
      simp [Encoding.chars, Encoding.takeChar, Encoding.width]
    rw [code, hchars]
    decide
  obtain ⟨-, hsome, -, hrun, -⟩ := executeAll_code_iff .utf8 (some .ascii)
    [0x41, 0xe3, 0x81, 0x82, 0x62, 0xe3, 0x81] 1
    (m := machine .utf8 .ascii [0x41, 0xe3, 0x81, 0x82, 0x62, 0xe3, 0x81]
      #[0x2e, 0x61, 0xe3, 0x81, 0x82, 0x42, 0xe3, 0x81, 0x84])
    (r := { pc := 0, pos := 1, caps := #[] }) (by simp [machine]) (by decide)
  obtain ⟨-, -, hnone, -⟩ := executeAll_code_iff .utf8 (some .ascii)
    [0x41, 0xe3, 0x81, 0x82, 0x62, 0xe3, 0x81] 0
    (m := machine .utf8 .ascii [0x41, 0xe3, 0x81, 0x82, 0x62, 0xe3, 0x81]
      #[0x61, 0xe3, 0x81, 0x83, 0x42, 0xe3, 0x81])
    (r := { pc := 0, pos := 0, caps := #[] }) (by simp [machine]) (by decide)
  rw [hcode] at hsome hrun hnone
  have hspelled := ((hsome _).1 rfl).1
  have hplaced : CodeAt (machine .utf8 .ascii [0x41, 0xe3, 0x81, 0x82, 0x62, 0xe3, 0x81]
      #[0x2e, 0x61, 0xe3, 0x81, 0x82, 0x42, 0xe3, 0x81, 0x84]).program 0 [.exactFold true [0x61],
      .exact .wide3Many [0xe3, 0x81, 0x82], .exactFold true [0x62], .exact .wide2One [0xe3, 0x81]] := fun j i hj => by
    rw [Nat.zero_add, machine, List.getElem?_toArray, hcode]
    exact hj
  exact ⟨hcode, hspelled, hnone.1 rfl, (hrun hplaced).1 hspelled⟩

end Literal
end MultibyteRegex

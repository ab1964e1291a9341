import MultibyteRegex.Proofs.Comparing
import MultibyteRegex.Proofs.Repetition
import MultibyteRegex.Proofs.Safety

/-!
# 節の合い方と命令

節から生成した命令は、節の合い方を優先順に続きへ渡す。葉の命令は本文の一か所を葉と同じに調べ、他の節は子の
命令をつなぐ。取り消しのない書き込みは、書いたものを読まれる前に必ず書き直されるなら、見分けがつかない。
-/

namespace MultibyteRegex

/-- 戻った先は、元の位置を越えない。 -/
theorem Encoding.stepBack_le {e : Encoding} {text : Text} {start n pos p : Nat}
    (h : e.stepBack text start pos n = some p) : p ≤ pos := by
  induction n generalizing pos with
  | zero =>
    cases h
    exact Nat.le_refl _
  | succ n ih =>
    obtain ⟨q, hq, h⟩ := Option.bind_eq_some_iff.1 h
    exact Nat.le_trans (ih h) (Nat.le_of_lt (prevHead_lt hq))

/-! ## 文字の集まり -/

theorem ByteSet.eq_empty {s : ByteSet} (h : s.isEmpty) : s = .empty := by
  refine ByteSet.ext fun b => ?_
  have hb := (List.eq_nil_iff_forall_not_mem.1 (List.isEmpty_iff.1 h)) b
  simpa [toList, mem_allBytes] using hb

/-- 一バイトの符号化では、多バイトの区間は使わない。 -/
theorem CharClass.matchAt_code (c : CharClass) (e : Encoding) (text : Text) (s : Nat) :
    CharClass.matchAt ⟨c.bytes, if e.isSingleByte then [] else c.ranges, c.negated⟩ e text s =
      c.matchAt e text s := by
  by_cases he : e.isSingleByte
  · obtain rfl : e = .ascii := by simpa [Encoding.isSingleByte] using he
    have hcode : isSingle .ascii (Encoding.ascii.codeAt text s) := by
      unfold Encoding.codeAt Encoding.decode
      split
      · rfl
      · rename_i b rest _
        have := b.toNat_lt
        simp [isSingle, Encoding.width]
        omega
    simp [matchAt, contains, hcode]
  · simp [he]

/-! ## 文字列 -/

namespace Setting

/-- 同じ幅 `width` の文字の続きが `s` から並ぶなら、その終わり。 -/
def runEnd? (x : Setting) (ignoreCase : Bool) (width : Nat) (bytes : List UInt8) (s : Nat) :
    Option Nat :=
  let same := if ignoreCase && width == 1 then x.text.hasFoldedAt x.fold (x.fold.foldAll bytes) s
    else x.text.hasAt bytes s
  if same then some (s + bytes.length) else none

variable {x : Setting} {ignoreCase : Bool} {width s : Nat}

theorem charEnd?_eq_runEnd? (c : List UInt8) : x.charEnd? ignoreCase c s = x.runEnd? ignoreCase c.length c s :=
  charEnd?_eq c

theorem runEnd?_append {a b : List UInt8} : x.runEnd? ignoreCase width (a ++ b) s =
    (x.runEnd? ignoreCase width a s).bind (x.runEnd? ignoreCase width b) := by
  unfold runEnd?
  by_cases h : ignoreCase && width == 1
  · by_cases ha : x.text.hasFoldedAt x.fold (x.fold.foldAll a) s
    · simp [h, FoldTable.foldAll, List.map_append, Text.hasFoldedAt_append] at ha ⊢
      simp [ha, Nat.add_assoc]
    · simp [h, FoldTable.foldAll, List.map_append, Text.hasFoldedAt_append] at ha ⊢
      simp [ha]
  · by_cases ha : x.text.hasAt a s <;> simp [h, Text.hasAt_append, ha, Nat.add_assoc]

end Setting

namespace Matcher

variable {m : Matcher} {caps : Captures} {s : Nat} {fold : Option FoldTable}

theorem leafEnd?_literal (ignoreCase : Bool) (hf : fold = if ignoreCase then some m.program.fold else none) (width : Nat)
    (bytes : List UInt8) : m.leafEnd? (Literal.instruction fold width bytes) caps s =
      m.setting.runEnd? ignoreCase width bytes s := by
  subst hf
  cases ignoreCase
  · simp only [Literal.instruction, leafEnd?, execute, Setting.runEnd?, setting]
    by_cases h : m.text.hasAt bytes s <;> simp [h, Move.consume, Registers.moveTo]
  · by_cases hw : width = 1
    · have hlen : (m.program.fold.foldAll bytes).length = bytes.length := List.length_map _
      simp only [Literal.instruction, hw, leafEnd?, execute, Setting.runEnd?, setting]
      by_cases h : m.text.hasFoldedAt m.program.fold (m.program.fold.foldAll bytes) s <;>
        simp [h, hlen, Move.consume, Registers.moveTo]
    · simp only [Literal.instruction, leafEnd?, execute, Setting.runEnd?, setting]
      by_cases h : m.text.hasAt bytes s <;> simp [h, hw, Move.consume, Registers.moveTo]

/-- 文字列の命令は、文字を順に比べる。 -/
theorem pathEnd?_runs (ignoreCase : Bool) (hf : fold = if ignoreCase then some m.program.fold else none)
    (cs : List (List UInt8)) :
    m.pathEnd? caps ((Literal.runs cs).map fun r => Literal.instruction fold r.1 r.2) s =
      m.setting.charsEnd? ignoreCase cs s := by
  induction cs generalizing s with
  | nil => rfl
  | cons c cs ih =>
    rw [Setting.charsEnd?, Setting.charEnd?_eq_runEnd?]
    cases hr : Literal.runs cs with
    | nil =>
      simp only [hr, List.map_nil, pathEnd?] at ih
      simp only [Literal.runs, hr, List.map_cons, List.map_nil, pathEnd?, leafEnd?_literal ignoreCase hf]
      exact Option.bind_congr fun t _ => ih
    | cons r more =>
      obtain ⟨width, bytes⟩ := r
      simp only [hr, List.map_cons, pathEnd?, leafEnd?_literal ignoreCase hf] at ih
      by_cases hw : width = c.length
      · simp only [Literal.runs, hr, hw, if_true, List.map_cons, pathEnd?, leafEnd?_literal ignoreCase hf,
          Setting.runEnd?_append, Option.bind_assoc]
        exact Option.bind_congr fun t _ => hw ▸ ih
      · simp only [Literal.runs, hr, hw, if_false, List.map_cons, pathEnd?, leafEnd?_literal ignoreCase hf]
        exact Option.bind_congr fun t _ => ih

/-! ## 一文字と検査 -/

theorem leafEnd?_class (c : CharClass) : m.leafEnd? (classInstruction m.encoding c) caps s =
    (c.matchAt m.encoding m.text s).map (s + ·) := by
  rw [← CharClass.matchAt_code]
  unfold classInstruction
  dsimp only
  generalize (if m.encoding.isSingleByte then [] else c.ranges) = ranges
  by_cases hr : ranges.isEmpty
  · rw [if_pos hr, List.isEmpty_iff.1 hr]
    simp only [leafEnd?, execute]
    cases CharClass.matchAt ⟨c.bytes, [], c.negated⟩ m.encoding m.text s <;> rfl
  · rw [if_neg hr]
    by_cases hb : c.bytes.isEmpty
    · rw [if_pos hb, ByteSet.eq_empty hb]
      simp only [leafEnd?, execute]
      cases CharClass.matchAt ⟨.empty, ranges, c.negated⟩ m.encoding m.text s <;> rfl
    · rw [if_neg hb]
      simp only [leafEnd?, execute]
      cases CharClass.matchAt ⟨c.bytes, ranges, c.negated⟩ m.encoding m.text s <;> rfl

theorem leafEnd?_anchor (options : Options) (a : Anchor) :
    m.leafEnd? (anchorInstruction options a) caps s =
      if m.setting.holds options s a then some s else none := by
  cases a <;>
    simp only [anchorInstruction, leafEnd?, execute, Setting.holds, Setting.isWordBefore_eq, setting, Move.check,
      Registers.next] <;>
    grind

theorem leafEnd?_word (isWord : Bool) : m.leafEnd? (.word isWord) caps s =
    if s < m.text.size ∧ m.encoding.isWordAt m.text s = isWord then
      some (s + m.encoding.lengthAt m.text s) else none := by
  by_cases h : s < m.text.size ∧ m.encoding.isWordAt m.text s = isWord <;>
    simp [leafEnd?, execute, h, Move.consume, Registers.moveTo]

theorem leafEnd?_any (newline : Bool) :
    m.leafEnd? (.any newline) caps s = m.setting.anyEnd? newline s := by
  simp only [leafEnd?, execute, Setting.anyEnd?, setting]
  cases m.text[s]? with
  | none => simp [Move.consume]
  | some b => by_cases h : !newline && b == 0x0a <;> simp [h, Move.consume, Registers.moveTo]

theorem leafEnd?_backref (n : Nat) (ignoreCase : Bool) : m.leafEnd? (.backref n ignoreCase) caps s =
    (caps.backrefLength m.encoding (if ignoreCase then some m.program.fold else none) m.text n s).map
      (s + ·) := by
  simp only [leafEnd?, execute]
  cases caps.backrefLength m.encoding (if ignoreCase then some m.program.fold else none) m.text n s <;>
    rfl

theorem pathEnd?_singleton (i : Instruction) : m.pathEnd? caps [i] s = m.leafEnd? i caps s := by
  simp [pathEnd?]

end Matcher

/-- 決まっている番号の後方参照は、同じ長さに合う。 -/
theorem Captures.Agree.backrefLength_eq {K : Garbage} {a c : Captures} {n : Nat} (h : a.Agree K c)
    (hn : ∀ b, ¬K n b) (e : Encoding) (fold : Option FoldTable) (text : Text) (s : Nat) :
    a.backrefLength e fold text n s = c.backrefLength e fold text n s := by
  unfold backrefLength
  rw [h.span?_eq hn]

/-! ## 読み書きの順 -/

namespace Node

mutual
/-- 取り消しなしに書く捕獲の番号。 -/
def unmarked : Node → List Nat
  | .list nodes => unmarkedIn nodes
  | .alt nodes => unmarkedIn nodes
  | .loop _ body => body.unmarked
  | .scoped _ body => body.unmarked
  | .group (.capture n undo) body => if undo then body.unmarked else n :: body.unmarked
  | .group _ body => body.unmarked
  | _ => []

def unmarkedIn : List Node → List Nat
  | [] => []
  | n :: ns => n.unmarked ++ unmarkedIn ns
end

mutual
theorem mem_unmarked {k : Nat} {b : Bool} : (n : Node) → n.Writes k b → k ∈ n.unmarked
  | .list ns, h => mem_unmarkedIn ns h
  | .loop _ body, h => mem_unmarked body h.2
  | .scoped _ body, h => mem_unmarked body h
  | .group (.capture n undo) body, h => by
    rcases h with ⟨rfl, rfl⟩ | h
    · exact List.mem_cons_self
    · have := mem_unmarked body h
      cases undo
      · exact List.mem_cons_of_mem n this
      · exact this
  | .group .atomic body, h => mem_unmarked body h
  | .group .ahead body, h => mem_unmarked body h
  | .group .behind body, h => mem_unmarked body h

theorem mem_unmarkedIn {k : Nat} {b : Bool} : (ns : List Node) → WritesIn ns k b → k ∈ unmarkedIn ns
  | n :: ns, h => List.mem_append.2 (h.imp (mem_unmarked n) (mem_unmarkedIn ns))
end

/-- 取り消しなしに書く番号が一つもない。 -/
theorem eq_none_of_unmarked {n : Node} (h : n.unmarked.isEmpty) : n.Writes = Garbage.none := by
  funext k b
  simp only [Garbage.none, eq_iff_iff, iff_false]
  intro hw
  have := mem_unmarked n hw
  rw [List.isEmpty_iff.1 h] at this
  cases this

theorem eq_none_of_silent {n : Node} (h : n.Silent) : n.Writes = Garbage.none := by
  funext k b
  simp only [Garbage.none, eq_iff_iff, iff_false]
  exact h k b

end Node

namespace CodeEnv

/-- 捕獲を比べる空回りの検査を置く。 -/
def comparesCaptures (env : CodeEnv) (options : Options) (l : Loop) (body : Node) : Bool :=
  (env.shape options l body).isGuarded && l.emptyBody == .possibleWithCaptures

mutual
/-- 節が読む捕獲の番号。捕獲を比べる検査は、どの番号も読む。 -/
def reads (env : CodeEnv) (options : Options) : Node → Nat → Bool
  | .backref n => fun k => k == n
  | .list nodes => env.readsIn options nodes
  | .alt nodes => env.readsIn options nodes
  | .loop l body => fun k => env.reads options body k || env.comparesCaptures options l body
  | .scoped inner body => env.reads inner body
  | .group _ body => env.reads options body
  | _ => fun _ => false

def readsIn (env : CodeEnv) (options : Options) : List Node → Nat → Bool
  | [] => fun _ => false
  | n :: ns => fun k => env.reads options n k || env.readsIn options ns k
end

mutual
/-- 取り消しなしに書く前の捕獲を、同じ照合の中で後から読まない。空回りの検査を置く輪は、取り消しなしに
書かない。 -/
def isOrderly (env : CodeEnv) (options : Options) : Node → Bool
  | .list nodes => env.allOrderly options nodes
  | .alt nodes => env.branchesOrderly options nodes
  | .loop l body =>
    body.unmarked.all (!env.reads options body ·) &&
      (!(env.shape options l body).isGuarded || l.emptyBody == .never || body.unmarked.isEmpty) &&
      env.isOrderly options body
  | .scoped inner body => env.isOrderly inner body
  | .group (.capture n undo) body => (undo || !env.reads options body n) && env.isOrderly options body
  | .group _ body => env.isOrderly options body
  | _ => true

def allOrderly (env : CodeEnv) (options : Options) : List Node → Bool
  | [] => true
  | n :: ns => (Node.unmarkedIn ns).all (!env.reads options n ·) &&
      env.isOrderly options n && env.allOrderly options ns

def branchesOrderly (env : CodeEnv) (options : Options) : List Node → Bool
  | [] => true
  | n :: ns => env.isOrderly options n && env.branchesOrderly options ns
end

end CodeEnv

namespace Garbage

/-- 書く番号を読まないなら、決まらない端を読むことはない。 -/
theorem avoids_of_all {reads : Nat → Bool} {W : Garbage} {ns : List Nat} (hW : ∀ k b, W k b → k ∈ ns)
    (h : ns.all (!reads ·)) : W.Avoids reads := by
  intro k hk b hw
  have := List.all_eq_true.1 h k (hW k b hw)
  simp [hk] at this

end Garbage

/-! ## 節 -/

namespace CodeEnv

variable {env : CodeEnv} {m : Matcher} {x : Setting} {origin fuel : Nat}

theorem foldFor_eq_ok {options : Options} {fold : Option FoldTable}
    (hf : m.program.fold = env.fold.getD .ascii) (h : env.foldFor options = .ok fold) :
    fold = if options.contains .ignoreCase then some m.program.fold else none := by
  unfold foldFor at h
  split at h
  · rename_i hi
    split at h
    · rename_i t ht
      cases h
      simp [hi, hf, ht]
    · cases h
  · rename_i hi
    cases h
    simp [hi]

theorem eq_nil_of_code {e : Encoding} {fold : Option FoldTable} {bytes : List UInt8}
    (h : (Literal.code e fold bytes).length = 0) : bytes = [] := by
  cases bytes with
  | nil => rfl
  | cons b rest =>
    rw [Literal.code, Encoding.chars, Literal.runs] at h
    split at h
    · split at h <;> simp at h
    · simp at h

mutual
/-- 命令のない節は、何も書き換えず、先頭バイトもない。 -/
theorem idle_of_size_eq_zero {groups : Nat} : (n : Node) → {options : Options} →
    n.WellFormed groups → env.size options n = .ok 0 →
    n.Writes = Garbage.none ∧ n.headByte options = none
  | .empty, _, _, _ => ⟨rfl, rfl⟩
  | .list nodes, options, hw, h => by
    obtain ⟨hwrites, hhead⟩ := idle_of_sizeList_eq_zero nodes hw h
    refine ⟨hwrites, ?_⟩
    cases nodes with
    | nil => rfl
    | cons n ns => exact hhead
  | .alt nodes, _, _, _ => ⟨rfl, rfl⟩
  | .str bytes, options, _, h => by
    obtain ⟨fold, hf, h⟩ := Except.bind_eq_ok h
    obtain rfl := eq_nil_of_code (Except.ok.inj h)
    exact ⟨rfl, by simp [Node.headByte]⟩
  | .raw bytes, _, _, h => by
    obtain rfl := eq_nil_of_code (Except.ok.inj h)
    exact ⟨rfl, rfl⟩
  | .cclass _, _, _, h => by cases h
  | .word _, _, _, h => by cases h
  | .any, _, _, h => by cases h
  | .anchor _, _, _, h => by cases h
  | .backref _, _, _, h => by cases h
  | .scoped _ body, _, hw, h => idle_of_size_eq_zero body hw h
  | .loop l body, options, hw, h => by
    obtain ⟨k, hk, h⟩ := Except.bind_eq_ok h
    have h := Except.ok.inj h
    have hf := LoopShape.of_fits env.expandLimit l body k
    generalize LoopShape.of env.expandLimit l body k = shape at h hf
    have hidle : l.lower = 0 ∨ k = 0 → (Node.loop l body).Writes = Garbage.none ∧
        (Node.loop l body).headByte options = none := by
      rintro (h0 | rfl)
      · refine ⟨?_, by simp [Node.headByte, h0]⟩
        funext k b
        simp [Node.Writes, h0, Garbage.none]
      · obtain ⟨hwrites, hhead⟩ := idle_of_size_eq_zero body hw.2 hk
        refine ⟨?_, by simp [Node.headByte, hhead]⟩
        funext k b
        simp [Node.Writes, hwrites, Garbage.none]
    cases shape with
    | nothing => exact hidle (hf.symm.imp_left fun hu => Nat.le_zero.1 (hw.1 0 hu))
    | unrolled required extra =>
      obtain ⟨hk0, -, u, hu, hu0, rfl, rfl⟩ := hf
      exact hidle (.inl ((Nat.mul_eq_zero.1 (Nat.add_eq_zero_iff.1 h).1).resolve_left hk0))
    | _ => simp [LoopShape.total] at h
  | .group kind body, options, hw, h => by
    cases kind <;> (obtain ⟨k, hk, h⟩ := Except.bind_eq_ok h; cases h)

theorem idle_of_sizeList_eq_zero {groups : Nat} : (ns : List Node) → {options : Options} →
    Node.AllWellFormed groups ns → env.sizeList options ns = .ok 0 →
    Node.WritesIn ns = Garbage.none ∧ ns.head?.bind (·.headByte options) = none
  | [], _, _, _ => ⟨rfl, rfl⟩
  | n :: ns, _, hw, h => by
    obtain ⟨k, hk, h⟩ := Except.bind_eq_ok h
    obtain ⟨k', hk', h⟩ := Except.bind_eq_ok h
    obtain ⟨rfl, rfl⟩ := Nat.add_eq_zero_iff.1 (Except.ok.inj h)
    obtain ⟨hwrites, hhead⟩ := idle_of_size_eq_zero n hw.1 hk
    obtain ⟨hwrites', -⟩ := idle_of_sizeList_eq_zero ns hw.2 hk'
    refine ⟨?_, hhead⟩
    funext k b
    simp [Node.WritesIn, hwrites, hwrites', Garbage.none]
end

theorem shape_of_size {options : Options} {l : Loop} {body : Node} {k : Nat}
    (hk : env.size options body = .ok k) :
    env.shape options l body = .of env.expandLimit l body k := by
  rw [shape, hk]
  rfl

/-- 必ず一回は続ける繰り返しは、本体が失敗する所では失敗する。 -/
theorem explore_eq_of_body {α : Type} {bot res : α} {R : Cont α → Cont α} {F : Cont α} {o : Outcome}
    {l : Loop} {body : Node} {k : Nat} {shape : LoopShape} (hf : shape.Fits l body k) (hk : k ≠ 0)
    (hl : l.Ordered) (hlower : 0 < l.lower) (hfuel : 0 < fuel) (hR : ∀ F, R F o res = res) :
    shape.explore l bot fuel R F o res = res := by
  obtain ⟨fuel, rfl⟩ := Nat.exists_eq_succ_of_ne_zero (Nat.ne_of_gt hfuel)
  have hcopies : ∀ (c : Nat) (F : Cont α), 0 < c → Nat.repeat R c F o res = res := by
    intro c F hc
    obtain ⟨c, rfl⟩ := Nat.exists_eq_succ_of_ne_zero (Nat.ne_of_gt hc)
    exact hR _
  have hturn : l.explore bot R F (fuel + 1) 0 o res = res := by
    have hupper : l.upper.all (0 < ·) = true := by
      simpa [Option.all_eq_true] using fun u hu => Nat.lt_of_lt_of_le hlower (hl u hu)
    simp [Loop.explore, hupper, hlower, hR]
  cases shape with
  | nothing =>
    rcases hf with hf | hf
    · exact absurd hf hk
    · have := hl 0 hf
      omega
  | anyStar => exact hcopies _ _ hlower
  | ring copies jumpIn =>
    cases jumpIn with
    | true => exact hturn
    | false =>
      obtain ⟨-, -, rfl⟩ := hf
      exact hcopies _ _ hlower
  | unrolled required extra =>
    obtain ⟨-, -, u, -, -, rfl, -⟩ := hf
    exact hcopies _ _ hlower
  | lazyOptional =>
    obtain ⟨-, -, h0, -⟩ := hf
    omega
  | counted => exact hturn

/-- 先頭バイトの決まった節は、そのバイトの前でなければ失敗する。 -/
theorem explore_eq_of_headByte {α : Type} {bot : α} {groups : Nat} {b : UInt8} (hfuel : 0 < fuel) :
    (n : Node) → {options : Options} → {k : Nat} → {F : Cont α} → {o : Outcome} → {res : α} →
    n.WellFormed groups → env.size options n = .ok k → n.headByte options = some b →
    x.text[o.pos]? ≠ some b → n.explore env x bot fuel options F o res = res
  | .str bytes, options, k, F, o, res, _, _, hb, hne => by
    simp only [Node.headByte] at hb
    split at hb
    · cases hb
    · rename_i hc
      cases bytes with
      | nil => cases hb
      | cons c rest =>
        cases hb
        have hi : options.contains .ignoreCase = false := by simpa using hc
        have hend : (Node.str (b :: rest)).leafEnd? x options o = none := by
          rw [Node.leafEnd?, hi, Encoding.chars, Setting.charsEnd?, Setting.charEnd?_eq]
          simp [Encoding.takeChar, Node.hasAt_eq_false hne]
        simp [Node.explore, hend]
  | .raw bytes, options, k, F, o, res, _, _, hb, hne => by
    cases bytes with
    | nil => cases hb
    | cons c rest =>
      cases hb
      have hend : (Node.raw (b :: rest)).leafEnd? x options o = none := by
        rw [Node.leafEnd?, List.map_cons, Setting.charsEnd?, Setting.charEnd?_eq]
        simp [Node.hasAt_eq_false hne]
      simp [Node.explore, hend]
  | .list (n :: ns), _, _, _, _, _, hw, h, hb, hne => by
    obtain ⟨k, hk, -⟩ := Except.bind_eq_ok h
    exact explore_eq_of_headByte hfuel n hw.1 hk hb hne
  | .loop l body, options, _, F, o, res, hw, h, hb, hne => by
    obtain ⟨k, hk, -⟩ := Except.bind_eq_ok h
    have hf := LoopShape.of_fits env.expandLimit l body k
    simp only [Node.headByte] at hb
    split at hb
    · rename_i hl
      have hk0 : k ≠ 0 := by
        rintro rfl
        rw [(idle_of_size_eq_zero body hw.2 hk).2] at hb
        cases hb
      rw [Node.explore, shape_of_size hk]
      exact explore_eq_of_body hf hk0 hw.1 hl hfuel fun _ =>
        explore_eq_of_headByte hfuel body hw.2 hk hb hne
    · cases hb
  | .scoped _ body, _, _, _, _, _, hw, h, hb, hne => explore_eq_of_headByte hfuel body hw h hb hne
  | .group (.capture n _) body, _, _, _, o, _, hw, h, hb, hne => by
    obtain ⟨k, hk, -⟩ := Except.bind_eq_ok h
    exact explore_eq_of_headByte (o := o.opened n) hfuel body hw.2 hk hb hne
  | .group .atomic body, _, _, _, _, _, hw, h, hb, hne => by
    obtain ⟨k, hk, -⟩ := Except.bind_eq_ok h
    exact explore_eq_of_headByte hfuel body hw.2 hk hb hne
  | .group .ahead body, _, _, _, _, _, hw, h, hb, hne => by
    obtain ⟨k, hk, -⟩ := Except.bind_eq_ok h
    exact explore_eq_of_headByte hfuel body hw.2 hk hb hne

theorem follows_leaf (hm : m.limits = .unlimited) (n : Node) (options : Options)
    {reads : Nat → Bool} {is : List Instruction} (hleaf : ∀ i ∈ is, i.isLeaf)
    (hend : ∀ (K : Garbage) (o : Outcome) (caps : Captures), K.Avoids reads → o.pos ≤ m.text.size →
      caps.Agree K o.caps → m.pathEnd? caps is o.pos = n.leafEnd? m.setting options o) :
    Emit.Follows m origin fuel reads none (fun c => .ok (is, c)) .none fun F o res =>
      match n.leafEnd? m.setting options o with
      | some s => F (o.moveTo s) res
      | none => res :=
  .leaf hm hleaf (fun _ _ ho hs => (Node.leafEnd?_advances (x := m.setting) ho hs).within) hend

mutual
/-- 節から生成した断片は、節の合い方を優先順に続きへ渡す。 -/
theorem emit_follows (hm : m.limits = .unlimited) (he : m.encoding = env.encoding)
    (hf : m.program.fold = env.fold.getD .ascii) (hfuel : m.text.size < fuel) : (n : Node) →
    {options : Options} → {k : Nat} → n.WellFormed m.program.groups → n.Ready m.program.fold options →
    env.isOrderly options n → env.size options n = .ok k →
    (env.emit options n).Follows m origin fuel (env.reads options n) n.next? n.Writes
      (n.explore env m.setting (fun _ => none) fuel options)
  | .empty, _, _, _, _, _, _ => .skip
  | .list nodes, _, _, hw, hr, ho, h => emitList_follows hm he hf hfuel nodes hw hr ho h
  | .alt nodes, _, _, hw, hr, ho, h => emitAlt_follows hm he hf hfuel nodes hw hr ho h
  | .str bytes, options, _, _, _, _, h => by
    obtain ⟨fold, hfold, -⟩ := Except.bind_eq_ok h
    have hleaf : Emit.Follows m origin fuel (fun _ => false) none
        (fun c => .ok (Literal.code env.encoding fold bytes, c)) .none
        ((Node.str bytes).explore env m.setting (fun _ => none) fuel options) := by
      refine follows_leaf hm (.str bytes) options (Literal.isLeaf_code _ _ _) fun K o caps _ _ _ => ?_
      rw [Literal.code, Matcher.pathEnd?_runs _ (foldFor_eq_ok hf hfold), ← he]
      rfl
    refine ⟨fun {c c' code} hc => ?_⟩
    obtain ⟨fold', hfold', hc⟩ := Except.bind_eq_ok hc
    cases hfold.symm.trans hfold'
    exact hleaf.ends hc
  | .raw bytes, options, _, _, _, _, _ => by
    refine follows_leaf hm (.raw bytes) options (Literal.isLeaf_code _ _ _) fun K o caps _ ho _ => ?_
    rw [Literal.code, Matcher.pathEnd?_runs false (by simp), Setting.charsEnd?_false ho,
      Node.leafEnd?, Setting.charsEnd?_false ho, Encoding.flatten_chars, flatten_map_singleton]
  | .cclass c, options, _, _, hr, _, _ => by
    refine follows_leaf hm (.cclass c) options
      (by simpa using isLeaf_classInstruction env.encoding c) fun K o caps _ _ _ => ?_
    have hc : (if options.contains .ignoreCase then c.closeFold m.setting.fold else c) = c := by
      split
      · rename_i hi
        exact hr hi
      · rfl
    rw [Matcher.pathEnd?_singleton, ← he, Matcher.leafEnd?_class, Node.leafEnd?, Setting.classEnd?_eq, hc]
    rfl
  | .word isWord, options, _, _, _, _, _ => by
    refine follows_leaf hm (.word isWord) options (by simp [Instruction.isLeaf]) fun K o caps _ _ _ => ?_
    rw [Matcher.pathEnd?_singleton, Matcher.leafEnd?_word]
    rfl
  | .any, options, _, _, _, _, _ => by
    refine follows_leaf hm .any options (by simp [Instruction.isLeaf]) fun K o caps _ _ _ => ?_
    rw [Matcher.pathEnd?_singleton, Matcher.leafEnd?_any]
    rfl
  | .anchor a, options, _, _, _, _, _ => by
    refine follows_leaf hm (.anchor a) options
      (by simpa using isLeaf_anchorInstruction options a) fun K o caps _ _ _ => ?_
    rw [Matcher.pathEnd?_singleton, Matcher.leafEnd?_anchor]
    rfl
  | .backref n, options, _, _, _, _, _ => by
    refine follows_leaf hm (.backref n) options (by simp [Instruction.isLeaf]) fun K o caps hK ho hc => ?_
    rw [Matcher.pathEnd?_singleton, Matcher.leafEnd?_backref, hc.backrefLength_eq (hK n (by simp [reads])),
      Node.leafEnd?, Setting.captured?_bind_charsEnd? _ _ ho]
    rfl
  | .scoped _ body, _, _, hw, hr, ho, h => by
    have hb := emit_follows hm he hf hfuel body hw hr.2 ho h
    rw [hr.1] at hb
    exact hb
  | .loop l body, options, _, hw, hr, ho, h => by
    obtain ⟨hsilent, hhead, -, hnext, hready⟩ := hr
    obtain ⟨k, hk, -⟩ := Except.bind_eq_ok h
    simp only [isOrderly, Bool.and_eq_true, Bool.or_eq_true, Bool.not_eq_true', beq_iff_eq] at ho
    obtain ⟨⟨hreads, hguard⟩, horderly⟩ := ho
    have hb := emit_follows hm he hf hfuel body hw.2 hready horderly hk
    rw [hnext] at hb
    have hfits := LoopShape.of_fits env.expandLimit l body k
    rw [← shape_of_size hk] at hfits
    have hl := hb.loop hm hfuel (emit_regular body hk)
      (Garbage.avoids_of_all (fun _ _ => Node.mem_unmarked body) hreads) options hfits hw.1
      (hsilent.imp_right Node.eq_none_of_silent)
      (fun hg hne => Node.eq_none_of_unmarked (hguard.resolve_left fun h => h.elim (by simp [hg]) hne))
      (fun b hb F o a hne => explore_eq_of_headByte (Nat.zero_lt_of_lt hfuel) body hw.2 hk (hhead b hb) hne)
      (fun h0 => (idle_of_size_eq_zero body hw.2 (h0 ▸ hk)).1) (by rintro rfl; rfl)
    refine ⟨fun {c c' code} hc => ?_⟩
    obtain ⟨k', hk', hc⟩ := Except.bind_eq_ok hc
    cases hk.symm.trans hk'
    rw [← shape_of_size hk] at hc
    exact hl.ends hc
  | .group (.capture n undo) body, _, _, hw, hr, ho, h => by
    obtain ⟨k, hk, -⟩ := Except.bind_eq_ok h
    simp only [isOrderly, Bool.and_eq_true, Bool.or_eq_true, Bool.not_eq_true'] at ho
    have hb := emit_follows hm he hf hfuel body hw.2 hr.2 ho.2 hk
    rw [hr.1] at hb
    exact hb.capture hm hw.1 fun hn => ho.1.resolve_right (by simp [hn])
  | .group .atomic body, _, _, hw, hr, ho, h => by
    obtain ⟨k, hk, -⟩ := Except.bind_eq_ok h
    have hb := emit_follows hm he hf hfuel body hw.2 hr.2 ho hk
    rw [hr.1] at hb
    exact hb.atomic hm
  | .group .ahead body, _, _, hw, hr, ho, h => by
    obtain ⟨k, hk, -⟩ := Except.bind_eq_ok h
    have hb := emit_follows hm he hf hfuel body hw.2 hr.2 ho hk
    rw [hr.1] at hb
    exact hb.ahead hm
  | .group .notAhead body, _, _, hw, hr, ho, h => by
    obtain ⟨k, hk, -⟩ := Except.bind_eq_ok h
    have hb := emit_follows hm he hf hfuel body hw.2 hr.2.2 ho hk
    rw [hr.2.1, Node.eq_none_of_silent hr.1] at hb
    have hn := hb.notAhead hm (emit_regular body hk)
    refine ⟨fun {c c' code} hc => ?_⟩
    obtain ⟨k', hk', hc⟩ := Except.bind_eq_ok hc
    cases hk.symm.trans hk'
    obtain ⟨skip, hs, hc⟩ := Except.bind_eq_ok hc
    rw [relative_eq_ok hs] at hc
    exact hn.ends hc
  | .group .behind body, _, _, hw, hr, ho, h => by
    obtain ⟨k, hk, -⟩ := Except.bind_eq_ok h
    have hb := emit_follows hm he hf hfuel body hw.2 hr.2 ho hk
    rw [hr.1] at hb
    refine ⟨fun {c c' code} hc => ?_⟩
    obtain ⟨chars, hchars, hc⟩ := Except.bind_eq_ok hc
    refine ((hb.behind hm chars fun s s' hs h => ?_).congr rfl fun F o res => ?_).unhinted.ends hc
    · exact Nat.le_trans (Encoding.stepBack_le h) hs
    · simp only [Node.explore, behind?, charsBehind_eq_ok hchars]
      rfl
  | .group .notBehind body, _, _, hw, hr, ho, h => by
    obtain ⟨k, hk, -⟩ := Except.bind_eq_ok h
    have hb := emit_follows hm he hf hfuel body hw.2 hr.2.2 ho hk
    rw [hr.2.1, Node.eq_none_of_silent hr.1] at hb
    refine ⟨fun {c c' code} hc => ?_⟩
    obtain ⟨chars, hchars, hc⟩ := Except.bind_eq_ok hc
    obtain ⟨k', hk', hc⟩ := Except.bind_eq_ok hc
    cases hk.symm.trans hk'
    obtain ⟨skip, hs, hc⟩ := Except.bind_eq_ok hc
    rw [relative_eq_ok hs] at hc
    refine ((hb.notBehind hm (emit_regular body hk) chars fun s s' hs h => ?_).congr rfl
      fun F o res => ?_).ends hc
    · exact Nat.le_trans (Encoding.stepBack_le h) hs
    · simp only [Node.explore, behind?, charsBehind_eq_ok hchars]
      rfl

theorem emitList_follows (hm : m.limits = .unlimited) (he : m.encoding = env.encoding)
    (hf : m.program.fold = env.fold.getD .ascii) (hfuel : m.text.size < fuel) : (ns : List Node) →
    {options : Options} → {k : Nat} → Node.AllWellFormed m.program.groups ns →
    Node.ReadyList m.program.fold options ns → env.allOrderly options ns →
    env.sizeList options ns = .ok k →
    (env.emitList options ns).Follows m origin fuel (env.readsIn options ns) none (Node.WritesIn ns)
      (Node.exploreList env m.setting (fun _ => none) fuel options ns)
  | [], _, _, _, _, _, _ => .skip
  | n :: ns, options, _, hw, hr, ho, h => by
    obtain ⟨hnext, hready, hrest⟩ := hr
    obtain ⟨k, hk, h⟩ := Except.bind_eq_ok h
    obtain ⟨k', hk', -⟩ := Except.bind_eq_ok h
    simp only [allOrderly, Bool.and_eq_true] at ho
    obtain ⟨⟨hreads, horderly⟩, hrestOrderly⟩ := ho
    have hdead : ∀ b ∈ n.next?, ∀ (F : Cont Outlook) (o : Outcome) (a : Outlook),
        m.text[o.pos]? ≠ some b →
        Node.exploreList env m.setting (fun _ => none) fuel options ns F o a = a := by
      intro b hb F o a hne
      obtain ⟨n', hn', hhead⟩ := Option.bind_eq_some_iff.1 (hnext b hb)
      obtain ⟨ns', rfl⟩ := List.head?_eq_some_iff.1 hn'
      obtain ⟨j, hj, -⟩ := Except.bind_eq_ok hk'
      exact explore_eq_of_headByte (x := m.setting) (Nat.zero_lt_of_lt hfuel) n' hw.2.1 hj hhead hne
    have hrest := emitList_follows hm he hf hfuel ns hw.2 hrest hrestOrderly hk'
    have hboth := (emit_follows hm he hf hfuel n hw.1 hready horderly hk).append (emit_regular n hk)
      (emitList_regular ns hk') hrest (Garbage.avoids_of_all (fun _ _ => Node.mem_unmarkedIn ns) hreads)
      hdead
    exact hboth

theorem emitAlt_follows (hm : m.limits = .unlimited) (he : m.encoding = env.encoding)
    (hf : m.program.fold = env.fold.getD .ascii) (hfuel : m.text.size < fuel) : (ns : List Node) →
    {options : Options} → {k : Nat} → Node.AllWellFormed m.program.groups ns →
    Node.ReadyAlt m.program.fold options ns → env.branchesOrderly options ns →
    env.sizeAlt options ns = .ok k →
    (env.emitAlt options ns).Follows m origin fuel (env.readsIn options ns) none .none
      (Node.exploreAlt env m.setting (fun _ => none) fuel options ns)
  | [], _, _, _, _, _, _ => .skip
  | [n], options, _, hw, hr, ho, h => by
    obtain ⟨hsilent, hnext, hready, -⟩ := hr
    simp only [branchesOrderly, Bool.and_true] at ho
    have hn := emit_follows hm he hf hfuel n hw.1 hready ho h
    rw [hnext, Node.eq_none_of_silent hsilent] at hn
    exact hn.mono (fun k hk => by simp [readsIn, hk]) (Nat.le_refl _)
  | n :: n' :: ns, options, _, hw, hr, ho, h => by
    obtain ⟨hsilent, hnext, hready, hrest⟩ := hr
    obtain ⟨k, hk, h⟩ := Except.bind_eq_ok h
    obtain ⟨k', hk', -⟩ := Except.bind_eq_ok h
    rw [branchesOrderly, Bool.and_eq_true] at ho
    have hn := emit_follows hm he hf hfuel n hw.1 hready ho.1 hk
    rw [hnext, Node.eq_none_of_silent hsilent] at hn
    have hboth := Emit.Follows.either hm (emit_regular n hk) (emitAlt_regular (n' :: ns) hk') hn
      (emitAlt_follows hm he hf hfuel (n' :: ns) hw.2 hrest ho.2 hk')
    refine ⟨fun {c c' code} hc => ?_⟩
    obtain ⟨size, hs, hc⟩ := Except.bind_eq_ok hc
    obtain ⟨rest, hr, hc⟩ := Except.bind_eq_ok hc
    cases hk.symm.trans hs
    cases hk'.symm.trans hr
    exact hboth.ends hc
end

end CodeEnv

/-! ## プログラムの全体 -/

namespace Matcher

/-- 成功の命令に着いた合い方の見通し。最長を探すときは、答えを控えて失敗として続ける。始まりより前なら
打ち切られる。 -/
def accepting (m : Matcher) (origin : Nat) : Cont Outlook := fun o res best =>
  let length := o.pos - origin
  let caps := o.caps.setIfInBounds 0 ⟨some origin, some o.pos⟩
  if o.pos < origin then some .aborted
  else if m.options.contains .findNotEmpty && length == 0 then res best
  else if m.options.contains .findLongest then
    if best.all (·.1 < length) then res (some (length, caps)) else res best
  else some (.ok (some (length, caps)))

variable {m : Matcher} {origin n q : Nat} {c : Counters} {lo : Level}

theorem accept_continues (hm : m.limits = .unlimited) (hi : m.program.code[q]? = some .accept) :
    Continues m origin n c q .none (m.accepting origin) lo := by
  intro o ho k hk caps st a hfit _ hfalls
  obtain rfl : caps = o.caps := hfit.eq
  let length := o.pos - origin
  let found := o.caps.setIfInBounds 0 ⟨some origin, some o.pos⟩
  let longer : Answer → Answer := fun best => if best.all (·.1 < length) then some (length, found) else best
  have hgives := hfalls _ hfit
  by_cases hlt : o.pos < origin
  · have habort : ∀ retries best, m.execute origin .accept
        { pc := q, pos := o.pos, caps := o.caps, stack := st, retries, best } = .ok .abort := by
      intro retries best
      simp only [execute, accept]
      rw [if_pos hlt]
    exact (Ends.of_abort hi habort).congr fun best => if_pos hlt
  by_cases hempty : (m.options.contains .findNotEmpty && length == 0) = true
  · have hfail : ∀ retries best, m.execute origin .accept
        { pc := q, pos := o.pos, caps := o.caps, stack := st, retries, best } =
          .ok (.fail { pc := q, pos := o.pos, caps := o.caps, stack := st, retries, best }) := by
      intro retries best
      simp only [execute, accept]
      rw [if_neg hlt, if_pos hempty]
    refine (Ends.of_fail hm hi hfail hgives).congr fun best => ?_
    simp only [accepting]
    rw [if_neg hlt, if_pos hempty]
  by_cases hlong : m.options.contains .findLongest
  · have hfail : ∀ retries best, m.execute origin .accept
        { pc := q, pos := o.pos, caps := o.caps, stack := st, retries, best } =
          .ok (.fail { pc := q, pos := o.pos, caps := o.caps, stack := st, retries, best := longer best }) := by
      intro retries best
      simp only [execute, accept, longer]
      rw [if_neg hlt, if_neg hempty, if_pos hlong]
      split <;> rfl
    refine (Ends.of_record hm hi longer hfail hgives).congr fun best => ?_
    simp only [accepting, longer]
    rw [if_neg hlt, if_neg hempty, if_pos hlong]
    split <;> rfl
  · have hstop : ∀ retries best, m.execute origin .accept
        { pc := q, pos := o.pos, caps := o.caps, stack := st, retries, best } =
          .ok (.stop ⟨some length, found⟩) := by
      intro retries best
      simp only [execute, accept]
      rw [if_neg hlt, if_neg hempty, if_neg hlong]
    refine (Ends.of_stop hi hstop).congr fun best => ?_
    simp only [accepting]
    rw [if_neg hlt, if_neg hempty, if_neg hlong]
    rfl

end Matcher

namespace CodeEnv

variable {env : CodeEnv} {options : Options} {groups : Nat} {root : Node} {program : Program}

/-- 木の合い方を優先順に試した成り行き。`fuel` のうちに決まらなければ、値がない。 -/
def answer? (env : CodeEnv) (options : Options) (groups : Nat) (root : Node) (m : Matcher)
    (origin fuel : Nat) : Fueled Answer :=
  root.explore env m.setting (fun _ => none) fuel options (m.accepting origin)
    ⟨origin, .fresh groups⟩ Outlook.last none

/-- 翻訳したプログラムの照合は、木の合い方を優先順に試したとおりになる。成り行きが決まらなければ、そのあいだは
止まらない。 -/
theorem compile_settles (h : env.compile options groups root = .ok program)
    (hw : root.WellFormed groups) {m : Matcher} (hm : m.limits = .unlimited) (hp : m.program = program)
    (hr : root.Ready (env.fold.getD .ascii) options) (hnext : root.next? = none)
    (horderly : env.isOrderly options root) {origin : Nat} (ho : origin ≤ m.text.size) (fuel : Nat)
    (hfuel : m.text.size < fuel) :
    m.Settles origin fuel { pc := 0, pos := origin, caps := .fresh m.program.groups }
      (env.answer? options groups root m origin fuel) := by
  obtain ⟨size, code, counters, hs, hc, rfl⟩ := compile_eq_ok h
  have hcode : CodeAt m.program 0 (code ++ [Instruction.accept]) := by
    intro j i hj
    rw [hp, Nat.zero_add]
    simpa using hj
  have hgroups : m.program.groups = groups := by rw [hp]
  have henc : m.encoding = env.encoding := by
    rw [Matcher.encoding, hp]
  have hfold : m.program.fold = env.fold.getD .ascii := by rw [hp]
  rw [← hgroups] at hw
  rw [← hfold] at hr
  have hemit : (env.emit options root).Follows m origin fuel _ _ _ _ :=
    emit_follows hm henc hfold hfuel root hw hr horderly hs
  rw [hnext] at hemit
  have hvalid : Outcome.Valid m ⟨origin, .fresh groups⟩ := ⟨ho, by simp [Captures.fresh, hgroups]⟩
  rw [hgroups]
  have hfalls : (Outcome.level ⟨origin, .fresh groups⟩ [] (Garbage.none.or root.Writes)).Falls m origin
      fuel .last := fun caps _ => .inl ⟨by simp [Outcome.level, Stack.popResume], rfl⟩
  have hends := hemit.ends hc (by simp [hp]) hcode.left (Nat.le_refl fuel) .none (by simp) hvalid
    (Matcher.accept_continues hm hcode.right.head) (.refl _ _) hfalls
  exact hends 0 none

end CodeEnv

/-! ## 正規表現 -/

namespace Source

/-- 命令の生成のあいだ変わらないもの。 -/
def env (s : Source) : CodeEnv := { encoding := s.encoding, fold := s.fold }

/-- 命令に直す木。 -/
def tree? (s : Source) : Option Node := do
  let parsed ← (Pattern.parse s.encoding s.options s.pattern).toOption
  (parsed.root.prepare ⟨s.encoding, s.fold, parsed.backrefs⟩ s.options).toOption

/-- 取り消しなしに書く捕獲を、書き直す前に読まない。 -/
def isOrderly (s : Source) : Bool := s.tree?.all (s.env.isOrderly s.options)

end Source

namespace Regex

variable {s : Source} {re : Regex}

/-- 翻訳できたパターンの木は、命令に直せる形をしている。 -/
theorem exists_tree (h : Regex.compile s = .ok re) :
    ∃ groups root, s.tree? = some root ∧ s.env.compile s.options groups root = .ok re.program ∧
      root.WellFormed groups ∧ root.Prepared (s.fold.getD .ascii) s.options false := by
  obtain ⟨parsed, root, hparse, hprepare, hcompile, -⟩ := compile_eq_ok h
  have hplain := Pattern.plain_parse hparse
  exact ⟨parsed.groups, root, by simp [Source.tree?, hparse, hprepare, Except.toOption], hcompile,
    Node.wellFormed_prepare hplain.wellFormed hprepare, Node.prepared_prepare hplain hprepare⟩

theorem exists_prepare (h : Regex.compile s = .ok re) {root : Node} (htree : s.tree? = some root) :
    ∃ parsed, Pattern.parse s.encoding s.options s.pattern = .ok parsed ∧
      parsed.root.prepare ⟨s.encoding, s.fold, parsed.backrefs⟩ s.options = .ok root ∧
      re.plan = .ofHints s.encoding (Hints.ofTree s.encoding s.fold s.options root) := by
  obtain ⟨parsed, root', hparse, hprepare, -, hplan⟩ := compile_eq_ok h
  obtain rfl : root' = root := by simpa [Source.tree?, hparse, hprepare, Except.toOption] using htree
  exact ⟨parsed, hparse, hprepare, hplan⟩

/-- 旗のない照合では、木の合い方を試して最初に着いた長さが、照合の長さになる。 -/
theorem returns_of_explore {root : Node} (h : Regex.compile s = .ok re) (hoptions : s.options = .none)
    (htree : s.tree? = some root) (horderly : s.env.isOrderly .none root) {text : Text} {start origin : Nat}
    (ho : origin ≤ text.size) {n : Option Nat}
    (hexplore : ∀ (F : Cont Outlook) (groups fuel : Nat),
      (∀ o res best, origin ≤ o.pos → ∃ caps, F o res best = some (.ok (some (o.pos - origin, caps)))) →
      ∃ a, root.explore s.env ⟨s.encoding, s.fold.getD .ascii, text, start, .none⟩ (fun _ => none) fuel .none F
        ⟨origin, .fresh groups⟩ Outlook.last none = some (.ok a) ∧ a.map (·.1) = n) :
    ∃ v, (re.matcher .unlimited .none text start).Returns origin v ∧ v.length = n := by
  obtain ⟨groups, root', htree', hcompile, hw, hprepared⟩ := exists_tree h
  obtain rfl : root' = root := Option.some.inj (htree'.symm.trans htree)
  obtain ⟨size, code, counters, -, -, hprogram⟩ := CodeEnv.compile_eq_ok hcompile
  let m := re.matcher .unlimited .none text start
  have hsetting : m.setting = ⟨s.encoding, s.fold.getD .ascii, text, start, .none⟩ := by
    simp [m, Matcher.setting, Matcher.encoding, matcher, hprogram, hoptions, Source.env]
    rfl
  have haccept : ∀ o res best, origin ≤ o.pos → ∃ caps, m.accepting origin o res best =
      some (.ok (some (o.pos - origin, caps))) := by
    intro o res best hle
    have hnone : m.options = .none := congrArg Setting.options hsetting
    have hempty : Options.none.contains .findNotEmpty = false := by decide
    have hlongest : Options.none.contains .findLongest = false := by decide
    simp [Matcher.accepting, Nat.not_lt.2 hle, hnone, hempty, hlongest]
  obtain ⟨a, ha, hlength⟩ := hexplore (m.accepting origin) groups (text.size + 1) haccept
  have hsettles := CodeEnv.compile_settles hcompile hw (m := m) rfl rfl hprepared.ready hprepared.next
    (hoptions ▸ horderly) ho (text.size + 1) (Nat.lt_succ_self _)
  rw [CodeEnv.answer?, hsetting, hoptions, ha] at hsettles
  obtain ⟨fuel, hends⟩ := hsettles.matchAt ho
  obtain ⟨v, hv, hanswer⟩ := hends fuel (Nat.le_refl fuel)
  cases v <;> cases hanswer
  refine ⟨_, ⟨fuel, hv⟩, ?_⟩
  rw [← hlength, Verdict.answer, Option.map_map]
  exact Option.map_id'.symm

end Regex
end MultibyteRegex

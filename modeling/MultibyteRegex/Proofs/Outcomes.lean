import MultibyteRegex.Tree.Length
import MultibyteRegex.Proofs.Contract

/-!
# 優先順つきの意味

節の合い方を、試す順に並べた列で表す。列の先頭ほど優先される。命令にも後戻りの積み重ねにも触れない。
-/

namespace MultibyteRegex

/-- 照合のあいだ変わらないもの。`options` は、端の検査が従う旗である。 -/
structure Setting where
  encoding : Encoding
  fold : FoldTable
  text : Text
  searchStart : Nat
  options : Options

/-- 合い方の一つ。終わりの位置と、そこまでの捕獲。 -/
structure Outcome where
  pos : Nat
  caps : Captures
  deriving DecidableEq

namespace Setting

/-- 一文字 `c` が `s` から並ぶ。区別しないときは、一バイトの文字を写してから比べる。 -/
def reads (x : Setting) (ignoreCase : Bool) (c : List UInt8) (s : Nat) : Bool :=
  let rest := x.text.toList.drop s
  s ≤ x.text.size && if ignoreCase && c.length == 1 then (c.map x.fold.fold).isPrefixOf (rest.map x.fold.fold)
    else c.isPrefixOf rest

/-- 一文字 `c` が `s` から並ぶなら、その終わり。 -/
def charEnd? (x : Setting) (ignoreCase : Bool) (c : List UInt8) (s : Nat) : Option Nat :=
  if x.reads ignoreCase c s then some (s + c.length) else none

def charsEnd? (x : Setting) (ignoreCase : Bool) : List (List UInt8) → Nat → Option Nat
  | [], s => some s
  | c :: cs, s => (x.charEnd? ignoreCase c s).bind (x.charsEnd? ignoreCase cs)

/-- 符号位置 `code` の文字が集まりに入る。区別しないときは、一バイトの文字は、写した先の等しい文字が入れば入る。 -/
def isMember (x : Setting) (ignoreCase : Bool) (c : CharClass) (code : Nat) : Bool :=
  if ignoreCase && CharClass.isSingle x.encoding code then
    (allBytes.any fun b => c.bytes.contains b && x.fold.fold b == x.fold.fold code.toUInt8) != c.negated
  else c.contains x.encoding code

/-- `s` から始まる文字が集まりに入るなら、その終わり。 -/
def classEnd? (x : Setting) (ignoreCase : Bool) (c : CharClass) (s : Nat) : Option Nat :=
  if s < x.text.size ∧ x.isMember ignoreCase c (x.encoding.codeAt x.text s) then
    some (s + x.encoding.lengthAt x.text s)
  else none

/-- `n` 番の捕獲が捕まえたバイト。参加していなければない。 -/
def captured? (x : Setting) (caps : Captures) (n : Nat) : Option (List UInt8) :=
  match caps[n]? with
  | some ⟨some start, some stop⟩ => if start ≤ stop then some ((x.text.toList.take stop).drop start) else none
  | _ => none

/-- `s` の前の文字が単語の文字か。 -/
def isWordBefore (x : Setting) (s : Nat) : Bool :=
  match x.encoding.prevHead x.text 0 s with
  | some head => x.encoding.isWordAt x.text head
  | none => false

/-- 幅のない検査が `s` で成り立つ。 -/
def holds (x : Setting) (options : Options) (s : Nat) : Anchor → Bool
  | .beginBuf => s == 0
  | .endBuf => s == x.text.size
  | .semiEndBuf =>
    if s = x.text.size then !x.options.contains .notEol
    else s + 1 == x.text.size && x.text[s]? == some 0x0a
  | .beginPosition => s == x.searchStart
  | .beginLine =>
    if s = 0 then !x.options.contains .notBol
    else options.perLine && x.text[s - 1]? == some 0x0a && s != x.text.size
  | .endLine =>
    if s = x.text.size then !x.options.contains .notEol
    else options.perLine && x.text[s]? == some 0x0a
  | .wordBound => x.isWordBefore s != x.encoding.isWordAt x.text s
  | .notWordBound => x.isWordBefore s == x.encoding.isWordAt x.text s
  | .wordBegin => x.encoding.isWordAt x.text s && !x.isWordBefore s
  | .wordEnd => x.isWordBefore s && !x.encoding.isWordAt x.text s

/-- 任意の一文字の終わり。 -/
def anyEnd? (x : Setting) (newline : Bool) (s : Nat) : Option Nat :=
  match x.text[s]? with
  | none => none
  | some b => if !newline && b == 0x0a then none else some (s + x.encoding.lengthAt x.text s)

end Setting

namespace Node

/-- 子を持たない節が合った後の位置。 -/
def leafEnd? (x : Setting) (options : Options) (o : Outcome) : Node → Option Nat
  | .str bytes => x.charsEnd? (options.contains .ignoreCase) (x.encoding.chars bytes) o.pos
  | .raw bytes => x.charsEnd? false (bytes.map ([·])) o.pos
  | .cclass c => x.classEnd? (options.contains .ignoreCase) c o.pos
  | .word isWord =>
    if o.pos < x.text.size ∧ x.encoding.isWordAt x.text o.pos = isWord then
      some (o.pos + x.encoding.lengthAt x.text o.pos)
    else none
  | .any => x.anyEnd? (options.contains .multiline) o.pos
  | .anchor a => if x.holds options o.pos a then some o.pos else none
  | .backref n => (x.captured? o.caps n).bind fun bytes =>
    x.charsEnd? (options.contains .ignoreCase) (x.encoding.chars bytes) o.pos
  | _ => none

end Node

namespace Outcome

def moveTo (o : Outcome) (pos : Nat) : Outcome := { o with pos }

/-- `n` 番の捕獲を始める。前の終わりは消える。 -/
def opened (n : Nat) (o : Outcome) : Outcome :=
  { o with caps := o.caps.setIfInBounds n ⟨some o.pos, none⟩ }

/-- `n` 番の捕獲を終える。 -/
def closed (n : Nat) (o : Outcome) : Outcome :=
  { o with caps := o.caps.modify n fun s => { s with stop := some o.pos } }

/-- 続きの合い方 `more` と、続けずに止まる合い方。欲張りなら続きが先に立つ。 -/
def orStop (greedy : Bool) (more : List Outcome) (o : Outcome) : List Outcome :=
  if greedy then more ++ [o] else o :: more

end Outcome

/-- ちょうど `k` 回続ける。 -/
def times (f : Outcome → List Outcome) : Nat → Outcome → List Outcome
  | 0, o => [o]
  | k + 1, o => (f o).flatMap (times f k)

/-- 高々 `k` 回続ける。 -/
def upTo (greedy : Bool) (f : Outcome → List Outcome) : Nat → Outcome → List Outcome
  | 0, o => [o]
  | k + 1, o => Outcome.orStop greedy ((f o).flatMap (upTo greedy f k)) o

/-- 下限まで続けた後、残りの回数だけ続ける。上限がなければ、本文の長さより多くは続けない。 -/
def Loop.outcomes (l : Loop) (size : Nat) (f : Outcome → List Outcome) (o : Outcome) :
    List Outcome :=
  (times f l.lower o).flatMap (upTo l.greedy f ((l.upper.map (· - l.lower)).getD size))

namespace Node

mutual
/-- 節の合い方を、優先順に並べる。後読みは扱わない。 -/
def outcomes (x : Setting) (options : Options) : Node → Outcome → List Outcome
  | .empty => fun o => [o]
  | .list nodes => outcomesList x options nodes
  | .alt nodes => outcomesAlt x options nodes
  | .loop l body => l.outcomes x.text.size (body.outcomes x options)
  | .scoped inner body => body.outcomes x inner
  | .group (.capture n _) body => fun o => (body.outcomes x options (o.opened n)).map (·.closed n)
  | .group .atomic body => fun o => (body.outcomes x options o).take 1
  | .group .ahead body => fun o => ((body.outcomes x options o).take 1).map (·.moveTo o.pos)
  | .group .notAhead body => fun o => if (body.outcomes x options o).isEmpty then [o] else []
  | .group .behind _ => fun _ => []
  | .group .notBehind _ => fun _ => []
  | node => fun o => (node.leafEnd? x options o).toList.map o.moveTo

def outcomesList (x : Setting) (options : Options) : List Node → Outcome → List Outcome
  | [] => fun o => [o]
  | n :: ns => fun o => (n.outcomes x options o).flatMap (outcomesList x options ns)

def outcomesAlt (x : Setting) (options : Options) : List Node → Outcome → List Outcome
  | [] => fun o => [o]
  | [n] => n.outcomes x options
  | n :: m :: ns => fun o => n.outcomes x options o ++ outcomesAlt x options (m :: ns) o
end

end Node

/-! ## 進み方 -/

namespace Text

variable {text : Text} {bytes cs : List UInt8} {s : Nat}

theorem hasFoldedAt_iff {table : FoldTable} :
    text.hasFoldedAt table bytes s ↔ s ≤ text.size ∧ bytes <+: (text.toList.drop s).map table.fold := by
  induction bytes generalizing s with
  | nil => simp [hasFoldedAt]
  | cons b bytes ih =>
    simp only [hasFoldedAt, Bool.and_eq_true, beq_iff_eq, ih]
    by_cases hs : s < text.size
    · have hdrop : text.toList.drop s = text[s] :: text.toList.drop (s + 1) :=
        List.drop_eq_getElem_cons (by simpa using hs)
      rw [hdrop, List.map_cons, List.cons_prefix_cons, Array.getElem?_eq_getElem hs, Option.map_some, Option.some_inj]
      constructor
      · rintro ⟨rfl, -, hprefix⟩
        exact ⟨Nat.le_of_lt hs, rfl, hprefix⟩
      · rintro ⟨-, rfl, hprefix⟩
        exact ⟨rfl, hs, hprefix⟩
    · have hdrop : text.toList.drop s = [] := List.drop_eq_nil_of_le (by simpa using hs)
      simp [hdrop, Array.getElem?_eq_none (Nat.le_of_not_lt hs)]

/-- 写さずに比べるのは、恒等写像で写して比べるのと同じである。 -/
theorem hasAt_eq_hasFoldedAt : text.hasAt bytes s = text.hasFoldedAt ⟨id⟩ bytes s := by
  induction bytes generalizing s with
  | nil => rfl
  | cons b bytes ih => simp only [hasAt, hasFoldedAt, ih, Option.map_id, id]

theorem hasAt_iff : text.hasAt bytes s ↔ s ≤ text.size ∧ bytes <+: text.toList.drop s := by
  rw [hasAt_eq_hasFoldedAt, hasFoldedAt_iff, List.map_id]

theorem hasFoldedAt_le {table : FoldTable} (h : text.hasFoldedAt table bytes s) :
    s + bytes.length ≤ text.size := by
  obtain ⟨hs, hprefix⟩ := hasFoldedAt_iff.1 h
  have hlength : bytes.length ≤ text.size - s := by simpa using hprefix.length_le
  omega

theorem hasAt_le (h : text.hasAt bytes s) : s + bytes.length ≤ text.size :=
  hasFoldedAt_le (hasAt_eq_hasFoldedAt ▸ h)

theorem hasFoldedAt_append {table : FoldTable} : text.hasFoldedAt table (bytes ++ cs) s =
    (text.hasFoldedAt table bytes s && text.hasFoldedAt table cs (s + bytes.length)) := by
  induction bytes generalizing s with
  | nil =>
    by_cases h : text.hasFoldedAt table cs s
    · have := hasFoldedAt_le h
      simp [hasFoldedAt, h]
      omega
    · simp [h]
  | cons b bytes ih =>
    simp [hasFoldedAt, ih, Bool.and_assoc, Nat.add_comm, Nat.add_left_comm]

theorem hasAt_append : text.hasAt (bytes ++ cs) s = (text.hasAt bytes s && text.hasAt cs (s + bytes.length)) := by
  simp only [hasAt_eq_hasFoldedAt, hasFoldedAt_append]

end Text

theorem flatMap_congr {α β : Type} {f g : α → List β} {xs : List α} (h : ∀ x ∈ xs, f x = g x) :
    xs.flatMap f = xs.flatMap g := by
  rw [List.flatMap_def, List.flatMap_def, List.map_congr_left h]

theorem flatten_map_singleton {α : Type} (xs : List α) : (xs.map ([·])).flatten = xs := by
  induction xs with
  | nil => rfl
  | cons x xs ih => simp [ih]

theorem findSome?_flatMap {α β γ : Type} {f : α → List β} {F : β → Option γ} {xs : List α} :
    (xs.flatMap f).findSome? F = xs.findSome? fun x => (f x).findSome? F := by
  induction xs with
  | nil => rfl
  | cons x xs ih =>
    rw [List.flatMap_cons, List.findSome?_append, ih, List.findSome?_cons]
    cases (f x).findSome? F <;> rfl

/-- `o` から `o'` へ、本文の中を進む。`least` が正なら必ず進む。 -/
structure Outcome.Advances (size least : Nat) (o o' : Outcome) : Prop where
  le : o.pos ≤ o'.pos
  within : o'.pos ≤ size
  caps : o'.caps.size = o.caps.size
  lt : 0 < least → o.pos < o'.pos

namespace Outcome.Advances

variable {size n k : Nat} {o o' o'' : Outcome}

theorem refl (ho : o.pos ≤ size) : o.Advances size 0 o :=
  ⟨Nat.le_refl _, ho, rfl, fun h => absurd h (Nat.lt_irrefl 0)⟩

theorem mono (h : o.Advances size n o') (hk : 0 < k → 0 < n) : o.Advances size k o' :=
  ⟨h.le, h.within, h.caps, fun hlt => h.lt (hk hlt)⟩

theorem trans (h : o.Advances size n o') (h' : o'.Advances size k o'') :
    o.Advances size (n + k) o'' := by
  refine ⟨Nat.le_trans h.le h'.le, h'.within, h'.caps.trans h.caps, fun hlt => ?_⟩
  have := h.le
  have := h'.le
  by_cases hn : 0 < n
  · have := h.lt hn
    omega
  · have := h'.lt (by omega)
    omega

end Outcome.Advances

/-- どの合い方も、本文の中を進む。 -/
def Advancing (size least : Nat) (f : Outcome → List Outcome) : Prop :=
  ∀ o, o.pos ≤ size → ∀ o' ∈ f o, o.Advances size least o'

namespace Advancing

variable {size n k : Nat} {f g : Outcome → List Outcome}

theorem mono (h : Advancing size n f) (hk : 0 < k → 0 < n) : Advancing size k f := by
  intro o ho o' ho'
  exact (h o ho o' ho').mono hk

theorem stay : Advancing size 0 fun o => [o] := by
  intro o ho o' ho'
  cases List.mem_singleton.1 ho'
  exact .refl ho

theorem flatMap (hf : Advancing size n f) (hg : Advancing size k g) :
    Advancing size (n + k) fun o => (f o).flatMap g := by
  intro o ho o'' ho''
  obtain ⟨o', ho', ho''⟩ := List.mem_flatMap.1 ho''
  have h := hf o ho o' ho'
  exact h.trans (hg o' h.within o'' ho'')

theorem times (hf : Advancing size n f) (k : Nat) : Advancing size (n * k) (times f k) := by
  induction k with
  | zero => exact stay
  | succ k ih => exact (hf.flatMap ih).mono fun h => by rw [Nat.mul_succ] at h; omega

theorem upTo (hf : Advancing size n f) (greedy : Bool) (k : Nat) :
    Advancing size 0 (upTo greedy f k) := by
  induction k with
  | zero => exact stay
  | succ k ih =>
    intro o ho o' ho'
    have hmore := (hf.flatMap ih).mono (k := 0) (by omega) o ho o'
    simp only [MultibyteRegex.upTo, Outcome.orStop] at ho'
    split at ho'
    · rcases List.mem_append.1 ho' with h | h
      · exact hmore h
      · exact stay o ho o' h
    · rcases List.mem_cons.1 ho' with rfl | h
      · exact stay o' ho o' List.mem_cons_self
      · exact hmore h

theorem loop (hf : Advancing size n f) (l : Loop) : Advancing size (n * l.lower) (l.outcomes size f) :=
  ((hf.times _).flatMap (hf.upTo _ _)).mono fun h => h

/-- 必ず進む本体では、残りの長さより多い回数は続けられない。 -/
theorem upTo_succ (hf : Advancing size 1 f) (greedy : Bool) {k : Nat} {o : Outcome} (ho : o.pos ≤ size)
    (hk : size - o.pos ≤ k) :
    MultibyteRegex.upTo greedy f k o = MultibyteRegex.upTo greedy f (k + 1) o := by
  induction k generalizing o with
  | zero =>
    have hnil : f o = [] := by
      refine List.eq_nil_iff_forall_not_mem.2 fun o' ho' => ?_
      have ha := hf o ho o' ho'
      have := ha.lt Nat.one_pos
      have := ha.within
      omega
    cases greedy <;> simp [MultibyteRegex.upTo, Outcome.orStop, hnil]
  | succ k ih =>
    have hsame : (f o).flatMap (MultibyteRegex.upTo greedy f k) =
        (f o).flatMap (MultibyteRegex.upTo greedy f (k + 1)) := by
      refine flatMap_congr fun o' ho' => ih (hf o ho o' ho').within ?_
      have := (hf o ho o' ho').lt Nat.one_pos
      omega
    rw [MultibyteRegex.upTo, hsame]
    rfl

/-- 必ず進む本体では、上限のない繰り返しは、一回続けてから同じ繰り返しをするか、止まるかである。 -/
theorem upTo_size (hf : Advancing size 1 f) (greedy : Bool) {o : Outcome} (ho : o.pos ≤ size) :
    MultibyteRegex.upTo greedy f size o =
      Outcome.orStop greedy ((f o).flatMap (MultibyteRegex.upTo greedy f size)) o :=
  hf.upTo_succ greedy ho (Nat.sub_le ..)

end Advancing

namespace Setting

variable {x : Setting} {ignoreCase : Bool} {s t : Nat}

/-- 一文字に合うかどうかは、本文に並ぶバイトを比べる命令の検査と同じである。 -/
theorem reads_eq (c : List UInt8) : x.reads ignoreCase c s =
    if ignoreCase && c.length == 1 then x.text.hasFoldedAt x.fold (x.fold.foldAll c) s else x.text.hasAt c s := by
  unfold reads
  split <;> rw [Bool.eq_iff_iff] <;>
    simp [Text.hasAt_iff, Text.hasFoldedAt_iff, FoldTable.foldAll, List.isPrefixOf_iff_prefix]

theorem charEnd?_eq (c : List UInt8) : x.charEnd? ignoreCase c s =
    if (if ignoreCase && c.length == 1 then x.text.hasFoldedAt x.fold (x.fold.foldAll c) s else x.text.hasAt c s)
      then some (s + c.length) else none := by
  rw [charEnd?, reads_eq]

theorem charEnd?_eq_some {c : List UInt8} (h : x.charEnd? ignoreCase c s = some t) :
    t = s + c.length ∧ t ≤ x.text.size := by
  simp only [charEnd?_eq, Option.ite_none_right_eq_some, Option.some.injEq] at h
  obtain ⟨hsame, rfl⟩ := h
  refine ⟨rfl, ?_⟩
  split at hsame
  · simpa [FoldTable.foldAll] using Text.hasFoldedAt_le hsame
  · exact Text.hasAt_le hsame

theorem charsEnd?_eq_some {cs : List (List UInt8)} (h : x.charsEnd? ignoreCase cs s = some t) :
    t = s + cs.flatten.length ∧ (s ≤ x.text.size → t ≤ x.text.size) := by
  induction cs generalizing s with
  | nil =>
    cases h
    exact ⟨rfl, id⟩
  | cons c cs ih =>
    obtain ⟨u, hu, h⟩ := Option.bind_eq_some_iff.1 h
    obtain ⟨rfl, hle⟩ := charEnd?_eq_some hu
    obtain ⟨rfl, hle'⟩ := ih h
    exact ⟨by simp [Nat.add_assoc], fun _ => hle' hle⟩

theorem charsEnd?_append {cs ds : List (List UInt8)} :
    x.charsEnd? ignoreCase (cs ++ ds) s =
      (x.charsEnd? ignoreCase cs s).bind (x.charsEnd? ignoreCase ds) := by
  induction cs generalizing s with
  | nil => rfl
  | cons c cs ih =>
    rw [List.cons_append, charsEnd?, charsEnd?, Option.bind_assoc]
    exact Option.bind_congr fun _ _ => ih

end Setting

theorem Encoding.flatten_chars (e : Encoding) (bytes : List UInt8) : (e.chars bytes).flatten = bytes := by
  fun_induction chars e bytes with
  | case1 => rfl
  | case2 b rest ih =>
    rw [List.flatten_cons, ih]
    simp [takeChar]

theorem Encoding.lengthAt_le (e : Encoding) (text : Text) (s : Nat) :
    s ≤ text.size → s + e.lengthAt text s ≤ text.size := by
  intro hs
  unfold lengthAt
  split <;> omega

namespace Node

variable {x : Setting} {options : Options}

/-- 子を持たない節は、下限の長さが正なら必ず進む。 -/
theorem leafEnd?_advances {o : Outcome} {n : Node} {t : Nat} (ho : o.pos ≤ x.text.size)
    (h : n.leafEnd? x options o = some t) : o.Advances x.text.size n.minLength (o.moveTo t) := by
  have key : ∀ {k : Nat}, o.pos + k = t → t ≤ x.text.size → (0 < n.minLength → 0 < k) →
      o.Advances x.text.size n.minLength (o.moveTo t) := by
    rintro k rfl hle hpos
    refine ⟨Nat.le_add_right .., hle, rfl, fun h => ?_⟩
    have := hpos h
    simp only [Outcome.moveTo]
    omega
  cases n with
  | str bytes =>
    obtain ⟨rfl, hle⟩ := Setting.charsEnd?_eq_some h
    rw [Encoding.flatten_chars] at *
    exact key rfl (hle ho) id
  | raw bytes =>
    obtain ⟨rfl, hle⟩ := Setting.charsEnd?_eq_some h
    rw [flatten_map_singleton] at *
    exact key rfl (hle ho) id
  | cclass c =>
    simp only [leafEnd?, Setting.classEnd?, Option.ite_none_right_eq_some, Option.some.injEq] at h
    obtain ⟨⟨hlt, -⟩, rfl⟩ := h
    exact key rfl (Encoding.lengthAt_le _ _ _ ho) fun _ => Encoding.lengthAt_pos _ hlt
  | word isWord =>
    simp only [leafEnd?] at h
    split at h
    · rename_i hw
      cases h
      exact key rfl (Encoding.lengthAt_le _ _ _ ho) fun _ => Encoding.lengthAt_pos _ hw.1
    · cases h
  | any =>
    simp only [leafEnd?, Setting.anyEnd?] at h
    split at h
    · cases h
    · rename_i b hb
      split at h
      · cases h
      · cases h
        have hlt := (Array.getElem?_eq_some_iff.1 hb).1
        exact key rfl (Encoding.lengthAt_le _ _ _ ho) fun _ => Encoding.lengthAt_pos _ hlt
  | anchor a =>
    simp only [leafEnd?] at h
    split at h
    · cases h
      exact key (Nat.add_zero _) ho fun h => absurd h (Nat.lt_irrefl 0)
    · cases h
  | backref k =>
    obtain ⟨bytes, -, hend⟩ := Option.bind_eq_some_iff.1 h
    obtain ⟨rfl, hle⟩ := Setting.charsEnd?_eq_some hend
    exact key rfl (hle ho) fun h => absurd h (Nat.lt_irrefl 0)
  | _ => cases h

theorem advancing_leaf {n : Node} :
    Advancing x.text.size n.minLength fun o => (n.leafEnd? x options o).toList.map o.moveTo := by
  intro o ho o' ho'
  obtain ⟨t, ht, rfl⟩ := List.mem_map.1 ho'
  exact leafEnd?_advances ho (Option.mem_toList.1 ht)

mutual
/-- 節の合い方は本文の中を進み、下限の長さが正なら必ず進む。 -/
theorem advancing_outcomes : (n : Node) → {options : Options} →
    Advancing x.text.size n.minLength (n.outcomes x options)
  | .empty, _ => .stay
  | .list nodes, _ => advancing_outcomesList nodes
  | .alt nodes, _ => advancing_outcomesAlt nodes
  | .loop l body, _ => ((advancing_outcomes body).loop l).mono fun h => by
    simp only [minLength, satMul] at h
    omega
  | .scoped _ body, _ => advancing_outcomes body
  | .group (.capture n _) body, options => by
    intro o ho o' ho'
    obtain ⟨o₁, ho₁, rfl⟩ := List.mem_map.1 ho'
    have ha := @advancing_outcomes body options (o.opened n) ho o₁ ho₁
    exact ⟨ha.le, ha.within, by simpa [Outcome.opened, Outcome.closed] using ha.caps, ha.lt⟩
  | .group .atomic body, _ => fun o ho o' ho' =>
    advancing_outcomes body o ho o' (List.mem_of_mem_take ho')
  | .group .ahead body, options => by
    intro o ho o' ho'
    obtain ⟨o₁, ho₁, rfl⟩ := List.mem_map.1 ho'
    have ha := @advancing_outcomes body options o ho o₁ (List.mem_of_mem_take ho₁)
    exact ⟨Nat.le_refl _, ho, ha.caps, fun h => absurd h (Nat.lt_irrefl 0)⟩
  | .group .notAhead body, options => by
    intro o ho o' ho'
    simp only [outcomes] at ho'
    split at ho'
    · exact Advancing.stay o ho o' ho'
    · cases ho'
  | .group .behind _, _ => fun _ _ _ h => by cases h
  | .group .notBehind _, _ => fun _ _ _ h => by cases h
  | .str _, _ => advancing_leaf
  | .raw _, _ => advancing_leaf
  | .cclass _, _ => advancing_leaf
  | .word _, _ => advancing_leaf
  | .any, _ => advancing_leaf
  | .anchor _, _ => advancing_leaf
  | .backref _, _ => advancing_leaf

theorem advancing_outcomesList : (ns : List Node) → {options : Options} →
    Advancing x.text.size (sumMinLength ns) (outcomesList x options ns)
  | [], _ => .stay
  | n :: ns, _ => ((advancing_outcomes n).flatMap (advancing_outcomesList ns)).mono fun h => by
    simp only [sumMinLength, satAdd] at h
    omega

theorem advancing_outcomesAlt : (ns : List Node) → {options : Options} →
    Advancing x.text.size (leastMinLength ns) (outcomesAlt x options ns)
  | [], _ => .stay
  | [n], _ => advancing_outcomes n
  | n :: m :: ns, options => by
    intro o ho o' ho'
    rcases List.mem_append.1 ho' with h | h
    · exact (advancing_outcomes n).mono (fun h => by simp only [leastMinLength] at h; omega) o ho o' h
    · exact (advancing_outcomesAlt (m :: ns)).mono
        (fun h => by simp only [leastMinLength] at h ⊢; omega) o ho o' h
end

/-! ## 先頭バイト -/

theorem hasAt_eq_false {text : Text} {b : UInt8} {bytes : List UInt8} {s : Nat}
    (h : text[s]? ≠ some b) : text.hasAt (b :: bytes) s = false := by
  simp [Text.hasAt, h]

/-- 先頭バイトの決まった節は、そのバイトの前でしか合わない。 -/
theorem outcomes_eq_nil {b : UInt8} : (n : Node) → {options : Options} → {o : Outcome} →
    n.headByte options = some b → x.text[o.pos]? ≠ some b → n.outcomes x options o = []
  | .str bytes, options, o, hb, hne => by
    simp only [headByte] at hb
    split at hb
    · cases hb
    · rename_i hc
      cases bytes with
      | nil => cases hb
      | cons c rest =>
        cases hb
        have hi : options.contains .ignoreCase = false := by simpa using hc
        have hend : (Node.str (b :: rest)).leafEnd? x options o = none := by
          rw [leafEnd?, hi, Encoding.chars, Setting.charsEnd?, Setting.charEnd?_eq]
          simp [Encoding.takeChar, hasAt_eq_false hne]
        simp [outcomes, hend]
  | .raw bytes, options, o, hb, hne => by
    cases bytes with
    | nil => cases hb
    | cons c rest =>
      cases hb
      have hend : (Node.raw (b :: rest)).leafEnd? x options o = none := by
        rw [leafEnd?, List.map_cons, Setting.charsEnd?, Setting.charEnd?_eq]
        simp [hasAt_eq_false hne]
      simp [outcomes, hend]
  | .list (n :: ns), _, _, hb, hne => by
    simp [outcomes, outcomesList, outcomes_eq_nil n hb hne]
  | .loop l body, options, o, hb, hne => by
    simp only [headByte] at hb
    split at hb
    · rename_i hl
      obtain ⟨k, hk⟩ := Nat.exists_eq_succ_of_ne_zero (Nat.ne_of_gt hl)
      simp [outcomes, Loop.outcomes, hk, times, outcomes_eq_nil body hb hne]
    · cases hb
  | .scoped _ body, _, _, hb, hne => outcomes_eq_nil body hb hne
  | .group (.capture n _) body, _, o, hb, hne => by
    simp [outcomes, outcomes_eq_nil (o := o.opened n) body hb hne]
  | .group .atomic body, _, _, hb, hne => by simp [outcomes, outcomes_eq_nil body hb hne]
  | .group .ahead body, _, _, hb, hne => by simp [outcomes, outcomes_eq_nil body hb hne]

end Node

/-! ## 繰り返しの残り -/

/-- `k` 回続けた後の、繰り返しの残り。 -/
def Loop.remaining (l : Loop) (size : Nat) (f : Outcome → List Outcome) (k : Nat) (o : Outcome) :
    List Outcome :=
  (times f (l.lower - k) o).flatMap (upTo l.greedy f ((l.upper.map (· - max l.lower k)).getD size))

namespace Loop

variable {l : Loop} {size k : Nat} {f : Outcome → List Outcome} {o : Outcome}

theorem remaining_zero : l.remaining size f 0 = l.outcomes size f := by
  funext o
  simp [remaining, outcomes]

/-- 下限に届くまでは、止まれない。 -/
theorem remaining_of_lt (h : k < l.lower) :
    l.remaining size f k o = (f o).flatMap (l.remaining size f (k + 1)) := by
  have hk : l.lower - k = l.lower - (k + 1) + 1 := by omega
  have hmax : max l.lower k = max l.lower (k + 1) := by omega
  unfold remaining
  rw [hk, times, List.flatMap_assoc, hmax]

/-- 上限に届いたら、続けられない。 -/
theorem remaining_of_upper (hl : l.lower ≤ k) (hu : l.upper = some k) :
    l.remaining size f k o = [o] := by
  have hmax : max l.lower k = k := by omega
  simp [remaining, hu, hmax, Nat.sub_eq_zero_of_le hl, times, upTo]

/-- 下限に届いてから上限に届くまでは、続けるか止まるかを選ぶ。 -/
theorem remaining_of_le (hl : l.lower ≤ k) (hu : ∀ u ∈ l.upper, k < u)
    (hf : l.upper = none → Advancing size 1 f) (ho : o.pos ≤ size) :
    l.remaining size f k o =
      Outcome.orStop l.greedy ((f o).flatMap (l.remaining size f (k + 1))) o := by
  have hmax : max l.lower k = k := by omega
  have hmax' : max l.lower (k + 1) = k + 1 := by omega
  have hsub : l.lower - (k + 1) = 0 := by omega
  have hflat : l.remaining size f (k + 1) =
      upTo l.greedy f ((l.upper.map (· - (k + 1))).getD size) := by
    funext o
    simp [remaining, hsub, times, hmax']
  rw [hflat]
  simp only [remaining, Nat.sub_eq_zero_of_le hl, times, List.flatMap_cons, List.flatMap_nil,
    List.append_nil, hmax]
  cases hup : l.upper with
  | none => exact (hf hup).upTo_size l.greedy ho
  | some u =>
    have hlt := hu u hup
    have hk : u - k = u - (k + 1) + 1 := by omega
    simp only [Option.map_some, Option.getD_some]
    rw [hk, upTo]

end Loop
end MultibyteRegex

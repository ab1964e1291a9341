import MultibyteRegex.Proofs.ExpandLimit
import MultibyteRegex.Proofs.Leftmost
import MultibyteRegex.Proofs.Overlooking

/-!
# 任意の文字の繰り返しで始まるパターン

欲張りな任意の文字の繰り返しで始まり、後が捕獲を読まないパターンは、ある位置で合うなら、同じ行の一つ手前からも合う。
手前からの繰り返しは、一文字を読んでから同じ所を同じ順に試し、それが尽きてから手前で止まる。最も左の照合は検索の始まりか
行頭から始まるので、検索が他の位置を飛ばしても失われない。
-/

namespace MultibyteRegex

variable {α : Type} {r : α → α → Prop} {bot a : α} {F F' : Cont α} {R S : Cont α → Cont α}

/-! ## 捕獲によらない続き -/

namespace Cont

/-- どの捕獲でも、同じ位置から、関係 `r` で結ばれる答えを返す。 -/
def Agrees (r : α → α → Prop) (F F' : Cont α) : Prop :=
  ∀ o o' : Outcome, o'.pos = o.pos → o'.caps.size = o.caps.size → ∀ a a', r a a' → r (F o a) (F' o' a')

/-- 失敗したときの答えが `a` と結ばれるなら、返す答えも `a` と結ばれる。 -/
def Yields (r : α → α → Prop) (a : α) (F : Cont α) : Prop := ∀ o b, r a b → r a (F o b)

end Cont

namespace Overlooks

theorem agrees (hR : Overlooks r R) (hF : Cont.Agrees r F F') : Cont.Agrees r (R F) (R F') := by
  intro o o' hpos hsize a a' ha
  exact hR.keeps (fun o o' h a a' ha => hF o o' h.pos h.size a a' ha) o o' (.refl hpos hsize) a a' ha

theorem yields (hR : Overlooks (fun _ b => r a b) R) (hF : F.Yields r a) : (R F).Yields r a := by
  intro o b hb
  exact hR.keeps (F := F) (fun _ o' _ _ b hb => hF o' b hb) o o (.refl rfl rfl) b b hb

end Overlooks

/-! ## 一文字手前 -/

/-- `p` の次の位置からと `p` からとで、結ばれる答えを返す。`firm` なら、続きは、初めに受け取る答えだけを引き継げばよい。 -/
structure Slides (p : Nat) (firm : Bool) (r : α → α → Prop) (R : Cont α → Cont α) : Prop where
  slides : ∀ {F F' : Cont α} {o o' : Outcome} {a a' : α}, Cont.Agrees r F F' → o.pos = p + 1 → o'.pos = p →
    o'.caps.size = o.caps.size → (∀ b, (firm → b = a) → F'.Yields r b) → r a a' → r (R F o a) (R F' o' a')

namespace Slides

variable {p : Nat} {firm : Bool}

theorem comp (hR : Slides p firm r R) (hS : Overlooks r S) (hyields : ∀ a, Overlooks (fun _ b => r a b) S) :
    Slides p firm r fun F => R (S F) :=
  ⟨fun hF hpos hpos' hsize hy ha =>
    hR.slides (hS.agrees hF) hpos hpos' hsize (fun b hb => (hyields b).yields (hy b hb)) ha⟩

theorem either (hR : Slides p false r R) (hS : Slides p false r S) :
    Slides p false r fun F o res => R F o (S F o res) :=
  ⟨fun hF hpos hpos' hsize hy ha =>
    hR.slides hF hpos hpos' hsize (fun b _ => hy b (by simp)) (hS.slides hF hpos hpos' hsize hy ha)⟩

theorem capture (hR : Slides p firm r R) (n : Nat) :
    Slides p firm r fun F o res => R (fun o' => F (o'.closed n)) (o.opened n) res := by
  refine ⟨fun hF hpos hpos' hsize hy ha => hR.slides ?_ hpos hpos' ?_ (fun b hb o => hy b hb (o.closed n)) ha⟩
  · intro o o' hpos hsize a a' ha
    exact hF (o.closed n) (o'.closed n) hpos (by simpa [Outcome.closed] using hsize) a a' ha
  · simpa [Outcome.opened] using hsize

/-- 最初の合い方だけを使うなら、続きは、初めに受け取る答えだけを引き継ぐ。 -/
theorem atomic (hR : Slides p true r R) : Slides p firm r fun F o res => R (fun o' _ => F o' res) o res := by
  refine ⟨fun {F F' o o' a a'} hF hpos hpos' hsize hy ha => hR.slides ?_ hpos hpos' hsize ?_ ha⟩
  · intro o o' hpos hsize b b' hb
    exact hF o o' hpos hsize a a' ha
  · intro b hb o b' hb'
    obtain rfl := hb rfl
    exact hy b (fun _ => rfl) o a' ha

end Slides

/-! ## 任意の文字の繰り返し -/

/-- 空回りを調べない、下限も上限もない欲張りな輪。 -/
structure Loop.IsStar (l : Loop) : Prop where
  greedy : l.greedy
  lower : l.lower = 0
  upper : l.upper = none
  emptyBody : l.emptyBody = .never

namespace Loop.IsStar

variable {l : Loop} (hl : l.IsStar)
include hl

theorem explore_succ (fuel k : Nat) (o : Outcome) (a : α) :
    l.explore bot R F (fuel + 1) k o a = R (l.explore bot R F fuel (k + 1)) o (F o a) := by
  simp [Loop.explore, hl.greedy, hl.lower, hl.upper, hl.emptyBody, EmptyBody.isStuck]

/-- 回る回数の上限が違っても、結ばれる答えを返す。 -/
theorem agrees (hR : Overlooks r R) (hleft : ∀ b, r bot b) (hright : ∀ b, r b bot) (hF : Cont.Agrees r F F')
    (fuel fuel' k k' : Nat) : Cont.Agrees r (l.explore bot R F fuel k) (l.explore bot R F' fuel' k') := by
  induction fuel generalizing fuel' k k' with
  | zero =>
    intro o o' _ _ a a' _
    exact hleft _
  | succ fuel ih =>
    intro o o' hpos hsize a a' ha
    cases fuel' with
    | zero => exact hright _
    | succ fuel' =>
      rw [hl.explore_succ, hl.explore_succ]
      exact hR.agrees (ih fuel' (k + 1) (k' + 1)) o o' hpos hsize _ _ (hF o o' hpos hsize a a' ha)

end Loop.IsStar

/-- 任意の一文字を読んで続ける。 -/
def Setting.any (x : Setting) (newline : Bool) (F : Cont α) : Cont α := fun o res =>
  match x.anyEnd? newline o.pos with
  | some s => F (o.moveTo s) res
  | none => res

namespace Setting

variable {x : Setting} {newline : Bool} {l : Loop} {p : Nat}

theorem overlooks_any : Overlooks r (x.any newline) :=
  .leaf (fun o => x.anyEnd? newline o.pos) fun _ _ h => by rw [h]

theorem any_some {o : Outcome} {s : Nat} (h : x.anyEnd? newline o.pos = some s) (a : α) :
    x.any newline F o a = F (o.moveTo s) a := by
  simp [any, h]

theorem any_none {o : Outcome} (h : x.anyEnd? newline o.pos = none) (a : α) : x.any newline F o a = a := by
  simp [any, h]

variable (hl : l.IsStar) (hleft : ∀ b, r bot b) (hright : ∀ b, r b bot)
include hl hleft hright

/-- 手前の一文字が読めれば、並べた後の輪も手前へずらせる。 -/
theorem slides_any (hnext : ∀ q s, x.anyEnd? newline q = some s → s = q + 1) (fuel n : Nat)
    (hp : x.anyEnd? newline p = some (p + 1)) (firm : Bool) :
    Slides p firm r fun F => Nat.repeat (x.any newline) n (l.explore bot (x.any newline) F fuel 0) := by
  induction n generalizing p with
  | zero =>
    refine ⟨fun {F F' o o' a a'} hF hpos hpos' hsize hy ha => ?_⟩
    subst hpos'
    change r (l.explore bot (x.any newline) F fuel 0 o a) (l.explore bot (x.any newline) F' fuel 0 o' a')
    cases fuel with
    | zero => exact hleft _
    | succ fuel =>
      -- 手前からは、一文字を読んでから後ろと同じに続け、尽きれば手前で止まる
      rw [hl.explore_succ (F := F') fuel, any_some hp]
      have hstop := hy a (fun _ => rfl) o' a' ha
      exact hl.agrees overlooks_any hleft hright hF (fuel + 1) fuel 0 1 o (o'.moveTo (o'.pos + 1)) hpos.symm hsize a _
        hstop
  | succ n ih =>
    refine ⟨fun {F F' o o' a a'} hF hpos hpos' hsize hy ha => ?_⟩
    subst hpos'
    change r (x.any newline (Nat.repeat (x.any newline) n (l.explore bot (x.any newline) F fuel 0)) o a)
      (x.any newline (Nat.repeat (x.any newline) n (l.explore bot (x.any newline) F' fuel 0)) o' a')
    rw [any_some (F := Nat.repeat _ n (l.explore bot _ F' fuel 0)) hp]
    cases hend : x.anyEnd? newline o.pos with
    | none =>
      rw [any_none hend]
      have hyields : Overlooks (fun _ b => r a b) fun F =>
          Nat.repeat (x.any newline) n (l.explore bot (x.any newline) F fuel 0) :=
        (overlooks_any.times n).comp (overlooks_any.explore (hright a) (.inl (by simp [hl.emptyBody])) fuel 0)
      exact hyields.yields (hy a fun _ => rfl) _ a' ha
    | some s =>
      obtain rfl := hnext _ _ hend
      rw [any_some hend]
      rw [hpos] at hend ⊢
      exact (ih hend).slides hF rfl rfl hsize hy ha

end Setting

/-! ## 節 -/

namespace CodeEnv

mutual
/-- 欲張りな任意の文字の繰り返しで始まり、その後は捕獲を読まない。`newline` は、その文字が改行にも合うことを表す。
最初の合い方だけを使う括弧の中では、分かれない。 -/
def opens (env : CodeEnv) (newline firm : Bool) (options : Options) : Node → Bool
  | .list nodes => env.opensFirst newline firm options nodes
  | .alt nodes => !firm && env.opensEach newline options nodes
  | .loop l body => l.greedy && l.isInfinite && LoopShape.isAny body && options.contains .multiline == newline
  | .scoped inner body => env.opens newline firm inner body
  | .group (.capture ..) body => env.opens newline firm options body
  | .group .atomic body => env.opens newline true options body
  | _ => false

def opensFirst (env : CodeEnv) (newline firm : Bool) (options : Options) : List Node → Bool
  | [] => false
  | n :: ns => env.opens newline firm options n && env.allBlind options ns

def opensEach (env : CodeEnv) (newline : Bool) (options : Options) : List Node → Bool
  | [] => false
  | [n] => env.opens newline false options n
  | n :: n' :: ns => env.opens newline false options n && env.opensEach newline options (n' :: ns)
end

variable {env : CodeEnv} {x : Setting} {newline : Bool} {p fuel : Nat}

theorem shape_any {options : Options} {l : Loop} (hg : l.greedy) (hu : l.isInfinite) :
    env.shape options l .any = .anyStar := by
  have hupper : l.upper = none := by simpa [Loop.isInfinite] using hu
  have hsize : (env.size options .any).toOption.getD 0 = 1 := rfl
  simp [shape, hsize, LoopShape.of, LoopShape.isAny, hg, hu, hupper]

mutual
/-- 任意の文字の繰り返しで始まる節は、手前へずらせる。 -/
theorem slides_explore (hnext : ∀ q s, x.anyEnd? newline q = some s → s = q + 1)
    (hp : x.anyEnd? newline p = some (p + 1)) (hleft : ∀ b, r bot b) (hright : ∀ b, r b bot) :
    (n : Node) → {firm : Bool} → {options : Options} → env.opens newline firm options n →
    Slides p firm r (n.explore env x bot fuel options)
  | .list ns, _, _, h => slides_exploreList hnext hp hleft hright ns h
  | .alt ns, firm, _, h => by
    simp only [opens, Bool.and_eq_true, Bool.not_eq_true'] at h
    obtain ⟨rfl, h⟩ := h
    exact slides_exploreAlt hnext hp hleft hright ns h
  | .loop l body, firm, options, h => by
    simp only [opens, Bool.and_eq_true, beq_iff_eq] at h
    obtain ⟨⟨⟨hg, hu⟩, hany⟩, rfl⟩ := h
    cases body <;> simp only [LoopShape.isAny, Bool.false_eq_true] at hany
    have hstar : Loop.IsStar { l with lower := 0, emptyBody := .never } :=
      ⟨hg, rfl, by simpa [Loop.isInfinite] using hu, rfl⟩
    have hslides := Setting.slides_any hstar hleft hright hnext fuel l.lower hp firm
    simp only [Node.explore, shape_any hg hu]
    exact hslides
  | .scoped _ body, _, _, h => slides_explore hnext hp hleft hright body h
  | .group (.capture n _) body, _, _, h => (slides_explore hnext hp hleft hright body h).capture n
  | .group .atomic body, _, _, h => (slides_explore hnext hp hleft hright body h).atomic

theorem slides_exploreList (hnext : ∀ q s, x.anyEnd? newline q = some s → s = q + 1)
    (hp : x.anyEnd? newline p = some (p + 1)) (hleft : ∀ b, r bot b) (hright : ∀ b, r b bot) :
    (ns : List Node) → {firm : Bool} → {options : Options} → env.opensFirst newline firm options ns →
    Slides p firm r (Node.exploreList env x bot fuel options ns)
  | n :: ns, _, _, h => by
    simp only [opensFirst, Bool.and_eq_true] at h
    exact (slides_explore hnext hp hleft hright n h.1).comp (overlooks_exploreList (hleft bot) ns h.2) fun a =>
      overlooks_exploreList (hright a) ns h.2

theorem slides_exploreAlt (hnext : ∀ q s, x.anyEnd? newline q = some s → s = q + 1)
    (hp : x.anyEnd? newline p = some (p + 1)) (hleft : ∀ b, r bot b) (hright : ∀ b, r b bot) :
    (ns : List Node) → {options : Options} → env.opensEach newline options ns →
    Slides p false r (Node.exploreAlt env x bot fuel options ns)
  | [n], _, h => slides_explore hnext hp hleft hright n h
  | n :: n' :: ns, _, h => by
    rw [opensEach, Bool.and_eq_true] at h
    exact (slides_explore hnext hp hleft hright n h.1).either (slides_exploreAlt hnext hp hleft hright (n' :: ns) h.2)
end

end CodeEnv

/-! ## 捕獲を読まない木 -/

namespace Node

mutual
theorem unmarked_of_hasCapture : (n : Node) → n.hasCapture = false → n.unmarked = []
  | .list ns, h => unmarkedIn_of_anyCapture ns h
  | .alt ns, h => unmarkedIn_of_anyCapture ns h
  | .loop _ body, h | .scoped _ body, h | .group .atomic body, h | .group .ahead body, h | .group .notAhead body, h
  | .group .behind body, h | .group .notBehind body, h => unmarked_of_hasCapture body h
  | .empty, _ | .str _, _ | .raw _, _ | .cclass _, _ | .word _, _ | .any, _ | .anchor _, _ | .backref _, _ => rfl

theorem unmarkedIn_of_anyCapture : (ns : List Node) → anyCapture ns = false → unmarkedIn ns = []
  | [], _ => rfl
  | n :: ns, h => by
    simp only [anyCapture, Bool.or_eq_false_iff] at h
    simp [unmarkedIn, unmarked_of_hasCapture n h.1, unmarkedIn_of_anyCapture ns h.2]
end

end Node

namespace CodeEnv

variable {env : CodeEnv}

mutual
theorem reads_of_isBlind (k : Nat) : (n : Node) → {options : Options} → env.isBlind options n →
    env.reads options n k = false
  | .list ns, _, h => readsIn_of_allBlind k ns h
  | .alt ns, _, h => readsIn_of_allBlind k ns h
  | .loop l body, _, h => by
    simp only [isBlind, Bool.and_eq_true, Bool.not_eq_true'] at h
    simp [reads, reads_of_isBlind k body h.2, h.1]
  | .scoped _ body, _, h => reads_of_isBlind k body h
  | .group _ body, _, h => reads_of_isBlind k body h
  | .empty, _, _ | .str _, _, _ | .raw _, _, _ | .cclass _, _, _ | .word _, _, _ | .any, _, _ | .anchor _, _, _ => rfl

theorem readsIn_of_allBlind (k : Nat) : (ns : List Node) → {options : Options} → env.allBlind options ns →
    env.readsIn options ns k = false
  | [], _, _ => rfl
  | n :: ns, _, h => by
    simp only [allBlind, Bool.and_eq_true] at h
    simp [readsIn, reads_of_isBlind k n h.1, readsIn_of_allBlind k ns h.2]
end

mutual
/-- 捕獲を読まなければ、書き直す前の捕獲を読むこともない。 -/
theorem isOrderly_of_isBlind : (n : Node) → {options : Options} → (∀ r ∈ n.repeats options, r.IsGuarded) →
    env.isBlind options n → env.isOrderly options n
  | .list ns, _, hg, h => allOrderly_of_allBlind ns hg h
  | .alt ns, _, hg, h => branchesOrderly_of_allBlind ns hg h
  | .loop l body, options, hg, h => by
    obtain ⟨hloop, hbody⟩ := List.forall_mem_cons.1 hg
    simp only [isBlind, comparesCaptures, Bool.and_eq_true, Bool.not_eq_true'] at h
    simp only [isOrderly, reads_of_isBlind _ body h.2, isOrderly_of_isBlind body hbody h.2, Bool.and_eq_true, and_true]
    refine ⟨by simp, ?_⟩
    cases he : l.emptyBody with
    | never => simp
    | possible => simp [Node.unmarked_of_hasCapture body (hloop he)]
    | possibleWithCaptures =>
      have := h.1
      simp_all
  | .scoped _ body, _, hg, h => isOrderly_of_isBlind body hg h
  | .group (.capture n _) body, _, hg, h => by
    simp [isOrderly, reads_of_isBlind n body h, isOrderly_of_isBlind body hg h]
  | .group .atomic body, _, hg, h | .group .ahead body, _, hg, h | .group .notAhead body, _, hg, h
  | .group .behind body, _, hg, h | .group .notBehind body, _, hg, h => isOrderly_of_isBlind body hg h
  | .empty, _, _, _ | .str _, _, _, _ | .raw _, _, _, _ | .cclass _, _, _, _ | .word _, _, _, _ | .any, _, _, _
  | .anchor _, _, _, _ => rfl

theorem allOrderly_of_allBlind : (ns : List Node) → {options : Options} →
    (∀ r ∈ Node.repeatsIn options ns, r.IsGuarded) → env.allBlind options ns → env.allOrderly options ns
  | [], _, _, _ => rfl
  | n :: ns, _, hg, h => by
    obtain ⟨hn, hns⟩ := List.forall_mem_append.1 hg
    simp only [allBlind, Bool.and_eq_true] at h
    simp [allOrderly, reads_of_isBlind _ n h.1, isOrderly_of_isBlind n hn h.1, allOrderly_of_allBlind ns hns h.2]

theorem branchesOrderly_of_allBlind : (ns : List Node) → {options : Options} →
    (∀ r ∈ Node.repeatsIn options ns, r.IsGuarded) → env.allBlind options ns → env.branchesOrderly options ns
  | [], _, _, _ => rfl
  | n :: ns, _, hg, h => by
    obtain ⟨hn, hns⟩ := List.forall_mem_append.1 hg
    simp only [allBlind, Bool.and_eq_true] at h
    simp [branchesOrderly, isOrderly_of_isBlind n hn h.1, branchesOrderly_of_allBlind ns hns h.2]
end

mutual
theorem isBlind_of_opens {newline : Bool} : (n : Node) → {firm : Bool} → {options : Options} →
    env.opens newline firm options n → env.isBlind options n
  | .list ns, _, _, h => allBlind_of_opensFirst ns h
  | .alt ns, _, _, h => by
    simp only [opens, Bool.and_eq_true] at h
    exact allBlind_of_opensEach ns h.2
  | .loop l body, _, options, h => by
    simp only [opens, Bool.and_eq_true] at h
    obtain ⟨⟨⟨hg, hu⟩, hany⟩, -⟩ := h
    cases body <;> simp only [LoopShape.isAny, Bool.false_eq_true] at hany
    simp [isBlind, comparesCaptures, shape_any hg hu, LoopShape.isGuarded]
  | .scoped _ body, _, _, h => isBlind_of_opens body h
  | .group (.capture ..) body, _, _, h | .group .atomic body, _, _, h => isBlind_of_opens body h

theorem allBlind_of_opensFirst {newline : Bool} : (ns : List Node) → {firm : Bool} → {options : Options} →
    env.opensFirst newline firm options ns → env.allBlind options ns
  | n :: ns, _, _, h => by
    simp only [opensFirst, Bool.and_eq_true] at h
    simp [allBlind, isBlind_of_opens n h.1, h.2]

theorem allBlind_of_opensEach {newline : Bool} : (ns : List Node) → {options : Options} →
    env.opensEach newline options ns → env.allBlind options ns
  | [n], _, h => by simp [allBlind, isBlind_of_opens n h]
  | n :: n' :: ns, _, h => by
    rw [opensEach, Bool.and_eq_true] at h
    rw [allBlind, isBlind_of_opens n h.1, allBlind_of_opensEach (n' :: ns) h.2]
    rfl
end

end CodeEnv

/-! ## 読み取る検査 -/

namespace Facts

/-- 長さに上限がなく、改行にも合う繰り返しの検査を読み取らない。 -/
structure InLine (f : Facts) : Prop where
  length : f.length.max = none
  left : f.left.anyStarNewline = false

namespace Running

variable {r : Running} {f : Facts}

theorem extend_left (r : Running) (e : Encoding) (leading trailing : Option Key) :
    (r.extend e leading trailing).facts.left = r.facts.left := by
  obtain ⟨k, hk⟩ := r.extend_facts e leading trailing
  rw [hk]

theorem add_atStart (e : Encoding) (r : Running) (f : Facts) :
    (Running.add e r f).atStart = (r.atStart && f.length.isZero) := by
  unfold Running.add
  dsimp only
  split
  · rfl
  · exact extend_atStart ..

theorem add_left (e : Encoding) (r : Running) (f : Facts) :
    (Running.add e r f).facts.left = if r.atStart then r.facts.left.union f.left else r.facts.left := by
  unfold Running.add
  dsimp only
  split
  · rfl
  · exact extend_left ..

theorem add_length {e : Encoding} (h : r.facts.length.max = none ∨ f.length.max = none) :
    (Running.add e r f).facts.length.max = none := by
  unfold Running.add
  dsimp only
  split
  · rename_i hzero
    exact h.resolve_right fun hf => by simp [Interval.isZero, hf] at hzero
  · rcases h with h | h
    · simp [Interval.add, h]
    · simp only [Interval.add, h]
      split <;> simp_all

theorem foldl_inLine {e : Encoding} (h : r.facts.InLine) (hs : r.atStart = false) (fs : List Facts) :
    (fs.foldl (Running.add e) r).facts.InLine := by
  induction fs generalizing r with
  | nil => exact h
  | cons f fs ih =>
    refine ih ⟨add_length (.inl h.length), ?_⟩ ?_
    · rw [add_left, hs]
      exact h.left
    · rw [add_atStart, hs]
      rfl

end Running

theorem seq_inLine {e : Encoding} {f : Facts} (h : f.InLine) (fs : List Facts) : (seq e (f :: fs)).InLine := by
  have hfirst : (Running.add e {} f).facts.InLine := by
    refine ⟨Running.add_length (.inr h.length), ?_⟩
    rw [Running.add_left]
    simp [Edges.union, h.left]
  have hstart : (Running.add e {} f).atStart = false := by
    simp [Running.add_atStart, Interval.isZero, h.length]
  have hall := Running.foldl_inLine (e := e) hfirst hstart fs
  unfold seq Running.done
  split
  · exact ⟨hall.length, hall.left⟩
  · exact ⟨hall.length, hall.left⟩

theorem foldl_either_inLine {f : Facts} (h : f.InLine) (fs : List Facts) : (fs.foldl either f).InLine := by
  induction fs generalizing f with
  | nil => exact h
  | cons g fs ih => exact ih ⟨by simp [either, Interval.hull, h.length], by simp [either, Edges.inter, h.left]⟩

theorem alt_inLine {e : Encoding} {f : Facts} (h : f.InLine) (fs : List Facts) : (alt e (f :: fs)).InLine := by
  have hfirst : { f with best := none, trailing := none : Facts }.InLine := ⟨h.length, h.left⟩
  have hall := foldl_either_inLine hfirst fs
  exact ⟨hall.length, hall.left⟩

theorem anyStarEdges_inLine {options : Options} {l : Loop} {isAny : Bool} (h : options.contains .multiline = false) :
    (anyStarEdges options l isAny).anyStarNewline = false := by
  unfold anyStarEdges
  split <;> simp [h]

theorem loop_inLine {e : Encoding} {options : Options} {l : Loop} {first : ByteSet} (hu : l.upper = none)
    (h : options.contains .multiline = false) : (loop options l true (ofChar e first)).InLine := by
  have hlength : ((ofChar e first).length.times l.lower l.upper).max = none := by
    cases e <;> simp [ofChar, Interval.times, Encoding.maxWidth, hu]
  have hedges : (anyStarEdges options l true).anyStarNewline = false := anyStarEdges_inLine h
  unfold loop
  dsimp only
  split
  · rename_i hone
    simp [hu] at hone
  · split
    · exact ⟨hlength, by simp [Edges.union, ofChar, hedges]⟩
    · exact ⟨hlength, hedges⟩

variable {env : CodeEnv} {e : Encoding} {fold : Option FoldTable}

mutual
/-- 改行に合わない任意の文字の繰り返しで始まる節から、改行にも合う繰り返しの検査は読み取らない。 -/
theorem inLine_ofNode : (n : Node) → {firm : Bool} → {options : Options} → env.opens false firm options n →
    (ofNode e fold options n).InLine
  | .list ns, _, _, h => inLine_ofFirst ns h
  | .alt ns, _, _, h => by
    simp only [CodeEnv.opens, Bool.and_eq_true] at h
    exact inLine_ofEach ns h.2
  | .loop l body, _, options, h => by
    simp only [CodeEnv.opens, Bool.and_eq_true, beq_iff_eq] at h
    obtain ⟨⟨⟨-, hu⟩, hany⟩, hnewline⟩ := h
    cases body <;> simp only [LoopShape.isAny, Bool.false_eq_true] at hany
    exact loop_inLine (by simpa [Loop.isInfinite] using hu) hnewline
  | .scoped _ body, _, _, h => inLine_ofNode body h
  | .group (.capture ..) body, _, _, h => inLine_ofNode body h
  | .group .atomic body, _, _, h => inLine_ofNode body h

theorem inLine_ofFirst : (ns : List Node) → {firm : Bool} → {options : Options} →
    env.opensFirst false firm options ns → (seq e (ofNodes e fold options ns)).InLine
  | n :: ns, _, _, h => by
    simp only [CodeEnv.opensFirst, Bool.and_eq_true] at h
    exact seq_inLine (inLine_ofNode n h.1) (ofNodes e fold _ ns)

theorem inLine_ofEach : (ns : List Node) → {options : Options} → env.opensEach false options ns →
    (alt e (ofNodes e fold options ns)).InLine
  | [n], _, h => alt_inLine (inLine_ofNode n h) []
  | n :: n' :: ns, _, h => by
    rw [CodeEnv.opensEach, Bool.and_eq_true] at h
    exact alt_inLine (inLine_ofNode n h.1) (ofNodes e fold _ (n' :: ns))
end

end Facts

/-! ## 検索 -/

/-- `a` が成功なら、`a'` は失敗でない。 -/
def Outlook.Ensures (a a' : Outlook) : Prop := ∀ v, a none = some (.ok (some v)) → a' none ≠ some (.ok none)

namespace Matcher

variable {m : Matcher} {p : Nat}

/-- 一つ手前から始めた照合は、同じ所で終われば、長さが空にならない。 -/
theorem accepting_agrees (hlong : m.options.contains .findLongest = false) :
    Cont.Agrees Outlook.Ensures (m.accepting (p + 1)) (m.accepting p) := by
  intro o o' hpos hsize a a' ha v hv
  have hle : ¬o.pos < p + 1 := fun hlt => by simp [accepting, hlt] at hv
  have hle' : ¬o'.pos < p := by omega
  have hne : o'.pos - p ≠ 0 := by omega
  simp [accepting, hle', hne, hlong]

theorem accepting_yields (hlong : m.options.contains .findLongest = false) (a : Outlook) :
    (m.accepting p).Yields Outlook.Ensures a := by
  intro o b hb v hv
  have hb := hb v hv
  simp only [accepting, hlong]
  split
  · simp
  · split
    · exact hb
    · simp

end Matcher

namespace Setting

variable {x : Setting} {newline : Bool} {p : Nat} (hx : x.encoding = .ascii)
include hx

theorem anyEnd?_eq_succ {q s : Nat} (h : x.anyEnd? newline q = some s) : s = q + 1 := by
  unfold anyEnd? at h
  split at h
  · cases h
  · rename_i b hb
    split at h
    · cases h
    · rw [hx, Encoding.lengthAt_ascii (Array.getElem?_eq_some_iff.1 hb).1] at h
      exact (Option.some.inj h).symm

theorem anyEnd?_of_ne (hp : p < x.text.size) (h : newline ∨ x.text[p]? ≠ some 0x0a) :
    x.anyEnd? newline p = some (p + 1) := by
  simp only [anyEnd?, Array.getElem?_eq_getElem hp, hx, Encoding.lengthAt_ascii hp]
  rw [if_neg]
  rcases h with rfl | h
  · simp
  · simp [Array.getElem?_eq_getElem hp] at h
    simp [h]

end Setting

/-- 手前の一文字が読めるなら、次の位置で合うとき、手前で合わないことはない。 -/
theorem CodeEnv.answer?_ensures {env : CodeEnv} {options : Options} {groups : Nat} {root : Node} {newline : Bool}
    {m : Matcher} {p fuel : Nat} (hopens : env.opens newline false options root) (henc : m.encoding = .ascii)
    (hlong : m.options.contains .findLongest = false) (hp : p < m.text.size)
    (hread : newline ∨ m.text[p]? ≠ some 0x0a) {v : Nat × Captures}
    (h : env.answer? options groups root m (p + 1) fuel = some (.ok (some v))) :
    env.answer? options groups root m p fuel ≠ some (.ok none) := by
  have hslides : Slides p false Outlook.Ensures (root.explore env m.setting (fun _ => none) fuel options) :=
    slides_explore (fun _ _ => Setting.anyEnd?_eq_succ henc) (Setting.anyEnd?_of_ne henc hp hread)
      (fun _ _ h => by cases h) (fun _ _ _ => by simp) root hopens
  have hlast : Outlook.Ensures Outlook.last Outlook.last := fun v hv => by cases hv
  exact hslides.slides (o := ⟨p + 1, .fresh groups⟩) (Matcher.accepting_agrees hlong) rfl rfl rfl
    (fun a _ => Matcher.accepting_yields hlong a) hlast v h

/-- 行の中の任意の文字、または改行も含む任意の文字の繰り返しで始まり、その後は捕獲を読まない。 -/
def Source.opens (s : Source) (newline : Bool) : Bool := s.tree?.any (s.env.opens newline false s.options)

namespace Regex

variable {s : Source} {re : Regex} {options : Options} {text : Text} {start range p : Nat} {newline : Bool} {f : Found}

theorem isGuarded_of_tree (h : Regex.compile s = .ok re) {root : Node} (htree : s.tree? = some root) :
    root.IsGuarded := by
  obtain ⟨parsed, -, hprepare, -⟩ := exists_prepare h htree
  exact (Node.prepares_of_prepare hprepare).isGuarded

theorem not_returns_none (h : Regex.compile s = .ok re) (he : s.encoding = .ascii) (hopens : s.opens newline)
    (hlong : (s.options.union options).contains .findLongest = false) (hp : p < text.size)
    (hread : newline ∨ text[p]? ≠ some 0x0a) {length : Nat} {caps caps' : Captures}
    (hx : (re.matcher .unlimited options text start).Returns (p + 1) ⟨some length, caps⟩) :
    ¬(re.matcher .unlimited options text start).Returns p ⟨none, caps'⟩ := by
  rintro ⟨fuel', hfails⟩
  obtain ⟨fuel, hmatches⟩ := hx
  obtain ⟨groups, root, htree, hcompile, hw, hprepared⟩ := exists_tree h
  obtain ⟨size, code, counters, -, -, hprogram⟩ := CodeEnv.compile_eq_ok hcompile
  have hopens : s.env.opens newline false s.options root := by simpa [Source.opens, htree] using hopens
  have horderly : s.env.isOrderly s.options root :=
    CodeEnv.isOrderly_of_isBlind root (isGuarded_of_tree h htree s.options) (CodeEnv.isBlind_of_opens root hopens)
  let m := re.matcher .unlimited options text start
  have henc : m.encoding = .ascii := by
    rw [show m.encoding = re.program.encoding from rfl, hprogram, ← he]
    rfl
  have hlong : m.options.contains .findLongest = false := by
    rw [← hlong, show m.options = re.program.options.union options from rfl, hprogram]
  -- 二つの照合がどちらも終わるだけの歩数で比べる
  let n := max (max fuel fuel') (text.size + 1)
  have hsettles {x : Nat} (hx : x ≤ text.size) : m.Settles x n { pc := 0, pos := x, caps := .fresh m.program.groups }
      (s.env.answer? s.options groups root m x n) :=
    CodeEnv.compile_settles hcompile hw rfl rfl hprepared.ready hprepared.next horderly hx n
      (Nat.lt_of_lt_of_le (Nat.lt_succ_self _) (Nat.le_max_right ..))
  have hanswer := (hsettles hp).eq_of_matchAt hp hmatches (by omega)
  have hanswer' := (hsettles (Nat.le_of_lt hp)).eq_of_matchAt (Nat.le_of_lt hp) hfails (by omega)
  exact CodeEnv.answer?_ensures hopens henc hlong hp hread hanswer hanswer'

/-- 任意の文字の繰り返しで始まり、後が捕獲を読まなければ、最も左の照合は、検索の始まりか行頭から始まる。 -/
theorem start_of_opens (h : Regex.compile s = .ok re) (he : s.encoding = .ascii) (hopens : s.opens newline)
    (hlong : (s.options.union options).contains .findLongest = false)
    (hrange : range ≤ text.size)
    (hf : (re.matcher .unlimited options text start).Leftmost (fun x => start ≤ x ∧ x ≤ range) (some f)) :
    f.start = start ∨ newline = false ∧ text[f.start - 1]? = some 0x0a := by
  obtain ⟨⟨hlo, hhi⟩, hreturns, hleft⟩ := hf
  by_contra hnot
  rw [not_or] at hnot
  obtain ⟨hne, hbreak⟩ := hnot
  obtain ⟨p, hp⟩ := Nat.exists_eq_succ_of_ne_zero (n := f.start) (by omega)
  rw [hp] at hreturns
  obtain ⟨caps, hfails⟩ := hleft p (by omega) ⟨by omega, by omega⟩
  refine not_returns_none h he hopens hlong (by omega) ?_ hreturns hfails
  by_contra hread
  rw [not_or, not_not] at hread
  exact hbreak ⟨by simpa using hread.1, by rw [hp]; exact hread.2⟩

/-- 任意の文字の繰り返しで始まり、後が捕獲を読まなければ、最も左の照合は、読み取った検査に合う。 -/
theorem admits_of_opens (h : Regex.compile s = .ok re) (he : s.encoding = .ascii) (hopens : s.opens newline)
    (hlong : (s.options.union options).contains .findLongest = false)
    (hrange : range ≤ text.size)
    (hf : (re.matcher .unlimited options text start).Leftmost (fun x => start ≤ x ∧ x ≤ range) (some f)) :
    re.plan.Admits text start f.start := by
  rcases start_of_opens h he hopens hlong hrange hf with hstart | ⟨rfl, hline⟩
  · exact ⟨fun _ => hstart, fun _ => .inl hstart⟩
  · obtain ⟨groups, root, htree, -⟩ := exists_tree h
    have hroot : s.env.opens false false s.options root := by simpa [Source.opens, htree] using hopens
    have hedges : re.plan.edges.anyStarNewline = false := by
      rw [plan_eq h htree, Plan.ofHints_edges]
      exact (Facts.inLine_ofNode root hroot).left
    exact ⟨fun hn => by simp [hedges] at hn, fun _ => .inr hline⟩

example : Source.opens { pattern := Pattern.ascii "(?:(.+)a|(?>.*b))c?", encoding := .ascii } false := by decide +kernel

end Regex
end MultibyteRegex

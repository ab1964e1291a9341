import MultibyteRegex.Proofs.Caseless
import MultibyteRegex.Proofs.Planning
import MultibyteRegex.Proofs.Scanning

/-!
# 写して等しい本文の検索

区別しない木の手がかりは、写して探す文字列と、同じとみなすバイトを見分けない集合だけである。写して等しい本文では、
試す位置の列も、その位置での照合も同じになる。
-/

namespace MultibyteRegex

/-! ## 手がかり -/

/-- 手がかりの文字列はどれも写して比べ、始まるバイトの集合は同じとみなすバイトを見分けない。 -/
structure Facts.IsCaseless (f : Facts) : Prop where
  leading : ∀ k ∈ f.leading, k.folded
  best : ∀ k ∈ f.best, k.folded
  trailing : ∀ k ∈ f.trailing, k.folded
  first : ∀ s ∈ f.first, s.IsCaseless

theorem Key.folded_clip (k : Key) (e : Encoding) (n : Nat) : (k.clip e n).folded = k.folded := by
  unfold clip
  dsimp only
  split <;> rfl

namespace Facts

variable {f g : Facts} {e : Encoding}

theorem IsCaseless.of_none (hleading : f.leading = none) (hbest : f.best = none)
    (htrailing : f.trailing = none) (hfirst : ∀ s ∈ f.first, s.IsCaseless) : f.IsCaseless := by
  refine ⟨?_, ?_, ?_, hfirst⟩ <;> simp [hleading, hbest, htrailing]

theorem IsCaseless.empty : IsCaseless {} := .of_none rfl rfl rfl nofun

/-! ### 並び -/

/-- 途中までの文字列はどれも写して比べる。 -/
structure Running.IsCaseless (r : Running) : Prop extends r.facts.IsCaseless where
  opened : ∀ k ∈ r.open_, k.folded
  kept : ∀ k ∈ r.best, k.folded

namespace Running.IsCaseless

variable {r : Running} {k : Key} {leading trailing o : Option Key}

theorem reopen (h : r.IsCaseless) (ho : ∀ k ∈ o, k.folded) : Running.IsCaseless { r with open_ := o } :=
  ⟨h.toIsCaseless, ho, h.kept⟩

theorem finish (h : r.IsCaseless) (hk : k.folded) : (r.finish k).IsCaseless := by
  refine ⟨⟨fun k' hk' => ?_, h.best, h.trailing, h.first⟩, h.opened, fun k' hk' => ?_⟩
  · dsimp only [Running.finish] at hk'
    split at hk'
    · cases hk'
      exact hk
    · exact h.leading k' hk'
  · rcases Key.eq_or_eq_of_better hk' with hb | hb
    · exact h.kept k' hb
    · cases hb
      exact hk

theorem finish? (h : r.IsCaseless) (ho : ∀ k ∈ o, k.folded) : (r.finish? o).IsCaseless := by
  cases o with
  | none => exact h
  | some k => exact h.finish (ho k rfl)

theorem switch (h : r.IsCaseless) (hlead : ∀ k ∈ leading, k.folded) (htrail : ∀ k ∈ trailing, k.folded) :
    (r.switch leading trailing).IsCaseless := by
  unfold Running.switch
  split
  · rename_i k
    split
    · exact h.reopen hlead
    · exact (h.finish (hlead k rfl)).reopen htrail
  · exact h.reopen htrail

theorem extend (h : r.IsCaseless) (hlead : ∀ k ∈ leading, k.folded) (htrail : ∀ k ∈ trailing, k.folded) :
    (r.extend e leading trailing).IsCaseless := by
  rw [extend_eq]
  split
  · rename_i a b ha
    have hconcat : (a.concat b e).folded := (Key.folded_concat a b e).trans (h.opened a ha)
    split
    · split
      · exact h.reopen (by simpa using hconcat)
      · exact (h.finish hconcat).reopen htrail
    · exact (h.finish (h.opened a ha)).switch hlead htrail
  · exact (h.finish? h.opened).switch hlead htrail

theorem add (h : r.IsCaseless) (hf : f.IsCaseless) : (Running.add e r f).IsCaseless := by
  have hshift {x : Option Key} (hx : ∀ k ∈ x, k.folded) (pos : Interval) :
      ∀ k ∈ x.map (·.shift pos), k.folded := by
    intro k hk
    obtain ⟨k', hk', rfl⟩ := Option.map_eq_some_iff.1 hk
    exact hx k' hk'
  have hread : Running.IsCaseless { r with
      facts := { r.facts with
        left := if r.atStart then r.facts.left.union f.left else r.facts.left
        first := if r.atStart ∧ r.facts.first.isNone ∧ r.facts.length.isZero then f.first else r.facts.first
        right := if f.length.isZero then r.facts.right.union f.right else f.right }
      atStart := r.atStart && f.length.isZero
      best := Key.better r.best (f.best.map (·.shift r.facts.length)) } := by
    refine ⟨⟨h.leading, h.best, h.trailing, fun s hs => ?_⟩, h.opened, fun k hk => ?_⟩
    · dsimp only at hs
      split at hs
      · exact hf.first s hs
      · exact h.first s hs
    · rcases Key.eq_or_eq_of_better hk with hk | hk
      · exact h.kept k hk
      · exact hshift hf.best _ k hk
  unfold Running.add
  dsimp only
  split
  · exact hread
  · have hext := hread.extend (e := e) (hshift hf.leading r.facts.length) (hshift hf.trailing r.facts.length)
    exact ⟨⟨hext.leading, hext.best, hext.trailing, hext.first⟩, hext.opened, hext.kept⟩

theorem done (h : r.IsCaseless) : r.done.IsCaseless := by
  unfold Running.done
  split
  · exact ⟨h.leading, h.kept, h.trailing, h.first⟩
  · rename_i k hk
    have hk := h.opened k hk
    refine ⟨fun k' hk' => ?_, fun k' hk' => ?_, fun k' hk' => ?_, h.first⟩
    · dsimp only at hk'
      split at hk'
      · cases hk'
        exact hk
      · exact h.leading k' hk'
    · rcases Key.eq_or_eq_of_better hk' with hb | hb
      · exact h.kept k' hb
      · cases hb
        exact hk
    · cases hk'
      exact hk

end Running.IsCaseless

theorem isCaseless_seq {fs : List Facts} (h : ∀ f ∈ fs, f.IsCaseless) : (seq e fs).IsCaseless := by
  have hfold : ∀ {r : Running}, r.IsCaseless → (fs.foldl (Running.add e) r).IsCaseless := by
    induction fs with
    | nil => exact id
    | cons f fs ih =>
      obtain ⟨hf, hfs⟩ := List.forall_mem_cons.1 h
      exact fun hr => ih hfs (hr.add hf)
  exact (hfold ⟨.empty, by simp, by simp⟩).done

/-! ### 選択 -/

theorem folded_commonKey {a b : Option Key} (ha : ∀ k ∈ a, k.folded) : ∀ k ∈ commonKey a b, k.folded := by
  intro k hk
  unfold commonKey at hk
  split at hk
  · rename_i a b
    dsimp only at hk
    split at hk
    · cases hk
    · split at hk
      · cases hk
      · obtain rfl := Option.some.inj hk
        exact ha a rfl
  · cases hk

theorem isCaseless_either (hf : f.IsCaseless) (hg : g.IsCaseless) : (f.either g).IsCaseless := by
  refine ⟨folded_commonKey hf.leading, nofun, nofun, fun s hs b => ?_⟩
  unfold either at hs
  dsimp only at hs
  split at hs
  · rename_i s t hs' ht
    obtain rfl := Option.some.inj hs
    rw [ByteSet.contains_union, ByteSet.contains_union, hf.first s hs' b, hg.first t ht b]
  · cases hs

theorem isCaseless_alt {fs : List Facts} (h : ∀ f ∈ fs, f.IsCaseless) : (alt e fs).IsCaseless := by
  cases fs with
  | nil => exact .empty
  | cons f fs =>
    obtain ⟨hf, hfs⟩ := List.forall_mem_cons.1 h
    have hall : ∀ {acc : Facts}, acc.IsCaseless → (fs.foldl either acc).IsCaseless := by
      clear h
      induction fs with
      | nil => exact id
      | cons g fs ih =>
        obtain ⟨hg, hfs⟩ := List.forall_mem_cons.1 hfs
        exact fun hacc => ih hfs (isCaseless_either hacc hg)
    have hall : (fs.foldl either { f with best := none, trailing := none }).IsCaseless :=
      hall ⟨hf.leading, nofun, nofun, hf.first⟩
    have hlead : ∀ k ∈ (Facts.alt e (f :: fs)).leading, k.folded := by
      intro k hk
      obtain ⟨k', hk', rfl⟩ := Option.map_eq_some_iff.1 (Option.filter_eq_some_iff.1 hk).1
      exact (Key.folded_clip ..).trans (hall.leading k' hk')
    exact ⟨hlead, hlead, fun k hk => hlead k (Option.filter_eq_some_iff.1 hk).1, hall.first⟩

/-! ### 節 -/

theorem isCaseless_ofLiteral (bytes : List UInt8) : (ofLiteral .ascii (some .ascii) true bytes).IsCaseless := by
  have hknown {k : Key} {s : ByteSet} (n : Interval) (hk : k.folded) (hs : s.IsCaseless) : Facts.IsCaseless
      { length := n, leading := some k, best := some k, trailing := some k, first := some s } := by
    have hall : ∀ k' ∈ some k, k'.folded := by simpa using hk
    exact ⟨hall, hall, hall, by simpa using hs⟩
  unfold ofLiteral
  split
  · exact .of_none rfl rfl rfl (by simp)
  · rename_i b bytes
    have hfirst : ByteSet.IsCaseless (.ofPred fun c => FoldTable.ascii.fold c == FoldTable.ascii.fold b) :=
      fun c => by rw [ByteSet.contains_ofPred, ByteSet.contains_ofPred, FoldTable.fold_fold_ascii]
    dsimp only
    split
    · split
      · exact .of_none rfl rfl rfl (by simp)
      · exact hknown _ (Key.folded_clip ..) hfirst
    · rename_i hi
      exact absurd rfl hi

theorem isCaseless_ofChar {s : ByteSet} (h : s.IsCaseless) : (ofChar e s).IsCaseless :=
  .of_none rfl rfl rfl (by simpa [ofChar] using h)

theorem isCaseless_loop (options : Options) (l : Loop) (isAny : Bool) (h : f.IsCaseless) :
    (loop options l isAny f).IsCaseless := by
  unfold loop
  dsimp only
  split
  · exact ⟨h.leading, h.best, h.trailing, h.first⟩
  · split
    · refine ⟨fun k hk => ?_, h.best, nofun, h.first⟩
      obtain ⟨k', hk', rfl⟩ := Option.map_eq_some_iff.1 hk
      exact h.leading k' hk'
    · exact .of_none rfl rfl rfl nofun

end Facts

theorem CharClass.isCaseless_leadBytes {c : CharClass} (h : c.bytes.IsCaseless) :
    (c.leadBytes .ascii).IsCaseless := by
  have hsingle (b : UInt8) : isSingle .ascii b.toNat := by
    have := b.toNat_lt
    simp [isSingle, Encoding.width, this]
  intro b
  simp only [leadBytes, ByteSet.contains_ofPred, hsingle, if_true, h b]

namespace Node

mutual
/-- 区別しない節の手がかりは、同じとみなす文字を見分けない。 -/
theorem facts_caseless : (n : Node) → {options : Options} → options.contains .ignoreCase → n.isCaseless →
    n.Ready .ascii options → (Facts.ofNode .ascii (some .ascii) options n).IsCaseless
  | .list ns, _, hi, hn, h => Facts.isCaseless_seq (factsList_caseless ns hi hn h)
  | .alt ns, _, hi, hn, h => Facts.isCaseless_alt (factsAlt_caseless ns hi hn h)
  | .scoped _ body, _, _, hn, h =>
    facts_caseless body (Bool.and_eq_true_iff.1 hn).1 (Bool.and_eq_true_iff.1 hn).2 h.2
  | .loop l body, options, hi, hn, h => by
    obtain ⟨isAny, hloop⟩ := facts_loop .ascii (some .ascii) options l body
    rw [hloop]
    exact Facts.isCaseless_loop options l isAny (facts_caseless body hi hn h.2.2.2.2)
  | .group (.capture _ _) body, _, hi, hn, h | .group .atomic body, _, hi, hn, h =>
    facts_caseless body hi hn h.2
  | .group .ahead _, _, _, _, _ | .group .notAhead _, _, _, _, _ | .group .behind _, _, _, _, _
  | .group .notBehind _, _, _, _, _ | .empty, _, _, _, _ => .empty
  | .str bytes, options, hi, _, _ => by
    rw [Facts.ofNode, hi]
    exact Facts.isCaseless_ofLiteral bytes
  | .raw _, _, _, hn, _ => by cases hn
  | .cclass c, _, hi, _, h =>
    Facts.isCaseless_ofChar (CharClass.isCaseless_leadBytes (CharClass.isCaseless_of_closeFold (h hi)))
  | .word isWord, _, _, _, _ => by
    have hset : ByteSet.IsCaseless (.ofPred fun b => Encoding.ascii.isWordLead b == isWord) := fun b => by
      rw [ByteSet.contains_ofPred, ByteSet.contains_ofPred, FoldTable.isWordLead_fold_ascii]
    exact Facts.isCaseless_ofChar hset
  | .any, options, _, _, _ => by
    have hset : ByteSet.IsCaseless (.ofPred fun b => options.contains .multiline || b != 0x0a) := fun b => by
      simp only [ByteSet.contains_ofPred, bne, FoldTable.newline_fold_ascii]
    exact Facts.isCaseless_ofChar hset
  | .anchor a, _, _, _, _ => by
    cases a <;> simp only [Facts.ofNode, Facts.ofAnchor] <;> (try split) <;> exact .of_none rfl rfl rfl nofun
  | .backref _, _, _, _, _ => .of_none rfl rfl rfl nofun

theorem factsList_caseless : (ns : List Node) → {options : Options} → options.contains .ignoreCase →
    allCaseless ns → ReadyList .ascii options ns →
    ∀ f ∈ Facts.ofNodes .ascii (some .ascii) options ns, f.IsCaseless
  | [], _, _, _, _ => List.forall_mem_nil _
  | n :: ns, _, hi, hn, h => by
    obtain ⟨hcn, hcns⟩ := Bool.and_eq_true_iff.1 hn
    exact List.forall_mem_cons.2 ⟨facts_caseless n hi hcn h.2.1, factsList_caseless ns hi hcns h.2.2⟩

theorem factsAlt_caseless : (ns : List Node) → {options : Options} → options.contains .ignoreCase →
    allCaseless ns → ReadyAlt .ascii options ns →
    ∀ f ∈ Facts.ofNodes .ascii (some .ascii) options ns, f.IsCaseless
  | [], _, _, _, _ => List.forall_mem_nil _
  | n :: ns, _, hi, hn, h => by
    obtain ⟨hcn, hcns⟩ := Bool.and_eq_true_iff.1 hn
    exact List.forall_mem_cons.2 ⟨facts_caseless n hi hcn h.2.2.1, factsAlt_caseless ns hi hcns h.2.2.2⟩
end

end Node

/-! ## 探すもの -/

/-- 写して等しい本文で同じ所に見つかるもの。 -/
def Finder.IsCaseless : Finder → Prop
  | .nothing => True
  | .folded _ => True
  | .member set => set.IsCaseless
  | _ => False

/-- 区別しない木の手順は、同じとみなす文字を見分けない。 -/
theorem Plan.isCaseless_ofTree {options : Options} {root : Node} (hi : options.contains .ignoreCase)
    (hroot : root.isCaseless) (h : root.Ready .ascii options) :
    (Plan.ofHints .ascii (Hints.ofTree .ascii (some .ascii) options root)).finder.IsCaseless := by
  have hfacts := Node.facts_caseless root hi hroot h
  obtain ⟨edges, key, first, heq, -, -, hkey, hfirst⟩ := Hints.ofTree_eq .ascii (some .ascii) options root
  rw [heq]
  cases key with
  | some k =>
    change (finderOf .ascii k).IsCaseless
    rw [finderOf, if_pos (hfacts.best k (hkey k rfl))]
    trivial
  | none =>
    cases first with
    | some set => exact hfacts.first set (hfirst set rfl)
    | none => trivial

theorem Text.SameFold.hits {text text' : Text} (h : text.SameFold text') {f : Finder} (hf : f.IsCaseless) :
    f.hits .ascii text = f.hits .ascii text' := by
  cases f with
  | nothing => rfl
  | exact | leaping => cases hf
  | folded key => exact funext (h.hasFoldedAt key)
  | member set => exact funext (h.any_eq hf)

/-! ## 候補 -/

namespace Quarry

variable {q : Quarry} {text' : Text}

/-- 一バイトの符号化では、本文は探すものの現れる所だけを決める。 -/
theorem forward_ascii (he : q.encoding = .ascii) (hi s : Nat) : q.forward hi s =
    if s ≤ hi then
      match Text.firstFrom (q.plan.finder.hits q.fold q.text) (s + q.plan.distance.min) (q.reach hi) with
      | none => []
      | some p =>
        let low := q.earliest s p
        let high := min (p - q.plan.distance.min) hi
        List.range' low (high + 1 - low) ++ q.forward hi (max (high + 1) (max low (high + 1)))
    else [] := by
  have hfinder : q.plan.finder.forward .ascii q.fold q.text (s + q.plan.distance.min) (q.reach hi) =
      Text.firstFrom (q.plan.finder.hits q.fold q.text) (s + q.plan.distance.min) (q.reach hi) :=
    Finder.forward_ascii
  rw [forward]
  split
  · rw [← hfinder, ← he]
    split
    · rename_i hnone
      rw [hnone]
    · rename_i p hp
      rw [hp]
      dsimp only
      rw [he, Encoding.rightAdjust_ascii, Encoding.rightAdjust_ascii, Encoding.headsUp_ascii]
  · rfl

theorem backward_ascii (he : q.encoding = .ascii) (lo s : Nat) : q.backward lo s =
    if lo ≤ s then
      match Text.lastFrom (q.plan.finder.hits q.fold q.text) (lo + q.plan.distance.min) (q.reach s) with
      | none => []
      | some p =>
        let low := q.earliest lo p
        let high := min (p - q.plan.distance.min) s
        (List.range' low (high + 1 - low)).reverse ++
          if high < low then q.backward lo high else if low = 0 then [] else q.backward lo (low - 1)
    else [] := by
  have hfinder : q.plan.finder.backward .ascii q.fold q.text (q.reach s) (lo + q.plan.distance.min) =
      Text.lastFrom (q.plan.finder.hits q.fold q.text) (lo + q.plan.distance.min) (q.reach s) :=
    Finder.backward_ascii
  rw [backward]
  split
  · rw [← hfinder, ← he]
    split
    · rename_i hnone
      rw [hnone]
    · rename_i p hp
      rw [hp]
      dsimp only
      rw [he, Encoding.leftAdjust_ascii, Encoding.headsDown_ascii]
      congr 1
      split
      · rename_i n hn
        dsimp only at hn
        split at hn
        · rename_i hlt
          cases hn
          rw [if_pos hlt]
        · rename_i hlt
          split at hn
          · cases hn
          · rename_i h0
            cases hn
            rw [if_neg hlt, if_neg h0]
      · rename_i hn
        dsimp only at hn
        split at hn
        · cases hn
        · rename_i hlt
          split at hn
          · rename_i h0
            rw [if_neg hlt, if_pos h0]
          · cases hn
  · rfl

/-- 同じとみなす文字を見分けない、一バイトの符号化の探し方。 -/
structure IsCaseless (q : Quarry) : Prop where
  encoding : q.encoding = .ascii
  fold : q.fold = .ascii
  finder : q.plan.finder.IsCaseless

section

variable (h : q.text.SameFold text')

include h

theorem reach_sameFold : { q with text := text' }.reach = q.reach := by
  funext s
  simp only [reach, h.size]

theorem window?_sameFold (start lo hi : Nat) :
    q.plan.window? text' start lo hi = q.plan.window? q.text start lo hi := by
  have hback : (text'.back? = some 0x0a) = (q.text.back? = some 0x0a) := by
    have hnl := h.isNewline (q.text.size - 1)
    rw [Bool.eq_iff_iff, beq_iff_eq, beq_iff_eq] at hnl
    rw [Array.back?, Array.back?, ← h.size, hnl]
  simp only [Plan.window?, Plan.earliestEnd, hback, h.size]

theorem isLineHead_sameFold (start : Nat) : { q with text := text' }.isLineHead start = q.isLineHead start := by
  funext s
  simp only [isLineHead, h.isNewline]

end

variable (hq : q.IsCaseless) (h : q.text.SameFold text')

include hq h

theorem hits_sameFold : q.plan.finder.hits q.fold text' = q.plan.finder.hits q.fold q.text := by
  rw [hq.fold, h.hits hq.finder]

theorem forward_sameFold (hi s : Nat) : { q with text := text' }.forward hi s = q.forward hi s := by
  induction hn : hi + 1 - s using Nat.strongRecOn generalizing s with
  | ind n ih =>
    subst hn
    rw [forward_ascii hq.encoding, forward_ascii (q := { q with text := text' }) hq.encoding,
      reach_sameFold h, hits_sameFold hq h]
    split
    · rename_i hs
      dsimp only
      cases hp : Text.firstFrom (q.plan.finder.hits q.fold q.text) (s + q.plan.distance.min) (q.reach hi) with
      | none => rfl
      | some p =>
        have := Text.firstFrom_ge hp
        dsimp only
        rw [ih _ _ _ rfl]
        · rfl
        · omega
    · rfl

theorem backward_sameFold (lo s : Nat) : { q with text := text' }.backward lo s = q.backward lo s := by
  induction s using Nat.strongRecOn with
  | ind s ih =>
    rw [backward_ascii hq.encoding, backward_ascii (q := { q with text := text' }) hq.encoding,
      reach_sameFold h, hits_sameFold hq h]
    split
    · rename_i hs
      dsimp only
      cases hp : Text.lastFrom (q.plan.finder.hits q.fold q.text) (lo + q.plan.distance.min) (q.reach s) with
      | none => rfl
      | some p =>
        have hlow : q.earliest lo p ≤ s := earliest_le hs (Text.lastFrom_le hp)
        have hsame : { q with text := text' }.earliest lo p = q.earliest lo p := rfl
        dsimp only
        rw [hsame]
        congr 1
        split
        · exact ih _ (by omega)
        · split
          · rfl
          · exact ih _ (by omega)
    · rfl

/-- 写して等しい本文では、試す位置の列が等しい。 -/
theorem candidates_sameFold (start range : Nat) :
    { q with text := text' }.candidates start range = q.candidates start range := by
  have hleft (text : Text) (pos : Nat) : q.encoding.leftAdjust text 0 pos = pos := by
    rw [hq.encoding, Encoding.leftAdjust_ascii]
  have hup (text : Text) : q.encoding.headsUp text = q.encoding.headsUp q.text := by
    funext hi c
    rw [hq.encoding, Encoding.headsUp_ascii, Encoding.headsUp_ascii]
  have hdown (text : Text) : q.encoding.headsDown text = q.encoding.headsDown q.text := by
    funext lo c
    rw [hq.encoding, Encoding.headsDown_ascii, Encoding.headsDown_ascii]
  unfold candidates
  simp only [window?_sameFold h, isLineHead_sameFold h, forward_sameFold hq h, backward_sameFold hq h, hleft,
    hup text', hdown text']

end Quarry

/-! ## 検索 -/

namespace Matcher

variable {m : Matcher} {text' : Text}

theorem first_sameFold (hp : m.program.IsCaseless) (h : m.text.SameFold text') (fuel : Nat) (cs : List Nat) :
    { m with text := text' }.first fuel cs = m.first fuel cs := by
  induction cs with
  | nil => rfl
  | cons c cs ih => rw [first, first, matchAt_sameFold hp h, ih]

theorem longest_sameFold (hp : m.program.IsCaseless) (h : m.text.SameFold text') (fuel : Nat)
    (best : Option Found) (cs : List Nat) :
    { m with text := text' }.longest fuel best cs = m.longest fuel best cs := by
  induction cs generalizing best with
  | nil => rfl
  | cons c cs ih => simp only [longest, matchAt_sameFold hp h, ih]

end Matcher

namespace Regex

variable {s : Source} {re : Regex} {parsed : Pattern.Parsed}

/-- 同じとみなす文字を見分けない正規表現。 -/
structure IsCaseless (re : Regex) : Prop where
  program : re.program.IsCaseless
  finder : re.plan.finder.IsCaseless

theorem isCaseless_compile (henc : s.encoding = .ascii) (hfold : s.fold = some .ascii)
    (hi : s.options.contains .ignoreCase) (hparse : Pattern.parse s.encoding s.options s.pattern = .ok parsed)
    (htree : parsed.root.isCaseless) (h : Regex.compile s = .ok re) : re.IsCaseless := by
  obtain ⟨parsed', root, hparse', hprepare, hcompile, hplan⟩ := compile_eq_ok h
  cases hparse.symm.trans hparse'
  have hroot := Node.isCaseless_prepare htree hprepare
  have hready : root.Prepared .ascii s.options false := by
    simpa [hfold] using Node.prepared_prepare (Pattern.plain_parse hparse) hprepare
  refine ⟨CodeEnv.compile_caseless henc hfold hcompile hi hroot hready, ?_⟩
  rw [hplan, henc, hfold]
  exact Plan.isCaseless_ofTree hi hroot hready.ready

/-- どの旗の範囲でも区別しないパターンの検索は、写して等しい二つの本文で、同じ歩数で同じ答えになる。 -/
theorem search_sameFold (henc : s.encoding = .ascii) (hfold : s.fold = some .ascii)
    (hi : s.options.contains .ignoreCase) (hparse : Pattern.parse s.encoding s.options s.pattern = .ok parsed)
    (htree : parsed.root.isCaseless) (h : Regex.compile s = .ok re) {text text' : Text}
    (hsame : text.SameFold text') (limits : Limits) (fuel : Nat) (options : Options) (start range : Nat) :
    re.search limits fuel options text start range = re.search limits fuel options text' start range := by
  obtain ⟨hprogram, hfinder⟩ := isCaseless_compile henc hfold hi hparse htree h
  have hquarry : (⟨re.plan, re.program.encoding, re.program.fold, text⟩ : Quarry).IsCaseless :=
    ⟨hprogram.encoding, hprogram.fold, hfinder⟩
  let m := re.matcher limits options text start
  have hfirst := Matcher.first_sameFold (m := m) hprogram hsame fuel
  have hlongest := Matcher.longest_sameFold (m := m) hprogram hsame fuel none
  have hcandidates := Quarry.candidates_sameFold hquarry hsame start range
  unfold search
  dsimp only
  rw [← hcandidates, ← hsame.size]
  split
  · rfl
  · by_cases hl : m.options.contains .findLongest
    · exact (if_pos hl).trans ((hlongest _).symm.trans (if_pos hl).symm)
    · exact (if_neg hl).trans ((hfirst _).symm.trans (if_neg hl).symm)

/-- 後方参照を含み、大文字と小文字の入れ替わった二つの本文の同じ所に合う例。 -/
theorem search_sameFold_backref :
    ∃ s parsed re f, s = { pattern := Pattern.ascii "x?(ab)_\\1", options := .ignoreCase, encoding := .ascii } ∧
      Pattern.parse s.encoding s.options s.pattern = .ok parsed ∧ parsed.root.isCaseless ∧
      Regex.compile s = .ok re ∧
      Text.SameFold #[0x78, 0x61, 0x42, 0x5f, 0x41, 0x62] #[0x58, 0x41, 0x62, 0x5f, 0x61, 0x42] ∧
      re.search .unlimited 60 .none #[0x78, 0x61, 0x42, 0x5f, 0x41, 0x62] 0 6 = some (.ok (some f)) ∧
      f.start = 0 ∧ f.length = 6 ∧
      re.search .unlimited 60 .none #[0x58, 0x41, 0x62, 0x5f, 0x61, 0x42] 0 6 = some (.ok (some f)) := by
  let s : Source := { pattern := Pattern.ascii "x?(ab)_\\1", options := .ignoreCase, encoding := .ascii }
  obtain ⟨parsed, hparse, htree⟩ := exists_ok (x := Pattern.parse s.encoding s.options s.pattern)
    (p := fun parsed => parsed.root.isCaseless) (by decide +kernel)
  obtain ⟨re, h, hok⟩ := exists_ok (x := Regex.compile s)
    (p := fun re => ((re.search .unlimited 60 .none #[0x78, 0x61, 0x42, 0x5f, 0x41, 0x62] 0 6).bind
      Result.toOption).any fun r => r.any fun f => f.start == 0 && f.length == 6) (by decide +kernel)
  obtain ⟨r, hr, hfound⟩ := exists_some_ok hok
  obtain ⟨f, rfl, hf⟩ := (Option.any_eq_true _ _).1 hfound
  obtain ⟨hstart, hlength⟩ := Bool.and_eq_true_iff.1 hf
  have hsame : Text.SameFold #[0x78, 0x61, 0x42, 0x5f, 0x41, 0x62] #[0x58, 0x41, 0x62, 0x5f, 0x61, 0x42] := by
    unfold Text.SameFold
    decide +kernel
  have hsearch := search_sameFold rfl rfl (by decide) hparse htree h hsame .unlimited 60 .none 0 6
  exact ⟨s, parsed, re, f, rfl, hparse, htree, h, hsame, hr, eq_of_beq hstart, eq_of_beq hlength, hsearch ▸ hr⟩

end Regex
end MultibyteRegex

import MultibyteRegex.Region
import MultibyteRegex.Proofs.Continuation
import MultibyteRegex.Proofs.Strides

/-!
# 後読みは位置を動かさない

正しい本文で、後読みの本体が途中で切れた文字列を持たなければ、切れ目で始めた後読みは始めた位置で終わり、照合は
始まりより前で終わらない。どの文字列も切れていなければ、切れ目から始めた照合は切れ目だけを通る。
-/

namespace MultibyteRegex

namespace Matcher

variable {m : Matcher} {origin : Nat}

/-- `r` の命令は後読みの断片の始まりで、そこから断片の終わりに着く筋は、どれも位置と目印を元に戻している。 -/
def Rewinds (env : CodeEnv) (m : Matcher) (r : Registers) : Prop :=
  ∃ ms options body code, Nested ms r.stack ∧
    (∃ c c', env.emit options (.group .behind body) c = .ok (code, c')) ∧ CodeAt m.program r.pc code ∧
    m.Leads r.pc (r.pc + code.length) ms r.pos fun ms' t => ms' = ms ∧ t = r.pos

theorem Reachable.head {r : Registers} (hw : m.encoding.isWellFormed m.text.toList)
    (hkeeps : m.program.fold.KeepsWidth m.encoding) (hcode : ∀ i ∈ m.program.code, i.isWhole m.encoding)
    (ho : m.encoding.Head m.text origin) (h : m.Reachable origin r) : m.encoding.Head m.text r.pos :=
  (h.positions (fun i hi => keeps_head hw hkeeps (hcode i hi)) ho).pos

end Matcher

namespace CodeEnv

variable {env : CodeEnv} {options : Options} {groups : Nat} {root : Node} {program : Program} {m : Matcher}
  {origin : Nat}

theorem compile_aligned (h : env.compile options groups root = .ok program) (hm : m.program = program)
    (hkeeps : (env.fold.getD .ascii).KeepsWidth env.encoding) (hw : env.encoding.isWellFormed m.text.toList)
    (hsize : m.text.size ≤ maxSize) : Aligned env m := by
  obtain ⟨size, code, counters, -, -, hprogram⟩ := compile_eq_ok h
  have hencoding : m.encoding = env.encoding := by rw [Matcher.encoding, hm, hprogram]
  have hfold : m.program.fold = env.fold.getD .ascii := by rw [hm, hprogram]
  exact ⟨hencoding, hfold, by rwa [hfold, hencoding], by rwa [hencoding], hsize⟩

theorem compile_whole (h : env.compile options groups root = .ok program) (hroot : root.isWhole env.encoding)
    (hkeeps : (env.fold.getD .ascii).KeepsWidth env.encoding) :
    ∀ i ∈ program.code, i.isWhole env.encoding := by
  refine compile_only (fun _ => Instruction.isWhole_of_isControl) h (emit_whole (fun t ht => ?_) root hroot)
  rwa [show env.fold = some t from ht] at hkeeps

theorem rewinds_of_passage (hx : Aligned env m) {bodies : List Node}
    (hb : ∀ b ∈ bodies, b.isWhole m.encoding) {r : Registers} {ms : List Frame} (hn : Nested ms r.stack)
    (hr : m.encoding.Head m.text r.pos) (h : env.Passage m bodies r.pc ms r.pos) : m.Rewinds env r := by
  obtain ⟨body, hbody, options, code, hc, hcode, hleads⟩ := h
  refine ⟨ms, options, body, code, hn, hc, hcode, hleads.mono fun ms' t h => ⟨h.1, ?_⟩⟩
  have hwhole : (Node.group .behind body).isWhole m.encoding := hb body hbody
  exact ((Node.spans_stride hx _ true hwhole rfl h.2 hr).count).symm

end CodeEnv

theorem Verdict.Answers.group_zero {Q : Promise} {origin l : Nat} {v : Verdict} (h : v.Answers Q origin)
    (hl : v.length = some l) : (Region.ofCaptures v.caps).group 0 = some (origin, origin + l) := by
  obtain ⟨p, -, hle, rfl, hzero⟩ := h l hl
  have hlt := (Array.getElem?_eq_some_iff.1 hzero).1
  rw [Region.ofCaptures, Region.group_update hlt]
  simp [Captures.span?, hzero, hle]

namespace Source

/-- 文字列がどれも、途中で切れた文字を含まない。 -/
def isWhole (s : Source) : Bool := s.tree?.all (·.isWhole s.encoding)

/-- 後読みの本体の文字列がどれも、途中で切れた文字を含まない。 -/
def behindsWhole (s : Source) : Bool := s.tree?.all (·.behinds.all (·.isWhole s.encoding))

/-- 後読みがある。 -/
def looksBehind (s : Source) : Bool := s.tree?.any (!·.behinds.isEmpty)

/-- 後読みで戻る長さと進む長さが釣り合う。後読みがないか、本文が正しく、後読みの本体の文字列が途中で切れた文字を
含まず、写しても文字の長さが変わらない。 -/
def Balanced (s : Source) (text : Text) : Prop :=
  s.looksBehind = false ∨ s.behindsWhole ∧ (s.fold.getD .ascii).KeepsWidth s.encoding ∧
    s.encoding.isWellFormed text.toList ∧ text.size ≤ maxSize

variable {s : Source} {root : Node} {groups : Nat} {program : Program} {m : Matcher} {x t : Nat}

/-- 釣り合っていれば、後読みのない木か、揃った照合である。 -/
theorem Balanced.cases (hb : s.Balanced m.text) (htree : s.tree? = some root)
    (h : s.env.compile s.options groups root = .ok program) (hm : m.program = program) :
    root.behinds = [] ∨ Aligned s.env m ∧ ∀ b ∈ root.behinds, b.isWhole m.encoding := by
  rcases hb with hnone | ⟨hwhole, hkeeps, hw, hsize⟩
  · exact .inl (by simpa [looksBehind, htree] using hnone)
  · have hx := CodeEnv.compile_aligned h hm hkeeps hw hsize
    have hcode : m.encoding = s.encoding := hx.code
    rw [hcode]
    exact .inr ⟨hx, by simpa [behindsWhole, htree] using hwhole⟩

theorem Balanced.spans_le (hb : s.Balanced m.text) (htree : s.tree? = some root)
    (h : s.env.compile s.options groups root = .ok program) (hm : m.program = program)
    (hspans : root.Spans s.env m s.options x t) (hx : x ≤ m.text.size) : x ≤ t ∧ t ≤ m.text.size := by
  rcases hb.cases htree h hm with hnone | ⟨haligned, hwhole⟩
  · obtain ⟨size, code, counters, -, -, rfl⟩ := CodeEnv.compile_eq_ok h
    have hforward := root.spans_forward (by rw [Matcher.encoding, hm]) (by rw [hm]) (by simp [hnone]) hspans hx
    exact ⟨hforward.le, hforward.within⟩
  · exact root.spans_le haligned hwhole hspans hx

end Source

namespace Regex

variable {s : Source} {re : Regex} {text : Text}

/-- 後読みの長さが釣り合っていれば、照合が打ち切られることはない。 -/
theorem matchAt_ne_aborted (h : Regex.compile s = .ok re) (hb : s.Balanced text) {limits : Limits}
    {options : Options} {start fuel origin : Nat} :
    (re.matcher limits options text start).matchAt fuel origin ≠ some .aborted := by
  intro haborted
  have ho : origin ≤ text.size := by
    refine Nat.le_of_not_lt fun hlt => ?_
    have herror : (re.matcher limits options text start).matchAt fuel origin = some (.error .invalidArgument) :=
      if_pos hlt
    cases herror.symm.trans haborted
  obtain ⟨groups, root, htree, hcompile, hwf, -⟩ := exists_tree h
  exact CodeEnv.matchAt_ne_aborted hcompile hwf rfl
    (fun t ht => (hb.spans_le htree hcompile rfl ht ho).1) haborted

/-- 切れ目で始めた後読みは位置を動かさず、照合は始まりより前で終わらないので、打ち切られることはなく、零番の捕獲は
照合の範囲になる。文字列がどれも切れていなければ、正しい本文では、切れ目から始めた照合は切れ目だけを通る。 -/
theorem matchAt_forward (h : Regex.compile s = .ok re) (hb : s.Balanced text) (limits : Limits)
    (options : Options) (start : Nat) {origin : Nat} (ho : origin ≤ text.size) :
    (∀ r chars, (re.matcher limits options text start).Reachable origin r →
      re.program.code[r.pc]? = some (.lookBehind chars) → s.encoding.Head text r.pos →
      (re.matcher limits options text start).Rewinds s.env r) ∧
    (s.isWhole → (s.fold.getD .ascii).KeepsWidth s.encoding → s.encoding.isWellFormed text.toList →
      s.encoding.Head text origin →
      ∀ r, (re.matcher limits options text start).Reachable origin r → s.encoding.Head text r.pos) ∧
    (∀ r, (re.matcher limits options text start).Reachable origin r →
      re.program.code[r.pc]? = some .accept → origin ≤ r.pos ∧ r.pos ≤ text.size) ∧
    ¬(re.matcher limits options text start).Aborts origin ∧
    ∀ v l, (re.matcher limits options text start).Returns origin v → v.length = some l →
      (Region.ofCaptures v.caps).group 0 = some (origin, origin + l) := by
  obtain ⟨groups, root, htree, hcompile, hwf, -⟩ := exists_tree h
  obtain ⟨size, code, counters, -, -, hprogram⟩ := CodeEnv.compile_eq_ok hcompile
  have haborts : ¬(re.matcher limits options text start).Aborts origin := fun ⟨_, h'⟩ => matchAt_ne_aborted h hb h'
  generalize hm : re.matcher limits options text start = m at haborts ⊢
  have hp : m.program = re.program := by rw [← hm]; rfl
  have htext : m.text = text := by rw [← hm]; rfl
  subst htext
  have hcode : m.encoding = s.encoding := by rw [Matcher.encoding, hp, hprogram]; rfl
  have hfold : m.program.fold = s.fold.getD .ascii := by rw [hp, hprogram]; rfl
  obtain ⟨T, hv, hT, -⟩ := CodeEnv.compile_verified hcompile hwf hp origin
  rw [← hp]
  refine ⟨fun r chars hr hi hhead => ?_, fun hwhole hkeeps hw ho r hr => ?_, fun r hr hi => ?_, haborts,
    fun v l hreturns hl => ?_⟩
  · obtain ⟨ms, hn, hnow⟩ := (hr.holds hv hT).now
    obtain ⟨i, hi', hallows⟩ := hv _ _ _ hnow
    cases hi.symm.trans hi'
    rcases hb.cases htree hcompile hp with hnone | ⟨hx, hwhole⟩
    · obtain ⟨b, hmem, -⟩ := hallows.1
      simp [hnone] at hmem
    · exact CodeEnv.rewinds_of_passage hx hwhole hn (hcode ▸ hhead) hallows.1
  · have hroot : root.isWhole s.encoding := by simpa [Source.isWhole, htree] using hwhole
    have hkeeps' : m.program.fold.KeepsWidth m.encoding := by rwa [hfold, hcode]
    rw [← hcode] at hw ho ⊢
    refine hr.head hw hkeeps' ?_ ho
    rw [hp, hcode]
    exact CodeEnv.compile_whole hcompile hroot hkeeps
  · obtain ⟨ms, -, hnow⟩ := (hr.holds hv hT).now
    obtain ⟨i, hi', hallows⟩ := hv _ _ _ hnow
    cases hi.symm.trans hi'
    exact hb.spans_le htree hcompile hp hallows ho
  · obtain ⟨fuel, hfuel⟩ := hreturns
    unfold Matcher.matchAt at hfuel
    split at hfuel
    · cases hfuel
    · exact ((Matcher.run_sound hv (Matcher.holds_start hT)).2.1 v hfuel).group_zero hl

theorem matchAt_forward_wide :
    ∃ s re text v, s = { pattern := Pattern.ascii "(?<=\\x82\\xa0|a)\\x82\\xa2", encoding := .sjis } ∧
      Regex.compile s = .ok re ∧ text = #[0x82, 0xa0, 0x82, 0xa2] ∧ s.looksBehind ∧ s.Balanced text ∧
      s.isWhole ∧ 2 ≤ text.size ∧ s.encoding.Head text 2 ∧
      (∀ r chars, (re.matcher .unlimited .none text 0).Reachable 2 r →
        re.program.code[r.pc]? = some (.lookBehind chars) →
        (re.matcher .unlimited .none text 0).Rewinds s.env r) ∧
      (re.matcher .unlimited .none text 0).Returns 2 v ∧ v.length = some 2 ∧
      (Region.ofCaptures v.caps).group 0 = some (2, 4) := by
  let s : Source := { pattern := Pattern.ascii "(?<=\\x82\\xa0|a)\\x82\\xa2", encoding := .sjis }
  let text : Text := #[0x82, 0xa0, 0x82, 0xa2]
  obtain ⟨re, h, hrun⟩ := exists_ok (x := Regex.compile s)
    (p := fun re => (((re.matcher .unlimited .none text 0).matchAt 1000 2).bind Result.toOption).any
      fun v => v.length == some 2) (by decide +kernel)
  obtain ⟨v, hv, hl⟩ := exists_some_ok hrun
  have hlooks : s.looksBehind := by decide +kernel
  have hbehinds : s.behindsWhole := by decide +kernel
  have hwhole : s.isWhole := by decide +kernel
  have hkeeps : (s.fold.getD .ascii).KeepsWidth s.encoding := FoldTable.keepsWidth_ascii .sjis
  have hw : s.encoding.isWellFormed text.toList := by decide +kernel
  have hhead : s.encoding.Head text 2 := ⟨by decide, 1, rfl⟩
  have hl : v.length = some 2 := by simpa using hl
  have hb : s.Balanced text := .inr ⟨hbehinds, hkeeps, hw, by decide⟩
  obtain ⟨hrewinds, hheads, -, -, hgroup⟩ := matchAt_forward h hb .unlimited .none 0 hhead.le
  exact ⟨s, re, text, v, rfl, h, rfl, hlooks, hb, hwhole, hhead.le, hhead,
    fun r chars hr hi => hrewinds r chars hr hi (hheads hwhole hkeeps hw hhead r hr), ⟨1000, hv⟩, hl,
    hgroup v 2 ⟨1000, hv⟩ hl⟩

/-- 二バイトの文字の前半だけを後読みすると、始まりより前で終わり、照合が打ち切られる例。 -/
theorem matchAt_forward_half :
    ∃ re, Regex.compile { pattern := Pattern.ascii "(?<=\\x82)", encoding := .sjis } = .ok re ∧
      Encoding.sjis.isWellFormed [0x82, 0xa0] ∧ (re.matcher .unlimited .none #[0x82, 0xa0] 0).Aborts 2 := by
  obtain ⟨re, h, hrun⟩ := exists_ok
    (x := Regex.compile { pattern := Pattern.ascii "(?<=\\x82)", encoding := .sjis })
    (p := fun re => decide ((re.matcher .unlimited .none #[0x82, 0xa0] 0).matchAt 1000 2 = some .aborted))
    (by decide +kernel)
  exact ⟨re, h, by decide +kernel, 1000, of_decide_eq_true hrun⟩

end Regex
end MultibyteRegex

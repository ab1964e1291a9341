import MultibyteRegex.Proofs.Exploration
import MultibyteRegex.Proofs.Fragment
import MultibyteRegex.Proofs.Unwinding

/-!
# 続きと後戻り

機械の状態から先の答えが決まっていること。答えが決まらなければ、機械は決まった歩数のうちには止まらない。
断片の続きは、着いた合い方と、そこから失敗したときの答えとから、答えを決める。
-/

namespace MultibyteRegex

/-- 照合の長さと捕獲。合わなければ値がない。 -/
abbrev Answer := Option (Nat × Captures)

/-- これまでの最長から、最後の成り行きが決まる。値がなければ、まだ決まらない。 -/
abbrev Outlook := Answer → Fueled Answer

/-- 再開点がなければ、これまでの最長が答えになる。 -/
def Outlook.last : Outlook := fun best => some (.ok best)

def Verdict.answer (v : Verdict) : Answer := v.length.map (·, v.caps)

namespace Matcher

/-- 順序つきの意味が読むもの。 -/
def setting (m : Matcher) : Setting := ⟨m.encoding, m.program.fold, m.text, m.searchStart, m.options⟩

/-- 止まった後は、残りの歩数を増やしても結果は変わらない。 -/
theorem run_mono {m : Matcher} {origin fuel fuel' : Nat} {r : Registers} {v : Result Verdict}
    (h : m.run origin fuel r = some v) (hle : fuel ≤ fuel') : m.run origin fuel' r = some v := by
  induction fuel generalizing fuel' r with
  | zero => cases h
  | succ fuel ih =>
    obtain ⟨k, rfl⟩ := Nat.exists_eq_add_of_le' hle
    simp only [run] at h ⊢
    split at h
    · exact h
    · exact h
    · exact h
    · exact ih h (Nat.le_add_left ..)

theorem matchAt_mono {m : Matcher} {fuel fuel' x : Nat} {r : Result Verdict} (h : m.matchAt fuel x = some r)
    (hle : fuel ≤ fuel') : m.matchAt fuel' x = some r := by
  unfold matchAt at h ⊢
  split
  · rename_i hlt
    rwa [if_pos hlt] at h
  · rename_i hle'
    rw [if_neg hle'] at h
    exact run_mono h hle

/-- `x` からの照合が、何歩かで `v` と答える。 -/
def Returns (m : Matcher) (x : Nat) (v : Verdict) : Prop := ∃ fuel, m.matchAt fuel x = some (.ok v)

/-- `x` からの照合が、何歩かで打ち切られる。 -/
def Aborts (m : Matcher) (x : Nat) : Prop := ∃ fuel, m.matchAt fuel x = some .aborted

/-- 照合の成り行きは、歩数によらない。 -/
theorem matchAt_unique {m : Matcher} {fuel fuel' x : Nat} {r r' : Result Verdict} (h : m.matchAt fuel x = some r)
    (h' : m.matchAt fuel' x = some r') : r = r' :=
  Option.some.inj ((matchAt_mono h (Nat.le_max_left fuel fuel')).symm.trans
    (matchAt_mono h' (Nat.le_max_right fuel fuel')))

theorem Returns.unique {m : Matcher} {x : Nat} {v v' : Verdict} (h : m.Returns x v) (h' : m.Returns x v') : v = v' := by
  obtain ⟨fuel, h⟩ := h
  obtain ⟨fuel', h'⟩ := h'
  cases matchAt_unique h h'
  rfl

/-- 誤りにならない二つの照合は、本文の中から始めた答えも、打ち切られるかどうかも一致すれば、どこから始めても同じ所で
終わり、同じ結果になる。 -/
theorem exists_matchAt_iff {m m' : Matcher} {origin : Nat} (htext : m'.text = m.text)
    (hne : ∀ fuel e, origin ≤ m.text.size → m.matchAt fuel origin ≠ some (.error e))
    (hne' : ∀ fuel e, origin ≤ m'.text.size → m'.matchAt fuel origin ≠ some (.error e))
    (h : origin ≤ m.text.size → ∀ v, m'.Returns origin v ↔ m.Returns origin v)
    (ha : origin ≤ m.text.size → (m'.Aborts origin ↔ m.Aborts origin)) (result : Result Verdict) :
    (∃ fuel, m'.matchAt fuel origin = some result) ↔ ∃ fuel, m.matchAt fuel origin = some result := by
  by_cases ho : origin ≤ m.text.size
  · cases result with
    | error e => exact ⟨fun ⟨_, he⟩ => absurd he (hne' _ e (htext ▸ ho)), fun ⟨_, he⟩ => absurd he (hne _ e ho)⟩
    | ok v => exact h ho v
    | aborted => exact ha ho
  · have hlt := Nat.not_le.1 ho
    simp only [matchAt, htext, if_pos hlt]

/-- 成り行き `a` で終わる。成り行きが決まらなければ、`n` 歩のうちには止まらない。 -/
def Settles (m : Matcher) (origin n : Nat) (r : Registers) : Fueled Answer → Prop
  | none => m.run origin n r = none
  | some a => ∃ fuel v, m.run origin fuel r = some v ∧ v.map Verdict.answer = a

/-- この状態から始めると、見通し `a` のとおりになる。 -/
def Ends (m : Matcher) (origin n pc pos : Nat) (caps : Captures) (st : Stack) (a : Outlook) : Prop :=
  ∀ retries best, m.Settles origin n { pc, pos, caps, stack := st, retries, best } (a best)

/-- 失敗すると、最も新しい再開点から始めて見通し `a` のとおりになる。 -/
def Gives (m : Matcher) (origin n : Nat) (caps : Captures) (st : Stack) (a : Outlook) : Prop :=
  (st.popResume caps).result = .ok none ∧ a = .last ∨
  ∃ pc pos, (st.popResume caps).result = .ok (some (pc, pos)) ∧
    m.Ends origin n pc pos (st.popResume caps).caps (st.popResume caps).stack a

section

variable {m : Matcher} {origin n n' pc pos pc' pos' : Nat} {caps caps' : Captures} {st st' : Stack}
  {a : Outlook} {i : Instruction} {f : Frame} {r r' : Registers} {x : Fueled Answer}

theorem Settles.mono (h : m.Settles origin n r x) (hn : n' ≤ n) : m.Settles origin n' r x := by
  cases x with
  | some a => exact h
  | none =>
    refine Option.eq_none_iff_forall_not_mem.2 fun v hv => ?_
    have h : m.run origin n r = none := h
    rw [run_mono hv hn] at h
    cases h

theorem Settles.step (hs : m.step origin r = .ok (.running r')) (h : m.Settles origin n r' x) :
    m.Settles origin (n + 1) r x := by
  cases x with
  | none =>
    have h : m.run origin n r' = none := h
    simp only [Settles, run, hs, h]
  | some a =>
    obtain ⟨fuel, v, hv, ha⟩ := h
    exact ⟨fuel + 1, v, by simp only [run, hs, hv], ha⟩

theorem Settles.stop {v : Verdict} (hs : m.step origin r = .ok (.done v)) :
    m.Settles origin n r (some (.ok v.answer)) :=
  ⟨1, .ok v, by simp only [run, hs], rfl⟩

theorem Settles.abort (hs : m.step origin r = .ok .aborted) : m.Settles origin n r (some .aborted) :=
  ⟨1, .aborted, by simp only [run, hs], rfl⟩

/-- 成り行きが決まれば、照合はどれだけ多くの歩数を許しても、そのとおりに終わる。 -/
theorem Settles.matchAt {a : Result Answer}
    (h : m.Settles origin n { pc := 0, pos := origin, caps := .fresh m.program.groups } (some a))
    (ho : origin ≤ m.text.size) :
    ∃ fuel, ∀ fuel' ≥ fuel, ∃ v, m.matchAt fuel' origin = some v ∧ v.map Verdict.answer = a := by
  obtain ⟨fuel, v, hv, ha⟩ := h
  refine ⟨fuel, fun fuel' hle => ⟨v, ?_, ha⟩⟩
  rw [Matcher.matchAt, if_neg (Nat.not_lt.2 ho)]
  exact run_mono hv hle

/-- 照合が終われば、それより多くの歩数では、成り行きはその終わり方に決まっている。 -/
theorem Settles.eq_of_matchAt {n : Nat} {v : Result Verdict} {a : Fueled Answer}
    (h : m.Settles origin n { pc := 0, pos := origin, caps := .fresh m.program.groups } a) (ho : origin ≤ m.text.size)
    {fuel : Nat} (hv : m.matchAt fuel origin = some v) (hle : fuel ≤ n) : a = some (v.map Verdict.answer) := by
  cases a with
  | none =>
    have hv := matchAt_mono hv hle
    rw [Matcher.matchAt, if_neg (Nat.not_lt.2 ho)] at hv
    cases hv.symm.trans h
  | some a =>
    obtain ⟨fuel', hends⟩ := h.matchAt ho
    obtain ⟨v', hv', rfl⟩ := hends fuel' (Nat.le_refl fuel')
    rw [matchAt_unique hv hv']

/-- 照合が終わるのは、ある歩数で成り行きが決まるときに限り、そのとおりに終わる。 -/
theorem finishes_iff {least : Nat} {answer : Nat → Fueled Answer}
    (h : ∀ fuel, least < fuel →
      m.Settles origin fuel { pc := 0, pos := origin, caps := .fresh m.program.groups } (answer fuel))
    (ho : origin ≤ m.text.size) (a : Result Answer) :
    (∃ fuel v, m.matchAt fuel origin = some v ∧ v.map Verdict.answer = a) ↔
      ∃ fuel, least < fuel ∧ answer fuel = some a := by
  constructor
  · rintro ⟨fuel, v, hv, rfl⟩
    have hlt : least < max fuel (least + 1) := by omega
    exact ⟨max fuel (least + 1), hlt, (h _ hlt).eq_of_matchAt ho hv (Nat.le_max_left ..)⟩
  · rintro ⟨fuel, hlt, ha⟩
    have hsettles := h fuel hlt
    rw [ha] at hsettles
    obtain ⟨fuel', hends⟩ := hsettles.matchAt ho
    exact ⟨fuel', hends fuel' (Nat.le_refl fuel')⟩

theorem returns_iff {least : Nat} {answer : Nat → Fueled Answer}
    (h : ∀ fuel, least < fuel →
      m.Settles origin fuel { pc := 0, pos := origin, caps := .fresh m.program.groups } (answer fuel))
    (ho : origin ≤ m.text.size) (a : Answer) :
    (∃ v, m.Returns origin v ∧ v.answer = a) ↔ ∃ fuel, least < fuel ∧ answer fuel = some (.ok a) := by
  rw [← finishes_iff h ho]
  constructor
  · rintro ⟨v, ⟨fuel, hv⟩, rfl⟩
    exact ⟨fuel, .ok v, hv, rfl⟩
  · rintro ⟨fuel, v, hv, ha⟩
    cases v <;> cases ha
    exact ⟨_, ⟨fuel, hv⟩, rfl⟩

theorem aborts_iff {least : Nat} {answer : Nat → Fueled Answer}
    (h : ∀ fuel, least < fuel →
      m.Settles origin fuel { pc := 0, pos := origin, caps := .fresh m.program.groups } (answer fuel))
    (ho : origin ≤ m.text.size) : m.Aborts origin ↔ ∃ fuel, least < fuel ∧ answer fuel = some .aborted := by
  rw [← finishes_iff h ho]
  constructor
  · rintro ⟨fuel, hv⟩
    exact ⟨fuel, .aborted, hv, rfl⟩
  · rintro ⟨fuel, v, hv, ha⟩
    cases v <;> cases ha
    exact ⟨fuel, hv⟩

theorem Ends.mono (h : m.Ends origin n pc pos caps st a) (hn : n' ≤ n) :
    m.Ends origin n' pc pos caps st a := fun retries best => (h retries best).mono hn

theorem Ends.congr {b : Outlook} (h : m.Ends origin n pc pos caps st a) (hb : ∀ best, b best = a best) :
    m.Ends origin n pc pos caps st b := fun retries best => hb best ▸ h retries best

theorem Gives.mono (h : m.Gives origin n caps st a) (hn : n' ≤ n) : m.Gives origin n' caps st a :=
  h.imp_right fun ⟨pc, pos, hp, h⟩ => ⟨pc, pos, hp, h.mono hn⟩

/-- 一歩進むと、見通しの決まらない歩数が一つ増える。 -/
theorem Ends.step_go (hi : m.program.code[pc]? = some i)
    (he : ∀ retries best, m.execute origin i { pc, pos, caps, stack := st, retries, best } =
      .ok (.go { pc := pc', pos := pos', caps := caps', stack := st', retries, best }))
    (h : m.Ends origin n pc' pos' caps' st' a) : m.Ends origin (n + 1) pc pos caps st a := by
  intro retries best
  refine .step ?_ (h retries best)
  simp only [step, hi, he]

theorem Ends.of_go (hi : m.program.code[pc]? = some i)
    (he : ∀ retries best, m.execute origin i { pc, pos, caps, stack := st, retries, best } =
      .ok (.go { pc := pc', pos := pos', caps := caps', stack := st', retries, best }))
    (h : m.Ends origin n pc' pos' caps' st' a) : m.Ends origin n pc pos caps st a :=
  (step_go hi he h).mono (Nat.le_succ n)

theorem Ends.of_stop (hi : m.program.code[pc]? = some i) {v : Verdict}
    (he : ∀ retries best, m.execute origin i { pc, pos, caps, stack := st, retries, best } = .ok (.stop v)) :
    m.Ends origin n pc pos caps st fun _ => some (.ok v.answer) := by
  intro retries best
  refine .stop ?_
  simp only [step, hi, he]

theorem Ends.of_abort (hi : m.program.code[pc]? = some i)
    (he : ∀ retries best, m.execute origin i { pc, pos, caps, stack := st, retries, best } = .ok .abort) :
    m.Ends origin n pc pos caps st fun _ => some .aborted := by
  intro retries best
  refine .abort ?_
  simp only [step, hi, he]

/-- 失敗する命令は、これまでの最長を書き換えてもよい。 -/
theorem Ends.of_record (hm : m.limits = .unlimited) (hi : m.program.code[pc]? = some i)
    (g : Answer → Answer)
    (he : ∀ retries best, m.execute origin i { pc, pos, caps, stack := st, retries, best } =
      .ok (.fail { pc := pc', pos := pos', caps := caps', stack := st', retries, best := g best }))
    (h : m.Gives origin n caps' st' a) : m.Ends origin n pc pos caps st fun best => a (g best) := by
  have hl : m.limits.retries = none := by rw [hm]; rfl
  intro retries best
  rcases h with ⟨hp, rfl⟩ | ⟨pc₁, pos₁, hp, h⟩
  · simp only [Outlook.last]
    cases hb : g best with
    | none =>
      refine .stop (v := ⟨none, (st'.popResume caps').caps⟩) ?_
      simp only [step, hi, he, backtrack, hp, hb]
    | some b =>
      refine .stop (v := ⟨some b.1, b.2⟩) ?_
      simp only [step, hi, he, backtrack, hp, hb]
  · refine .mono (.step ?_ (h (retries + 1) (g best))) (Nat.le_succ n)
    simp only [step, hi, he, backtrack, hp, hl, Option.any_none, Bool.false_eq_true, if_false]

theorem Ends.of_fail (hm : m.limits = .unlimited) (hi : m.program.code[pc]? = some i)
    (he : ∀ retries best, m.execute origin i { pc, pos, caps, stack := st, retries, best } =
      .ok (.fail { pc := pc', pos := pos', caps := caps', stack := st', retries, best }))
    (h : m.Gives origin n caps' st' a) : m.Ends origin n pc pos caps st a :=
  of_record hm hi id he h

/-- 見通しが決まらなければ、何も求めない。 -/
theorem Ends.unsettled : m.Ends origin 0 pc pos caps st fun _ => none := fun _ _ => rfl

theorem Gives.resume (hf : f.resume? = some (pc, pos)) (h : m.Ends origin n pc pos caps st a) :
    m.Gives origin n caps (f :: st) a := by
  have he : Stack.popResume (f :: st) caps = _ := Stack.popResume_of_resume hf
  exact .inr ⟨pc, pos, by rw [he], by rw [he]; exact h⟩

theorem Gives.undo (hf : f.resume? = none) (hu : Stack.undo f st caps = some (st', caps'))
    (h : m.Gives origin n caps' st' a) : m.Gives origin n caps (f :: st) a := by
  unfold Gives at h ⊢
  rwa [Stack.popResume_cons hf hu]

theorem push_unlimited (hm : m.limits = .unlimited) (r : Registers) (f : Frame) :
    m.push r f = .ok { r with stack := f :: r.stack } := by
  simp [push, Stack.push, hm, Limits.unlimited]

end

end Matcher

namespace Outcome

/-- 本文の中の位置と、プログラムの数だけの捕獲。 -/
structure Valid (m : Matcher) (o : Outcome) : Prop where
  pos : o.pos ≤ m.text.size
  caps : o.caps.size = m.program.groups + 1

theorem Valid.moveTo {m : Matcher} {o : Outcome} (h : o.Valid m) {s : Nat} (hs : s ≤ m.text.size) :
    (o.moveTo s).Valid m := ⟨hs, h.caps⟩

theorem Valid.opened {m : Matcher} {o : Outcome} (h : o.Valid m) (n : Nat) : (o.opened n).Valid m :=
  ⟨h.pos, by simpa [Outcome.opened] using h.caps⟩

theorem Valid.closed {m : Matcher} {o : Outcome} (h : o.Valid m) (n : Nat) : (o.closed n).Valid m :=
  ⟨h.pos, by simpa [Outcome.closed] using h.caps⟩

/-- 合い方に着いたときの積み重ねの高さ。 -/
def level (o : Outcome) (st : Stack) (K : Garbage) : Level := ⟨st, K, o.caps⟩

end Outcome

/-- どの捕獲で失敗しても、見通し `a` のとおりになる。 -/
def Level.Falls (m : Matcher) (origin n : Nat) (l : Level) (a : Outlook) : Prop :=
  ∀ caps, l.Fits caps → m.Gives origin n caps l.stack a

theorem Level.Falls.mono {m : Matcher} {origin n n' : Nat} {l : Level} {a : Outlook}
    (h : l.Falls m origin n a) (hn : n' ≤ n) : l.Falls m origin n' a :=
  fun caps hc => (h caps hc).mono hn

/-- `q` から先は、着いた合い方と、失敗したときの見通しとから、`F` のとおりになる。 -/
def Continues (m : Matcher) (origin n : Nat) (c : Counters) (q : Nat) (K : Garbage)
    (F : Cont Outlook) (lo : Level) : Prop :=
  ∀ o : Outcome, o.Valid m → ∀ k ≤ n, ∀ (caps : Captures) (st : Stack) (a : Outlook),
    (o.level st K).Fits caps → (o.level st K).Over c lo → (o.level st K).Falls m origin k a →
    m.Ends origin k q o.pos caps st (F o a)

namespace Garbage

variable {K W V : Garbage}

theorem or_none : K.or none = K := by
  funext n b
  simp [Garbage.or, none]

theorem or_right_comm : K.or (W.or V) = (K.or V).or W := by
  funext n b
  simp only [Garbage.or, eq_iff_iff]
  exact ⟨fun h => h.elim (.inl ∘ .inl) fun h => h.elim .inr (.inl ∘ .inr),
    fun h => h.elim (fun h => h.elim .inl (.inr ∘ .inr)) (.inr ∘ .inl)⟩

/-- 読む番号の端は、どれも決まっている。 -/
def Avoids (K : Garbage) (reads : Nat → Bool) : Prop := ∀ n, reads n → ∀ b, ¬K n b

variable {reads reads' : Nat → Bool}

theorem Avoids.or (hK : K.Avoids reads) (hW : W.Avoids reads) : (K.or W).Avoids reads :=
  fun n hn b h => h.elim (hK n hn b) (hW n hn b)

theorem Avoids.none : Garbage.none.Avoids reads := fun _ _ _ => id

theorem Avoids.mono (hK : K.Avoids reads) (h : ∀ n, reads' n → reads n) : K.Avoids reads' :=
  fun n hn => hK n (h n hn)

/-- どの番号も読むなら、決まらない端はない。 -/
theorem Avoids.eq_none (hK : K.Avoids reads) (h : ∀ n, reads n) : K = .none := by
  funext n b
  simp only [Garbage.none, eq_iff_iff, iff_false]
  exact hK n (h n) b

end Garbage

namespace Continues

variable {m : Matcher} {origin n n' q : Nat} {c c' : Counters} {K : Garbage} {F : Cont Outlook}
  {lo lo' : Level} {o : Outcome}

theorem mono (h : Continues m origin n c q K F lo) (hn : n' ≤ n) (hc : c.Extends c')
    (hlo : lo'.Over c lo) : Continues m origin n' c' q K F lo' :=
  fun o ho k hk caps st a hfit hover hfalls =>
    h o ho k (Nat.le_trans hk hn) caps st a hfit ((hover.mono hc).trans hlo) hfalls

/-- 進まず、積み重ねも元の高さのまま着いたとき。 -/
theorem here {st : Stack} {caps : Captures} {a : Outlook}
    (h : Continues m origin n c q K F (o.level st K)) (ho : o.Valid m)
    (hfit : (o.level st K).Fits caps) (hfalls : (o.level st K).Falls m origin n a) :
    m.Ends origin n q o.pos caps st (F o a) :=
  h o ho n (Nat.le_refl n) caps st a hfit (.refl _) hfalls

end Continues

/-- 断片 `a` は、合い方を `R` の順に続きへ渡す。`W` の端は必ず書き換え、`reads` の番号を読む。`next` が
あれば、そのバイトの前にない合い方は、続きが必ず失敗すると見て省いてよい。 -/
structure Emit.Follows (m : Matcher) (origin fuel : Nat) (reads : Nat → Bool) (next : Option UInt8)
    (a : Emit) (W : Garbage) (R : Cont Outlook → Cont Outlook) : Prop where
  ends : ∀ {c c' : Counters} {code : List Instruction}, a c = .ok (code, c') →
    c'.repeats <+: m.program.repeats.toList → ∀ {p : Nat}, CodeAt m.program p code →
    ∀ {n : Nat} {K : Garbage} {F : Cont Outlook} {o : Outcome} {caps : Captures} {st : Stack}
      {res : Outlook}, n ≤ fuel → K.Avoids reads →
      (∀ b ∈ next, ∀ (o' : Outcome) (a : Outlook), m.text[o'.pos]? ≠ some b → F o' a = a) →
      o.Valid m → Continues m origin n c (p + code.length) K F (o.level st (K.or W)) →
      (o.level st (K.or W)).Fits caps → (o.level st (K.or W)).Falls m origin n res →
      m.Ends origin n p o.pos caps st (R F o res)

end MultibyteRegex

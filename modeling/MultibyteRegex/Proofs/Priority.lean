import MultibyteRegex.Proofs.Listing

/-!
# 最初の合い方

翻訳したプログラムの照合は必ず終わり、パターンの木の合い方のうち、優先順に見て最初に許されるものを答える。
-/

namespace MultibyteRegex

theorem findSome?_ite {α β : Type} {p : α → Bool} {f : α → β} (xs : List α) :
    (xs.findSome? fun x => if p x then some (f x) else none) = (xs.find? p).map f := by
  induction xs with
  | nil => rfl
  | cons x xs ih =>
    by_cases h : p x
    · simp [h]
    · simp [h, ih]

namespace Outcome

/-- 空の照合を許さないときは、始まりと同じ位置で終われない。 -/
def isAccepted (x : Setting) (origin : Nat) (o : Outcome) : Bool :=
  !(x.options.contains .findNotEmpty && o.pos == origin)

/-- 照合の全体を零番の捕獲に書き、長さを添える。 -/
def found (origin : Nat) (o : Outcome) : Nat × Captures :=
  (o.pos - origin, o.caps.setIfInBounds 0 ⟨some origin, some o.pos⟩)

end Outcome

/-- `origin` から始まる合い方のうち、最初に許されるもの。 -/
def Node.first? (x : Setting) (options : Options) (groups origin : Nat) (n : Node) : Answer :=
  ((n.outcomes x options ⟨origin, .fresh groups⟩).find? (·.isAccepted x origin)).map (·.found origin)

namespace CodeEnv

variable {env : CodeEnv} {e : Encoding} {B : List Nat}

mutual
theorem mem_of_reads {k : Nat} : (n : Node) → {options : Options} → n.Tame e B →
    env.reads options n k → k ∈ B
  | .backref n, _, ht, h => by
    obtain rfl : k = n := by simpa [reads] using h
    exact ht
  | .list ns, _, ht, h => mem_of_readsIn ns ht h
  | .alt ns, _, ht, h => mem_of_readsIn ns ht h
  | .loop l body, options, ht, h => by
    simp only [reads, comparesCaptures, ht.1, Bool.or_eq_true, Bool.and_eq_true] at h
    exact h.elim (mem_of_reads body ht.2.2) fun h => by simp at h
  | .scoped _ body, _, ht, h => mem_of_reads body ht h
  | .group (.capture ..) body, _, ht, h => mem_of_reads body ht.2 h
  | .group .atomic body, _, ht, h => mem_of_reads body ht h
  | .group .ahead body, _, ht, h => mem_of_reads body ht h
  | .group .notAhead body, _, ht, h => mem_of_reads body ht h

theorem mem_of_readsIn {k : Nat} : (ns : List Node) → {options : Options} → Node.AllTame e B ns →
    env.readsIn options ns k → k ∈ B
  | n :: ns, _, ht, h => by
    simp only [readsIn, Bool.or_eq_true] at h
    exact h.elim (mem_of_reads n ht.1) (mem_of_readsIn ns ht.2)
end

mutual
theorem not_mem_of_unmarked {k : Nat} : (n : Node) → n.Tame e B → k ∈ n.unmarked → k ∉ B
  | .list ns, ht, h => not_mem_of_unmarkedIn ns ht h
  | .alt ns, ht, h => not_mem_of_unmarkedIn ns ht h
  | .loop _ body, ht, h => not_mem_of_unmarked body ht.2.2 h
  | .scoped _ body, ht, h => not_mem_of_unmarked body ht h
  | .group (.capture n undo) body, ht, h => by
    cases undo with
    | true => exact not_mem_of_unmarked body ht.2 h
    | false =>
      rcases List.mem_cons.1 h with rfl | h
      · exact fun hk => Bool.noConfusion (ht.1 hk)
      · exact not_mem_of_unmarked body ht.2 h
  | .group .atomic body, ht, h => not_mem_of_unmarked body ht h
  | .group .ahead body, ht, h => not_mem_of_unmarked body ht h
  | .group .notAhead body, ht, h => not_mem_of_unmarked body ht h

theorem not_mem_of_unmarkedIn {k : Nat} : (ns : List Node) → Node.AllTame e B ns →
    k ∈ Node.unmarkedIn ns → k ∉ B
  | n :: ns, ht, h => (List.mem_append.1 h).elim (not_mem_of_unmarked n ht.1)
    (not_mem_of_unmarkedIn ns ht.2)
end

mutual
/-- 名指す捕獲がどれも取り消せ、空回りの検査がなければ、書き直す前の捕獲は読まれない。 -/
theorem isOrderly_of_tame : (n : Node) → {options : Options} → n.Tame e B → env.isOrderly options n
  | .list ns, _, ht => allOrderly_of_tame ns ht
  | .alt ns, _, ht => branchesOrderly_of_tame ns ht
  | .loop l body, options, ht => by
    have hreads : ∀ k ∈ body.unmarked, env.reads options body k = false := fun k hk =>
      Bool.eq_false_iff.2 fun h => not_mem_of_unmarked body ht.2.2 hk (mem_of_reads body ht.2.2 h)
    simpa [isOrderly, ht.1] using And.intro hreads (isOrderly_of_tame body ht.2.2)
  | .scoped _ body, _, ht => isOrderly_of_tame body ht
  | .group (.capture n undo) body, options, ht => by
    have hreads : undo = true ∨ env.reads options body n = false := by
      cases hundo : undo with
      | true => exact .inl rfl
      | false => exact .inr (Bool.eq_false_iff.2 fun h => by
          have := ht.1 (mem_of_reads body ht.2 h)
          simp [hundo] at this)
    simpa [isOrderly, hreads] using isOrderly_of_tame body ht.2
  | .group .atomic body, _, ht => isOrderly_of_tame body ht
  | .group .ahead body, _, ht => isOrderly_of_tame body ht
  | .group .notAhead body, _, ht => isOrderly_of_tame body ht
  | .empty, _, _ => rfl
  | .str _, _, _ => rfl
  | .raw _, _, _ => rfl
  | .cclass _, _, _ => rfl
  | .word _, _, _ => rfl
  | .any, _, _ => rfl
  | .anchor _, _, _ => rfl
  | .backref _, _, _ => rfl

theorem allOrderly_of_tame : (ns : List Node) → {options : Options} → Node.AllTame e B ns →
    env.allOrderly options ns
  | [], _, _ => rfl
  | n :: ns, options, ht => by
    have hreads : ∀ k ∈ Node.unmarkedIn ns, env.reads options n k = false := fun k hk =>
      Bool.eq_false_iff.2 fun h => not_mem_of_unmarkedIn ns ht.2 hk (mem_of_reads n ht.1 h)
    simpa [allOrderly, isOrderly_of_tame n ht.1] using And.intro hreads (allOrderly_of_tame ns ht.2)

theorem branchesOrderly_of_tame : (ns : List Node) → {options : Options} → Node.AllTame e B ns →
    env.branchesOrderly options ns
  | [], _, _ => rfl
  | n :: ns, options, ht => by
    simpa [branchesOrderly, isOrderly_of_tame n ht.1] using branchesOrderly_of_tame ns ht.2
end

variable {options : Options} {groups : Nat} {root : Node}

/-- 優先順に試した成り行きは、最初に許される合い方の答えである。 -/
theorem answer?_eq_first? {m : Matcher} (hw : root.WellFormed groups) (ht : root.Tame m.encoding B)
    {k : Nat} (hk : env.size options root = .ok k)
    (hlong : m.options.contains .findLongest = false) {origin fuel : Nat} (ho : origin ≤ m.text.size)
    (hfuel : m.text.size + 2 ≤ fuel) :
    env.answer? options groups root m origin fuel =
      some (.ok (root.first? m.setting options groups origin)) := by
  have hroot : Enumerates m.text.size (root.outcomes m.setting options)
      (root.explore env m.setting (fun _ => none : Outlook) fuel options) :=
    enumerates_explore (x := m.setting) hfuel root hw ht hk
  let found (o : Outcome) : Outlook := fun _ => some (.ok (some (o.found origin)))
  have hlist := hroot ⟨origin, .fresh groups⟩ ho (m.accepting origin)
    (fun o => if o.isAccepted m.setting origin then some (found o) else none) Outlook.last ?_
  · rw [answer?, hlist, findSome?_ite, Node.first?]
    cases (root.outcomes m.setting options ⟨origin, .fresh groups⟩).find?
      (·.isAccepted m.setting origin) <;> rfl
  · intro o ho' res
    have hle : origin ≤ o.pos := ((Node.advancing_outcomes root) _ ho o ho').le
    have hzero : (o.pos - origin == 0) = (o.pos == origin) := by
      rw [Bool.eq_iff_iff]
      simp only [beq_iff_eq]
      omega
    funext best
    simp only [Matcher.accepting, Nat.not_lt.2 hle, hzero, hlong, Bool.false_eq_true, if_false]
    by_cases hempty : (m.options.contains .findNotEmpty && o.pos == origin) = true
    · have hacc : o.isAccepted m.setting origin = false := by
        simpa [Outcome.isAccepted, Matcher.setting] using hempty
      rw [if_pos hempty, hacc]
      rfl
    · have hacc : o.isAccepted m.setting origin = true := by
        simpa [Outcome.isAccepted, Matcher.setting, Decidable.imp_iff_not_or] using hempty
      rw [if_neg hempty, hacc]
      rfl

end CodeEnv

namespace Regex

variable {s : Source} {re : Regex} {parsed : Pattern.Parsed}

/-- 上限のない照合は必ず終わり、木の合い方のうち、最初に許されるものの長さと捕獲を答える。 -/
theorem matchAt_first (h : Regex.compile s = .ok re)
    (hparse : Pattern.parse s.encoding s.options s.pattern = .ok parsed)
    (hs : parsed.root.isSupported s.encoding) (options : Options)
    (hlong : (s.options.union options).contains .findLongest = false) (text : Text) (start : Nat)
    {origin : Nat} (ho : origin ≤ text.size) :
    ∃ fuel, ∀ fuel' ≥ fuel, ∃ v,
      (re.matcher .unlimited options text start).matchAt fuel' origin = some (.ok v) ∧
      v.answer = parsed.root.first?
        ⟨s.encoding, s.fold.getD .ascii, text, start, s.options.union options⟩ s.options parsed.groups
        origin := by
  obtain ⟨parsed', root, hparse', hprepare, hcompile, -⟩ := compile_eq_ok h
  cases hparse.symm.trans hparse'
  have hplain := Pattern.plain_parse hparse
  have hw := Node.wellFormed_prepare hplain.wellFormed hprepare
  let m := re.matcher .unlimited options text start
  obtain ⟨size, code, counters, hcode, -, hprogram⟩ := CodeEnv.compile_eq_ok hcompile
  have hsetting : m.setting =
      ⟨s.encoding, s.fold.getD .ascii, text, start, s.options.union options⟩ := by
    simp [m, Matcher.setting, Matcher.encoding, matcher, hprogram]
  have hrewritten : Node.Rewritten m.setting parsed.backrefs s.options parsed.root root := by
    unfold Node.prepare at hprepare
    split at hprepare
    · cases hprepare
    · have hfold : ∀ t, s.fold = some t → m.setting.fold = t := by
        intro t ht
        rw [hsetting, ht]
        rfl
      rw [← show m.setting.encoding = s.encoding by rw [hsetting]] at hs
      exact Node.rewritten_prepareAt hfold parsed.root hplain hs hprepare
  have hprepared := Node.prepared_prepare hplain hprepare
  have hoptions : m.options = s.options.union options := by simp [m, matcher, hprogram]
  have hsize : origin ≤ m.text.size := ho
  have hsettles := CodeEnv.compile_settles hcompile hw (m := m) rfl rfl hprepared.ready hprepared.next
    (CodeEnv.isOrderly_of_tame root hrewritten.tame) hsize (m.text.size + 2) (by omega)
  rw [CodeEnv.answer?_eq_first? hw hrewritten.tame hcode (hoptions ▸ hlong) hsize (Nat.le_refl _),
    Node.first?, hrewritten.outcomes, hsetting] at hsettles
  obtain ⟨fuel, hends⟩ := hsettles.matchAt ho
  refine ⟨fuel, fun fuel' hle => ?_⟩
  obtain ⟨v, hv, hanswer⟩ := hends fuel' hle
  cases v with
  | ok v => exact ⟨v, hv, Result.ok.inj hanswer⟩
  | error e => cases hanswer
  | aborted => cases hanswer

/-- 枝の順と、捕獲と、繰り返しと、後方参照が答えを決める例。 -/
theorem matchAt_first_alternatives :
    ∃ re parsed, Regex.compile { pattern := Pattern.ascii "(a|ab)(?:c|b)*?\\1" } = .ok re ∧
      Pattern.parse .utf8 .none (Pattern.ascii "(a|ab)(?:c|b)*?\\1") = .ok parsed ∧
      parsed.root.isSupported .utf8 ∧ (Options.none.union .none).contains .findLongest = false ∧
      0 ≤ (#[0x61, 0x62, 0x61] : Text).size ∧
      ∃ fuel, ∀ fuel' ≥ fuel, ∃ v,
        (re.matcher .unlimited .none #[0x61, 0x62, 0x61] 0).matchAt fuel' 0 = some (.ok v) ∧
        v.answer = parsed.root.first?
          ⟨.utf8, .ascii, #[0x61, 0x62, 0x61], 0, Options.none.union .none⟩ .none parsed.groups 0 := by
  obtain ⟨re, h, -⟩ := exists_ok (x := Regex.compile { pattern := Pattern.ascii "(a|ab)(?:c|b)*?\\1" })
    (p := fun _ => true) (by decide +kernel)
  obtain ⟨parsed, hparse, hsupported⟩ := exists_ok
    (x := Pattern.parse .utf8 .none (Pattern.ascii "(a|ab)(?:c|b)*?\\1"))
    (p := fun parsed => parsed.root.isSupported .utf8) (by decide +kernel)
  exact ⟨re, parsed, h, hparse, hsupported, by decide, by decide,
    matchAt_first h hparse hsupported .none (by decide) #[0x61, 0x62, 0x61] 0 (Nat.zero_le _)⟩

end Regex
end MultibyteRegex

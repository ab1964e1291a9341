import MultibyteRegex.Tree.Prepare

/-!
# 書き換えの導出

書き換えに成功した節がどうなるかを、節の形ごとに一度だけ書く。書き換えの保つ性質は、どれもこの導出についての
帰納法で示す。
-/

namespace MultibyteRegex

theorem Except.bind_eq_ok {ε α β : Type} {x : Except ε α} {f : α → Except ε β} {b : β}
    (h : x >>= f = .ok b) : ∃ a, x = .ok a ∧ f a = .ok b := by
  cases x with
  | error e => cases h
  | ok a => exact ⟨a, rfl, h⟩

theorem Except.bind_eq_error {ε α β : Type} {x : Except ε α} {f : α → Except ε β} {err : ε}
    (h : x >>= f = .error err) : x = .error err ∨ ∃ a, x = .ok a ∧ f a = .error err := by
  cases x with
  | error e =>
    cases h
    exact .inl rfl
  | ok a => exact .inr ⟨a, rfl, h⟩

theorem Except.mapError_ok {ε ε' α : Type} {f : ε → ε'} {a : α} :
    (Except.ok a : Except ε α).mapError f = .ok a := rfl

theorem Except.mapError_eq_ok {ε ε' α : Type} {f : ε → ε'} {x : Except ε α} {a : α}
    (h : x.mapError f = .ok a) : x = .ok a := by
  cases x with
  | error e => cases h
  | ok b =>
    cases h
    rfl

namespace Node

/-- 手がかりを書いた繰り返しの他には、文字列にしか書き換わらない。 -/
theorem rebuildLoop_eq (options : Options) (l : Loop) (body : Node) :
    rebuildLoop options l body = .loop { l with
      emptyBody := emptyBodyOf l.upper body
      head := if l.greedy && l.isInfinite then body.headByte options else l.head } body ∨
    (∃ bytes, rebuildLoop options l body = .str bytes) ∨
    ∃ bytes, rebuildLoop options l body = .raw bytes := by
  unfold rebuildLoop
  dsimp only
  repeat' split
  all_goals first
    | exact .inl rfl
    | exact .inr (.inl ⟨_, rfl⟩)
    | exact .inr (.inr ⟨_, rfl⟩)

mutual
/-- 旗 `options` の下で、捨てられうるかどうかが `undo` の所にある節を書き換えた結果。 -/
inductive Prepares (env : PrepareEnv) : Options → Bool → Node → Node → Prop
  | empty {options undo} : Prepares env options undo .empty .empty
  | str {options undo} (bytes : List UInt8) : Prepares env options undo (.str bytes) (.str bytes)
  | raw {options undo} (bytes : List UInt8) : Prepares env options undo (.raw bytes) (.raw bytes)
  | word {options undo} (isWord : Bool) : Prepares env options undo (.word isWord) (.word isWord)
  | any {options undo} : Prepares env options undo .any .any
  | anchor {options undo} (a : Anchor) : Prepares env options undo (.anchor a) (.anchor a)
  | backref {options undo} (n : Nat) : Prepares env options undo (.backref n) (.backref n)
  | cclass {options undo} (c : CharClass) (hcase : ¬options.contains .ignoreCase) :
      Prepares env options undo (.cclass c) (.cclass c)
  | closed {options undo} (table : FoldTable) (c : CharClass) (hcase : options.contains .ignoreCase)
      (hfold : env.fold = some table) : Prepares env options undo (.cclass c) (.cclass (c.closeFold table))
  | list {options undo ns ns'} (h : PreparesAll env options undo ns ns') :
      Prepares env options undo (.list ns) (.list (linkHeads options ns'))
  | alt {options undo ns ns'} (h : PreparesAll env options true ns ns') :
      Prepares env options undo (.alt ns) (.alt ns')
  | scoped {options undo inner body body'} (hfold : ¬(inner.contains .ignoreCase && env.fold.isNone))
      (h : Prepares env inner undo body body') :
      Prepares env options undo (.scoped inner body) (.scoped inner body')
  | loop {options undo body body'} (l : Loop) (h : Prepares env options (undo || !l.isFixed) body body') :
      Prepares env options undo (.loop l body) (rebuildLoop options l body')
  | capture {options undo body body'} (n : Nat) (marked : Bool) (h : Prepares env options undo body body') :
      Prepares env options undo (.group (.capture n marked) body)
        (.group (.capture n (undo || env.backrefs.contains n)) body')
  | ahead {options undo body body'} (h : Prepares env options undo body body') :
      Prepares env options undo (.group .ahead body) (.group .ahead body')
  | notAhead {options undo body body'} (h : Prepares env options true body body') :
      Prepares env options undo (.group .notAhead body) (.group .notAhead body')
  | atomic {options undo body body'} (h : Prepares env options undo body body') :
      Prepares env options undo (.group .atomic body) (.group .atomic body')
  | behind {options undo body body' k} (hallowed : body.isAllowedBehind false)
      (hcount : body.charCount env.encoding = .fixed k) (h : Prepares env options undo body body') :
      Prepares env options undo (.group .behind body) (.group .behind body')
  | notBehind {options undo body body' k} (hallowed : body.isAllowedBehind true)
      (hcount : body.charCount env.encoding = .fixed k) (h : Prepares env options true body body') :
      Prepares env options undo (.group .notBehind body) (.group .notBehind body')
  | behindEach {options undo ns ns'} (hallowed : (Node.alt ns).isAllowedBehind false)
      (hcount : (Node.alt ns).charCount env.encoding = .topAlternatives) (h : PreparesAll env options true ns ns') :
      Prepares env options undo (.group .behind (.alt ns)) (.alt (ns'.map (.group .behind)))
  | notBehindEach {options undo ns ns'} (hallowed : (Node.alt ns).isAllowedBehind true)
      (hcount : (Node.alt ns).charCount env.encoding = .topAlternatives) (h : PreparesAll env options true ns ns') :
      Prepares env options undo (.group .notBehind (.alt ns)) (.list (ns'.map (.group .notBehind)))

inductive PreparesAll (env : PrepareEnv) : Options → Bool → List Node → List Node → Prop
  | nil {options undo} : PreparesAll env options undo [] []
  | cons {options undo n n' ns ns'} (h : Prepares env options undo n n') (hs : PreparesAll env options undo ns ns') :
      PreparesAll env options undo (n :: ns) (n' :: ns')
end

variable {env : PrepareEnv}

mutual
theorem prepares_of_prepareAt : (n : Node) → {options : Options} → {undo : Bool} → {n' : Node} →
    n.prepareAt env options undo = .ok n' → Prepares env options undo n n'
  | .list ns, _, _, _, h => by
    obtain ⟨ns', hns, h⟩ := Except.bind_eq_ok h
    cases h
    exact .list (preparesAll_of_prepareAll ns hns)
  | .alt ns, _, _, _, h => by
    obtain ⟨ns', hns, h⟩ := Except.bind_eq_ok h
    cases h
    exact .alt (preparesAll_of_prepareAll ns hns)
  | .cclass c, _, _, _, h => by
    unfold prepareAt at h
    split at h
    · rename_i hcase
      split at h
      · rename_i table hfold
        cases h
        exact .closed table c hcase hfold
      · cases h
    · rename_i hcase
      cases h
      exact .cclass c hcase
  | .scoped inner body, _, _, _, h => by
    unfold prepareAt at h
    split at h
    · cases h
    · rename_i hfold
      obtain ⟨body', hb, h⟩ := Except.bind_eq_ok h
      cases h
      exact .scoped hfold (prepares_of_prepareAt body hb)
  | .loop l body, _, _, _, h => by
    obtain ⟨body', hb, h⟩ := Except.bind_eq_ok h
    cases h
    exact .loop l (prepares_of_prepareAt body hb)
  | .group (.capture n marked) body, _, _, _, h => by
    obtain ⟨body', hb, h⟩ := Except.bind_eq_ok h
    cases h
    exact .capture n marked (prepares_of_prepareAt body hb)
  | .group .ahead body, _, _, _, h => by
    obtain ⟨body', hb, h⟩ := Except.bind_eq_ok h
    cases h
    exact .ahead (prepares_of_prepareAt body hb)
  | .group .notAhead body, _, _, _, h => by
    obtain ⟨body', hb, h⟩ := Except.bind_eq_ok h
    cases h
    exact .notAhead (prepares_of_prepareAt body hb)
  | .group .atomic body, _, _, _, h => by
    obtain ⟨body', hb, h⟩ := Except.bind_eq_ok h
    cases h
    exact .atomic (prepares_of_prepareAt body hb)
  | .group .behind body, options, undo, _, h => by
    -- 下の場合分けは本体の形を変えるので、本体についての仮定を先に取っておく
    have ih : ∀ {body' : Node}, body.prepareAt env options undo = .ok body' →
        Prepares env options undo body body' := fun h => prepares_of_prepareAt body h
    have ihAll : ∀ {ns ns' : List Node}, body = .alt ns → prepareAll env options true ns = .ok ns' →
        PreparesAll env options true ns ns' := by
      rintro ns ns' rfl hns
      exact preparesAll_of_prepareAll ns hns
    unfold prepareAt at h
    split at h
    · cases h
    · rename_i hallowed
      have hallowed : body.isAllowedBehind false := by simpa using hallowed
      split at h
      · rename_i k hcount
        obtain ⟨body', hb, h⟩ := Except.bind_eq_ok h
        cases h
        exact .behind hallowed hcount (ih hb)
      · rename_i ns hcount
        obtain ⟨ns', hns, h⟩ := Except.bind_eq_ok h
        cases h
        exact .behindEach hallowed hcount (ihAll rfl hns)
      · cases h
  | .group .notBehind body, options, _, _, h => by
    have ih : ∀ {body' : Node}, body.prepareAt env options true = .ok body' →
        Prepares env options true body body' := fun h => prepares_of_prepareAt body h
    have ihAll : ∀ {ns ns' : List Node}, body = .alt ns → prepareAll env options true ns = .ok ns' →
        PreparesAll env options true ns ns' := by
      rintro ns ns' rfl hns
      exact preparesAll_of_prepareAll ns hns
    unfold prepareAt at h
    split at h
    · cases h
    · rename_i hallowed
      have hallowed : body.isAllowedBehind true := by simpa using hallowed
      split at h
      · rename_i k hcount
        obtain ⟨body', hb, h⟩ := Except.bind_eq_ok h
        cases h
        exact .notBehind hallowed hcount (ih hb)
      · rename_i ns hcount
        obtain ⟨ns', hns, h⟩ := Except.bind_eq_ok h
        cases h
        exact .notBehindEach hallowed hcount (ihAll rfl hns)
      · cases h
  | .empty, _, _, _, h => by
    cases h
    exact .empty
  | .str bytes, _, _, _, h => by
    cases h
    exact .str bytes
  | .raw bytes, _, _, _, h => by
    cases h
    exact .raw bytes
  | .word isWord, _, _, _, h => by
    cases h
    exact .word isWord
  | .any, _, _, _, h => by
    cases h
    exact .any
  | .anchor a, _, _, _, h => by
    cases h
    exact .anchor a
  | .backref n, _, _, _, h => by
    cases h
    exact .backref n

theorem preparesAll_of_prepareAll : (ns : List Node) → {options : Options} → {undo : Bool} → {ns' : List Node} →
    prepareAll env options undo ns = .ok ns' → PreparesAll env options undo ns ns'
  | [], _, _, _, h => by
    cases h
    exact .nil
  | n :: ns, _, _, _, h => by
    obtain ⟨n', hn, h⟩ := Except.bind_eq_ok h
    obtain ⟨ns', hns, h⟩ := Except.bind_eq_ok h
    cases h
    exact .cons (prepares_of_prepareAt n hn) (preparesAll_of_prepareAll ns hns)
end

theorem prepares_of_prepare {options : Options} {n n' : Node} (h : n.prepare env options = .ok n') :
    Prepares env options false n n' := by
  unfold prepare at h
  split at h
  · cases h
  · exact prepares_of_prepareAt n h

end Node
end MultibyteRegex

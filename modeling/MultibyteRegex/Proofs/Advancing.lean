import MultibyteRegex.Pattern.Parse

/-!
# 読み取りの導出

読み取りの一歩で何が起こるかを、種類ごとに一度だけ書く。読みかけの状態の保つ性質は、どれもこの導出の場合分けで示し、
読み取りの全体へは一つの帰納法で移す。
-/

namespace MultibyteRegex
namespace Pattern
namespace Reading

variable {e : Encoding} {r r' : Reading} {b : UInt8} {node : Node} {input rest : Input} {p : Parsed}

/-- 要素を、繰り返しの演算子があればそれを付けて、加えた結果。 -/
inductive Attached (r : Reading) (node : Node) : Reading → Prop
  | plain (rest : Input) : Attached r node (r.push node rest)
  | loop {lower upper input after} (hnode : node.isRepeatable)
      (hrepeat : repetition input = .ok (some ((lower, upper), after))) (greedy : Bool) (rest : Input) :
      Attached r node (r.push (node.iterate { lower, upper, greedy }) rest)

theorem attached_of_attach (h : r.attach node input = .ok r') : Attached r node r' := by
  unfold attach at h
  split at h
  · cases h
  · split at h
    · cases h
    · cases h
      exact .plain _
    · rename_i hrepeat
      dsimp only at h
      split at h
      · cases h
      · rename_i hnode
        split at h
        · cases h
        · split at h
          · cases h
          · cases h
          · cases h
            exact .loop (by simpa using hnode) hrepeat _ _

/-- 一歩進んだ結果。 -/
inductive Advanced (e : Encoding) (r : Reading) : Reading → Prop
  | bar (rest : Input) : Advanced e r { r with rest, level := r.level.nextBranch }
  | close {level opening parent outer r'} (hclose : closeTails r.level r.outer = (level, (opening, parent) :: outer))
      (h : Attached { r with level := parent, outer } (level.close opening) r') : Advanced e r r'
  | enter {input options opening rest} (hopening : groupOpening r.level.options input = .ok (options, opening, rest)) :
      Advanced e r (r.enter opening options rest)
  | capture (rest : Input) : Advanced e r
      ({ r with groups := r.groups + 1 }.enter (.group (.capture (r.groups + 1) false)) r.level.options rest)
  | backref {b rest n ws after r'} (hatom : atom e r.groups b rest = .ok (.backref n, ws, after))
      (h : Attached { r with backrefs := insertSorted n r.backrefs, warnings := r.warnings ++ ws } (.backref n) r') :
      Advanced e r r'
  | atom {b rest node ws after r'} (hatom : atom e r.groups b rest = .ok (node, ws, after))
      (hnode : ∀ n, node ≠ .backref n) (h : Attached { r with warnings := r.warnings ++ ws } node r') :
      Advanced e r r'

theorem advanced_of_leave (h : r.leave rest = .ok r') : Advanced e r r' := by
  unfold leave at h
  split at h
  · cases h
  · rename_i hclose
    exact .close hclose (attached_of_attach h)

theorem advanced_of_openGroup (h : r.openGroup rest = .ok r') : Advanced e r r' := by
  unfold openGroup at h
  split at h
  · split at h
    · rename_i hopening
      cases h
      exact .enter hopening
    · cases h
  · cases h
    exact .capture rest

theorem advanced_of_readAtom (h : r.readAtom e b rest = .ok r') : Advanced e r r' := by
  unfold readAtom at h
  split at h
  · cases h
  · rename_i hatom
    dsimp only at h
    split at h
    · exact .backref hatom (attached_of_attach h)
    · rename_i hnode
      exact .atom hatom hnode (attached_of_attach h)

theorem advanced_of_advance (h : r.advance e b rest = .ok r') : Advanced e r r' := by
  unfold advance at h
  split at h
  · cases h
    exact .bar rest
  · split at h
    · exact advanced_of_leave h
    · split at h
      · cases h
      · cases h
      · split at h
        · exact advanced_of_openGroup h
        · exact advanced_of_readAtom h

theorem finish_eq_ok (h : r.finish = .ok p) : ∃ level, closeTails r.level r.outer = (level, []) ∧
    p = { root := level.node, groups := r.groups, backrefs := r.backrefs, warnings := r.warnings } := by
  unfold finish at h
  split at h
  · rename_i level hclose
    cases h
    exact ⟨level, hclose, rfl⟩
  · cases h

end Reading

variable {e : Encoding} {r : Reading} {p : Parsed}

/-- 空白と注釈を除いた残りから、終わりまで進む。 -/
def Reading.proceed (e : Encoding) (r : Reading) : Input → Except ParseError Parsed
  | [] => r.finish
  | b :: rest => (r.advance e b rest).bind (readAll e)

theorem readAll_eq (e : Encoding) (r : Reading) :
    readAll e r = (skipTrivia r.extended r.rest).bind (r.proceed e) := by
  rw [readAll]
  split <;> rename_i hs <;> rw [hs]
  · rfl
  · rfl
  · split <;> rename_i ha <;> simp only [Except.bind, Reading.proceed, ha]

/-- 一歩ごとに保たれることは、読み終えたときにも成り立つ。 -/
theorem readAll_invariant {P : Reading → Prop} (hstep : ∀ r r', P r → r.Advanced e r' → P r') (h : P r)
    (hread : readAll e r = .ok p) : ∃ r', P r' ∧ r'.finish = .ok p := by
  fun_induction readAll e r with
  | case1 => cases hread
  | case2 r _ => exact ⟨r, h, hread⟩
  | case3 => cases hread
  | case4 r b rest _ r' hadvance ih => exact ih (hstep r r' h (Reading.advanced_of_advance hadvance)) hread

theorem parse_eq_ok {options : Options} {pattern : Input} (h : parse e options pattern = .ok p) :
    readAll e { rest := pattern, level := { options } } = .ok p ∧ ∀ n ∈ p.backrefs.getLast?, n ≤ p.groups := by
  unfold parse at h
  split at h
  · cases h
  · rename_i hread
    split at h
    · rename_i last hlast
      split at h
      · cases h
      · rename_i hle
        cases h
        refine ⟨hread, fun n hn => ?_⟩
        cases hlast.symm.trans hn
        exact Nat.le_of_not_lt hle
    · rename_i hlast
      cases h
      exact ⟨hread, fun n hn => by cases hlast.symm.trans hn⟩

end Pattern
end MultibyteRegex

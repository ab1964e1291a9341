import MultibyteRegex.Pattern.Bracket
import MultibyteRegex.Tree.Repeat

/-! 括弧でない一つの要素。 -/
namespace MultibyteRegex
namespace Pattern

/-- 後方参照が名指せる番号の上限。 -/
def maxBackref : Nat := 1000

/-- 一文字で決まる `\` の後の要素。 -/
def letterEscape? (e : Encoding) (b : UInt8) : Option Node :=
  let kind (k : CharKind) (outside : Bool) : Node := .cclass (CharClass.empty.addKind e k outside)
  match latin1 b with
  | 'w' => some (.word true)
  | 'W' => some (.word false)
  | 's' => some (kind .space false)
  | 'S' => some (kind .space true)
  | 'd' => some (kind .digit false)
  | 'D' => some (kind .digit true)
  | 'b' => some (.anchor .wordBound)
  | 'B' => some (.anchor .notWordBound)
  | 'A' => some (.anchor .beginBuf)
  | 'Z' => some (.anchor .semiEndBuf)
  | 'z' => some (.anchor .endBuf)
  | 'G' => some (.anchor .beginPosition)
  | '<' => some (.anchor .wordBegin)
  | '>' => some (.anchor .wordEnd)
  | _ => none

/-- 数字 `b` から始まる後方参照。番号がまだない多桁の数は八進のバイトに、`8` と `9` は文字になる。 -/
def backrefOrOctal (groups : Nat) (b : UInt8) (rest : Input) : Except ParseError (Node × Input) :=
  let (value, after) := decimal (b :: rest)
  let n := value.getD 0
  if 0xffffffff < n then .error .numberTooBig
  else if maxBackref < n then .error .backrefTooBig
  else if n ≤ groups ∨ (after.length = rest.length ∧ (digit? 8 b).isSome) then .ok (.backref n, after)
  else if (digit? 8 b).isNone then .ok (.str [b], rest)
  else match octalByte (b :: rest) with
    | .ok (c, rest) => .ok (.raw [c], rest)
    | .error err => .error err

/-- `\x` の後の要素。 -/
def hexEscape (e : Encoding) (rest : Input) : Except ParseError (Node × Input) :=
  if startsWith "\x7b" rest then
    match wideHex rest.tail with
    | .ok (code, rest) =>
      match e.encode code with
      | .ok bytes => .ok (.str bytes, rest)
      | .error err => .error err
    | .error err => .error err
  else .ok (.raw [(hexByte rest).1], (hexByte rest).2)

/-- `\` の後の要素。`groups` はそこまでに開いた捕獲の数。 -/
def escape (e : Encoding) (groups : Nat) (input : Input) : Except ParseError (Node × Input) :=
  match input with
  | [] => .error .endAtBackslash
  | b :: rest =>
    match letterEscape? e b with
    | some node => .ok (node, rest)
    | none =>
      if latin1 b = 'x' then hexEscape e rest
      else if latin1 b = '0' then
        let (value, rest) := digits 8 2 0 rest
        .ok (.raw [value.toUInt8], rest)
      else if (digit? 10 b).isSome then backrefOrOctal groups b rest
      else match escapedValue e (b :: rest) with
        | .ok (.code c, rest) =>
          match e.encode c.toNat with
          | .ok bytes => .ok (.str bytes, rest)
          | .error err => .error err
        | .ok (.raw c, rest) => .ok (.raw [c], rest)
        | .ok (.char bytes, rest) => .ok (.str bytes, rest)
        | .error err => .error err

/-- `b` から始まる要素。 -/
def atom (e : Encoding) (groups : Nat) (b : UInt8) (rest : Input) :
    Except ParseError (Node × List Warning × Input) :=
  if latin1 b = '[' then
    match bracket e rest with
    | .ok (c, ws, rest) => .ok (.cclass c, ws, rest)
    | .error err => .error err
  else if latin1 b = '.' then .ok (.any, [], rest)
  else if latin1 b = '^' then .ok (.anchor .beginLine, [], rest)
  else if latin1 b = '$' then .ok (.anchor .endLine, [], rest)
  else if latin1 b = '\\' then
    match escape e groups rest with
    | .ok (node, rest) => .ok (node, [], rest)
    | .error err => .error err
  else .ok (.str (e.takeChar b rest).1, [], (e.takeChar b rest).2)

theorem decimal_cons_suffix {b : UInt8} {rest : Input} (h : (digit? 10 b).isSome) :
    (decimal (b :: rest)).2 <:+ rest := by
  obtain ⟨d, hd⟩ := Option.isSome_iff_exists.1 h
  simp only [decimal, List.length_cons, digits, hd]
  exact digits_suffix ..

theorem octalByte_cons_suffix {b c : UInt8} {rest after : Input} (hb : (digit? 8 b).isSome)
    (h : octalByte (b :: rest) = .ok (c, after)) : after <:+ rest := by
  obtain ⟨d, hd⟩ := Option.isSome_iff_exists.1 hb
  unfold octalByte at h
  simp only [digits, hd] at h
  split at h
  · cases h
  · cases h
    exact digits_suffix 8 2 (0 * 8 + d) rest

theorem backrefOrOctal_suffix {groups : Nat} {b : UInt8} {rest after : Input} {node : Node}
    (hb : (digit? 10 b).isSome) (h : backrefOrOctal groups b rest = .ok (node, after)) :
    after <:+ rest := by
  unfold backrefOrOctal at h
  dsimp only at h
  split at h
  · cases h
  · split at h
    · cases h
    · split at h
      · cases h
        exact decimal_cons_suffix hb
      · split at h
        · cases h
          exact List.suffix_refl _
        · rename_i h8
          split at h
          · rename_i ho
            cases h
            exact octalByte_cons_suffix (Option.isSome_iff_ne_none.2 (by simpa using h8)) ho
          · cases h

theorem hexEscape_suffix {e : Encoding} {rest after : Input} {node : Node}
    (h : hexEscape e rest = .ok (node, after)) : after <:+ rest := by
  unfold hexEscape at h
  split at h
  · split at h
    · rename_i hw
      split at h
      · cases h
        exact (wideHex_suffix hw).trans (List.tail_suffix _)
      · cases h
    · cases h
  · cases h
    exact hexByte_suffix _

/-- 値を読むと、少なくとも頭の一バイトは消える。 -/
theorem escapedValue_cons_suffix {e : Encoding} {b : UInt8} {rest after : Input} {v : Escaped}
    (h : escapedValue e (b :: rest) = .ok (v, after)) : after <:+ rest := by
  unfold escapedValue at h
  split at h
  · split at h
    · cases h
    · split at h
      · cases h
      · split at h
        · cases h
        · rename_i c tail
          have drop : ∀ {d : UInt8} {r : Input}, r <:+ tail → r <:+ d :: c :: tail :=
            fun {d} _ hr => hr.trans ⟨[d, c], rfl⟩
          split at h
          · split at h
            · rename_i hw
              cases h
              exact drop (escapedValue_suffix tail hw)
            · cases h
          · cases h
            exact drop (List.suffix_refl _)
  · split at h
    · split at h
      · cases h
      · split at h
        · cases h
        · exact (controlValue_suffix _ h).trans (List.suffix_cons ..)
    · split at h
      · exact controlValue_suffix _ h
      · split at h
        · cases h
          exact takeChar_suffix ..
        · cases h
          exact List.suffix_refl _

theorem escape_suffix {e : Encoding} {groups : Nat} {input after : Input} {node : Node}
    (h : escape e groups input = .ok (node, after)) : after <:+ input := by
  unfold escape at h
  split at h
  · cases h
  · rename_i b rest
    have drop : ∀ {r : Input}, r <:+ rest → r <:+ b :: rest := fun hr =>
      hr.trans (List.suffix_cons ..)
    split at h
    · cases h
      exact List.suffix_cons ..
    · split at h
      · exact drop (hexEscape_suffix h)
      · split at h
        · cases h
          exact drop (digits_suffix ..)
        · split at h
          · rename_i hd
            exact drop (backrefOrOctal_suffix hd h)
          · split at h
            · rename_i hv
              split at h
              · cases h
                exact drop (escapedValue_cons_suffix hv)
              · cases h
            · rename_i hv
              cases h
              exact drop (escapedValue_cons_suffix hv)
            · rename_i hv
              cases h
              exact drop (escapedValue_cons_suffix hv)
            · cases h

theorem atom_suffix {e : Encoding} {groups : Nat} {b : UInt8} {rest after : Input} {node : Node}
    {ws : List Warning} (h : atom e groups b rest = .ok (node, ws, after)) : after <:+ rest := by
  unfold atom at h
  split at h
  · split at h
    · rename_i hb
      cases h
      exact bracket_suffix hb
    · cases h
  · split at h
    · cases h
      exact List.suffix_refl _
    · split at h
      · cases h
        exact List.suffix_refl _
      · split at h
        · cases h
          exact List.suffix_refl _
        · split at h
          · split at h
            · rename_i he
              cases h
              exact escape_suffix he
            · cases h
          · cases h
            exact takeChar_suffix ..

end Pattern
end MultibyteRegex

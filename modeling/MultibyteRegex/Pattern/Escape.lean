import MultibyteRegex.Pattern.Scan

/-! 逆斜線の後に書く一つの値。 -/
namespace MultibyteRegex
namespace Pattern

/-- 逆斜線の後の一つの値。 -/
inductive Escaped
  /-- ふつうの文字か、名前のある制御文字。 -/
  | code (b : UInt8)
  /-- メタか制御の書き方で作ったバイト。 -/
  | raw (b : UInt8)
  /-- 多バイトの一文字。 -/
  | char (bytes : List UInt8)
  deriving DecidableEq

def Escaped.firstByte : Escaped → UInt8
  | .code b => b
  | .raw b => b
  | .char bytes => bytes.headD 0

/-- 名前のある制御文字。他の文字はそのまま表す。 -/
def controlByName (b : UInt8) : UInt8 :=
  match latin1 b with
  | 'n' => 0x0a
  | 't' => 0x09
  | 'r' => 0x0d
  | 'f' => 0x0c
  | 'v' => 0x0b
  | 'a' => 0x07
  | 'e' => 0x1b
  | _ => b

mutual
/-- `\` の後の値。`\M-` は最上位のビットを立て、`\C-` と `\c` は制御文字にする。 -/
def escapedValue (e : Encoding) : Input → Except ParseError (Escaped × Input)
  | [] => .error .endAtBackslash
  | b :: rest =>
    if latin1 b = 'M' then
      match rest with
      | [] => .error .endAtMeta
      | dash :: rest =>
        if latin1 dash ≠ '-' then .error .metaSyntax
        else match rest with
          | [] => .error .endAtMeta
          | c :: rest =>
            if latin1 c = '\\' then
              match escapedValue e rest with
              | .ok (v, rest) => .ok (.raw (v.firstByte ||| 0x80), rest)
              | .error err => .error err
            else .ok (.raw (c ||| 0x80), rest)
    else if latin1 b = 'C' then
      match rest with
      | [] => .error .endAtControl
      | dash :: rest =>
        if latin1 dash ≠ '-' then .error .controlSyntax
        else controlValue e rest
    else if latin1 b = 'c' then controlValue e rest
    else if 1 < e.width b then .ok (.char (e.takeChar b rest).1, (e.takeChar b rest).2)
    else .ok (.code (controlByName b), rest)

def controlValue (e : Encoding) : Input → Except ParseError (Escaped × Input)
  | [] => .error .endAtControl
  | b :: rest =>
    if latin1 b = '?' then .ok (.raw 0x7f, rest)
    else if latin1 b = '\\' then
      match escapedValue e rest with
      | .ok (v, rest) => .ok (.raw (v.firstByte &&& 0x9f), rest)
      | .error err => .error err
    else .ok (.raw (b &&& 0x9f), rest)
end

/-- `\x{` の後の、高々 8 桁の十六進の符号位置と `}`。 -/
def wideHex (input : Input) : Except ParseError (Nat × Input) :=
  let (code, rest) := digits 16 8 0 input
  match rest with
  | [] => .error .wideCharInvalid
  | b :: after =>
    if (digit? 16 b).isSome then .error .wideCharTooLong
    else if rest.length = input.length ∨ latin1 b ≠ '}' then .error .wideCharInvalid
    else .ok (code, after)

/-- `\x` の後の高々 2 桁の十六進。桁がなければ零になる。 -/
def hexByte (input : Input) : UInt8 × Input :=
  let (value, rest) := digits 16 2 0 input
  (value.toUInt8, rest)

/-- 高々 3 桁の八進の一バイト。 -/
def octalByte (input : Input) : Except ParseError (UInt8 × Input) :=
  let (value, rest) := digits 8 3 0 input
  if 0xff < value then .error .numberTooBig else .ok (value.toUInt8, rest)

theorem takeChar_suffix (e : Encoding) (b : UInt8) (rest : Input) :
    (e.takeChar b rest).2 <:+ rest := List.drop_suffix ..

mutual
theorem escapedValue_suffix {e : Encoding} {v : Escaped} {rest : Input} :
    (input : Input) → escapedValue e input = .ok (v, rest) → rest <:+ input
  | [], h => by simp [escapedValue] at h
  | b :: tail, h => by
    unfold escapedValue at h
    split at h
    · split at h
      · cases h
      · rename_i dash tail
        split at h
        · cases h
        · split at h
          · cases h
          · rename_i c tail
            have drop : ∀ {r : Input}, r <:+ tail → r <:+ b :: dash :: c :: tail :=
              fun hr => hr.trans ⟨[b, dash, c], rfl⟩
            split at h
            · split at h
              · rename_i w r hw
                cases h
                exact drop (escapedValue_suffix tail hw)
              · cases h
            · cases h
              exact drop (List.suffix_refl _)
    · split at h
      · split at h
        · cases h
        · rename_i dash tail
          split at h
          · cases h
          · exact (controlValue_suffix tail h).trans ⟨[b, dash], rfl⟩
      · split at h
        · exact (controlValue_suffix tail h).trans (List.suffix_cons ..)
        · split at h
          · cases h
            exact (takeChar_suffix ..).trans (List.suffix_cons ..)
          · cases h
            exact List.suffix_cons ..

theorem controlValue_suffix {e : Encoding} {v : Escaped} {rest : Input} :
    (input : Input) → controlValue e input = .ok (v, rest) → rest <:+ input
  | [], h => by simp [controlValue] at h
  | b :: tail, h => by
    unfold controlValue at h
    split at h
    · cases h
      exact List.suffix_cons ..
    · split at h
      · split at h
        · rename_i w r hw
          cases h
          exact (escapedValue_suffix tail hw).trans (List.suffix_cons ..)
        · cases h
      · cases h
        exact List.suffix_cons ..
end

theorem wideHex_suffix {input rest : Input} {code : Nat} (h : wideHex input = .ok (code, rest)) :
    rest <:+ input := by
  have hd := digits_suffix 16 8 0 input
  unfold wideHex at h
  dsimp only at h
  split at h
  · cases h
  · rename_i b after hr
    split at h
    · cases h
    · split at h
      · cases h
      · cases h
        rw [hr] at hd
        exact (List.suffix_cons ..).trans hd

theorem hexByte_suffix (input : Input) : (hexByte input).2 <:+ input := digits_suffix ..

theorem octalByte_suffix {input rest : Input} {b : UInt8} (h : octalByte input = .ok (b, rest)) :
    rest <:+ input := by
  have hd := digits_suffix 8 3 0 input
  unfold octalByte at h
  dsimp only at h
  split at h
  · cases h
  · cases h
    exact hd

end Pattern
end MultibyteRegex

import MultibyteRegex.Class.Basic
import MultibyteRegex.Pattern.Escape

/-! 角括弧の式。値と区間と種類を順に足していく。 -/
namespace MultibyteRegex
namespace Pattern

/-- 読めるが書き手の意図と違うかもしれない書き方。 -/
inductive Warning
  | bareCloseBracket
  | bareOpenBracket
  | unknownEscape (b : UInt8)
  deriving DecidableEq

def Warning.message : Warning → String
  | .bareCloseBracket => "character class has ']' without escape"
  | .bareOpenBracket => "character class has '[' without escape"
  | .unknownEscape b => "character class has unknown escape '\\" ++ String.singleton (latin1 b) ++ "'"

/-- 角括弧の中の一つの値。 -/
inductive ClassValue
  | byte (b : UInt8)
  /-- 多バイトの文字そのもの。 -/
  | char (code : Nat)
  /-- `\x{}` で書いた符号位置。 -/
  | wide (code : Nat)
  deriving DecidableEq

def ClassValue.code : ClassValue → Nat
  | .byte b => b.toNat
  | .char code => code
  | .wide code => code

/-- 角括弧の中の一項目。 -/
inductive ClassItem
  | value (v : ClassValue)
  /-- その種類の文字、`outside` ならそれ以外の文字。 -/
  | kind (k : CharKind) (outside : Bool)
  deriving DecidableEq

def startsWith (s : String) (input : Input) : Bool := (ascii s).isPrefixOf input

def posixKinds : List (String × CharKind) :=
  [("alnum", .alnum), ("alpha", .alpha), ("blank", .blank), ("cntrl", .cntrl),
    ("digit", .digit), ("graph", .graph), ("lower", .lower), ("print", .print),
    ("punct", .punct), ("space", .space), ("upper", .upper), ("xdigit", .xdigit)]

/-- 最も短い名前と閉じる印の長さ。これより短い残りには名前を探さない。 -/
def minPosixLength : Nat := 7

/-- 閉じる印を探す長さの上限。 -/
def maxPosixScan : Nat := 21

/-- 残りの頭にある名前の種類。 -/
def posixKind? (input : Input) : Option (CharKind × Input) :=
  if input.length < minPosixLength then none
  else (posixKinds.find? fun p => startsWith p.1 input).map fun p =>
    (p.2, input.drop (ascii p.1).length)

/-- 頭の `^` を除く。 -/
def stripCaret (input : Input) : Bool × Input :=
  if startsWith "^" input then (true, input.tail) else (false, input)

/-- 名前と `:]`。名前の形をしていなければ値がなく、知らない名前が正しく閉じていれば誤りである。 -/
def posixName (outside : Bool) (input : Input) : Except ParseError (Option (ClassItem × Input)) :=
  match posixKind? input with
  | some (k, rest) =>
    if startsWith ":]" rest then .ok (some (.kind k outside, rest.drop 2))
    else .error .invalidPosixBracket
  | none =>
    let skipped := (input.take maxPosixScan).takeWhile fun b => latin1 b ≠ ':' ∧ latin1 b ≠ ']'
    if startsWith ":]" (input.drop skipped.length) then .error .invalidPosixBracket else .ok none

/-- `[:` の後の種類。 -/
def posixItem (input : Input) : Except ParseError (Option (ClassItem × Input)) :=
  posixName (stripCaret input).1 (stripCaret input).2

/-- 種類を表す逆斜線の文字。 -/
def kindByLetter? (b : UInt8) : Option ClassItem :=
  match latin1 b with
  | 'w' => some (.kind .word false)
  | 'W' => some (.kind .word true)
  | 's' => some (.kind .space false)
  | 'S' => some (.kind .space true)
  | 'd' => some (.kind .digit false)
  | 'D' => some (.kind .digit true)
  | _ => none

/-- 意味のある逆斜線の文字でも記号でもない英字。 -/
def isUnknownEscape (b : UInt8) : Bool :=
  CharKind.isAlpha b.toNat && !(ascii "ntrfaevMCc").contains b

/-- 角括弧の中の `\` の後の項目。 -/
def escapedItem (e : Encoding) (input : Input) :
    Except ParseError (ClassItem × List Warning × Input) :=
  match input with
  | [] => .error .prematureEndOfClass
  | b :: rest =>
    match kindByLetter? b with
    | some item => .ok (item, [], rest)
    | none =>
      if latin1 b = 'x' then
        if startsWith "\x7b" rest then
          match wideHex rest.tail with
          | .ok (code, rest) => .ok (.value (.wide code), [], rest)
          | .error err => .error err
        else .ok (.value (.byte (hexByte rest).1), [], (hexByte rest).2)
      else if (digit? 8 b).isSome then
        match octalByte (b :: rest) with
        | .ok (b, rest) => .ok (.value (.byte b), [], rest)
        | .error err => .error err
      else if latin1 b = 'b' then .ok (.value (.byte 0x08), [], rest)
      else
        let warnings := if isUnknownEscape b then [.unknownEscape b] else []
        match escapedValue e (b :: rest) with
        | .ok (.code c, rest) => .ok (.value (.byte c), warnings, rest)
        | .ok (.raw c, rest) => .ok (.value (.byte c), warnings, rest)
        | .ok (.char bytes, rest) => .ok (.value (.char (e.decode bytes)), warnings, rest)
        | .error err => .error err

/-- `b` から始まる項目。 -/
def classItem (e : Encoding) (b : UInt8) (rest : Input) :
    Except ParseError (ClassItem × List Warning × Input) :=
  if latin1 b = '[' ∧ startsWith ":" rest then
    match posixItem rest.tail with
    | .ok (some (item, rest)) => .ok (item, [], rest)
    | .ok none => .ok (.value (.byte b), [.bareOpenBracket], rest)
    | .error err => .error err
  else if latin1 b = '\\' then escapedItem e rest
  else
    let (bytes, rest) := e.takeChar b rest
    if 1 < bytes.length then .ok (.value (.char (e.decode bytes)), [], rest)
    else .ok (.value (.byte b), [], rest)

/-- 項目と項目の間の状態。 -/
inductive Pending
  /-- 初めか、区間を閉じた直後。 -/
  | fresh
  /-- 値か種類を読んだ直後。種類の後の `-` は区間にならない。 -/
  | value (v : Option ClassValue)
  /-- 区間の右端を待つ。 -/
  | range (lo : ClassValue)
  deriving DecidableEq

/-- 読みかけの角括弧。 -/
structure ClassDraft where
  cls : CharClass
  pending : Pending := .fresh
  warnings : List Warning := []

namespace ClassDraft

def addByte (d : ClassDraft) (b : UInt8) : ClassDraft :=
  { d with cls := d.cls.addBytes (.singleton b), pending := .value (some (.byte b)) }

def addValue (d : ClassDraft) (e : Encoding) (v : ClassValue) : Except ParseError ClassDraft :=
  match v with
  | .byte b => .ok (d.addByte b)
  | v =>
    match e.encodeLead v.code with
    | .ok _ => .ok { d with cls := d.cls.addCode e v.code, pending := .value (some v) }
    | .error err => .error err

/-- 区間を足す。左端だけが多バイトの文字であってはならない。 -/
def addRange (d : ClassDraft) (e : Encoding) (lo hi : ClassValue) : Except ParseError ClassDraft :=
  let closed (c : CharClass) : ClassDraft := { d with cls := c, pending := .fresh }
  match lo, hi with
  | .byte a, .byte b =>
    if b < a then .error .rightSmallerThanLeft else .ok (closed (d.cls.addBytes (.range a b)))
  | lo, hi =>
    let mismatched := match hi with
      | .byte _ => !CharClass.isSingle e lo.code
      | _ => false
    if mismatched then .error .mismatchedCodeLength
    else if hi.code < lo.code then .error .rightSmallerThanLeft
    else match e.encodeLead hi.code with
      | .ok _ => .ok (closed (d.cls.addRange e lo.code hi.code))
      | .error err => .error err

def addItem (d : ClassDraft) (e : Encoding) (item : ClassItem) : Except ParseError ClassDraft :=
  match d.pending, item with
  | .range lo, .value v => d.addRange e lo v
  | .range _, .kind .. => .error .classValueAtRangeEnd
  | _, .value v => d.addValue e v
  | _, .kind k outside => .ok { d with cls := d.cls.addKind e k outside, pending := .value none }

/-- 区間の右端でない `-`。値の後で閉じ括弧の前でもなければ区間を始め、他では文字である。 -/
def addDash (d : ClassDraft) (rest : Input) : Except ParseError ClassDraft :=
  match d.pending with
  | .value last =>
    if startsWith "]" rest then .ok (d.addByte 0x2d)
    else match last with
      | some v => .ok { d with pending := .range v }
      | none => .error .classValueAtRangeStart
  | _ => .ok (d.addByte 0x2d)

def isRange (d : ClassDraft) : Bool :=
  match d.pending with
  | .range _ => true
  | _ => false

end ClassDraft

theorem stripCaret_suffix (input : Input) : (stripCaret input).2 <:+ input := by
  unfold stripCaret
  split
  · exact List.tail_suffix _
  · exact List.suffix_refl _

theorem posixKind?_suffix {input rest : Input} {k : CharKind}
    (h : posixKind? input = some (k, rest)) : rest <:+ input := by
  unfold posixKind? at h
  split at h
  · cases h
  · obtain ⟨p, _, hp⟩ := Option.map_eq_some_iff.1 h
    cases hp
    exact List.drop_suffix ..

theorem posixName_suffix {outside : Bool} {input rest : Input} {item : ClassItem}
    (h : posixName outside input = .ok (some (item, rest))) : rest <:+ input := by
  unfold posixName at h
  split at h
  · rename_i k r hk
    split at h
    · cases h
      exact (List.drop_suffix ..).trans (posixKind?_suffix hk)
    · cases h
  · dsimp only at h
    split at h <;> cases h

theorem posixItem_suffix {input rest : Input} {item : ClassItem}
    (h : posixItem input = .ok (some (item, rest))) : rest <:+ input :=
  (posixName_suffix h).trans (stripCaret_suffix input)

theorem escapedItem_suffix {e : Encoding} {input rest : Input} {item : ClassItem}
    {ws : List Warning} (h : escapedItem e input = .ok (item, ws, rest)) : rest <:+ input := by
  unfold escapedItem at h
  split at h
  · cases h
  · rename_i b tail
    have drop : ∀ {r : Input}, r <:+ tail → r <:+ b :: tail := fun hr =>
      hr.trans (List.suffix_cons ..)
    split at h
    · cases h
      exact List.suffix_cons ..
    · split at h
      · split at h
        · split at h
          · rename_i hw
            cases h
            exact drop ((wideHex_suffix hw).trans (List.tail_suffix _))
          · cases h
        · cases h
          exact drop (hexByte_suffix _)
      · split at h
        · split at h
          · rename_i ho
            cases h
            exact octalByte_suffix ho
          · cases h
        · split at h
          · cases h
            exact List.suffix_cons ..
          · dsimp only at h
            split at h <;> first | (rename_i hv; cases h; exact escapedValue_suffix _ hv) | cases h

theorem classItem_suffix {e : Encoding} {b : UInt8} {tail rest : Input} {item : ClassItem}
    {ws : List Warning} (h : classItem e b tail = .ok (item, ws, rest)) : rest <:+ tail := by
  unfold classItem at h
  split at h
  · split at h
    · rename_i hp
      cases h
      exact (posixItem_suffix hp).trans (List.tail_suffix _)
    · cases h
      exact List.suffix_refl _
    · cases h
  · split at h
    · exact escapedItem_suffix h
    · dsimp only at h
      split at h <;> (cases h; exact takeChar_suffix ..)

/-- 閉じ括弧までの項目。 -/
def classItems (e : Encoding) (d : ClassDraft) :
    Input → Except ParseError (ClassDraft × Input)
  | [] => .error .prematureEndOfClass
  | b :: rest =>
    if latin1 b = ']' then .ok (d, rest)
    else if latin1 b = '-' ∧ !d.isRange then
      match d.addDash rest with
      | .ok d => classItems e d rest
      | .error err => .error err
    else match _h : classItem e b rest with
      | .ok (item, ws, after) =>
        match d.addItem e item with
        | .ok d => classItems e { d with warnings := d.warnings ++ ws } after
        | .error err => .error err
      | .error err => .error err
termination_by input => input.length
decreasing_by
  · simp
  · have := (classItem_suffix _h).length_le
    simp
    omega

/-- 一つの文字の集まりが持てる多バイトの区間の数。 -/
def maxCodeRanges : Nat := 10000

/-- 式の始まり。初めの `]` は、後に閉じ括弧があれば文字である。 -/
def openBracket (d : ClassDraft) (input : Input) : Except ParseError (ClassDraft × Input) :=
  if startsWith "]" input then
    if input.tail.contains 0x5d then
      .ok ({ d.addByte 0x5d with warnings := [.bareCloseBracket] }, input.tail)
    else .error .emptyClass
  else .ok (d, input)

/-- `[` の後の式。 -/
def bracket (e : Encoding) (input : Input) : Except ParseError (CharClass × List Warning × Input) :=
  match openBracket { cls := { negated := (stripCaret input).1 } } (stripCaret input).2 with
  | .error err => .error err
  | .ok (d, items) =>
    match classItems e d items with
    | .error err => .error err
    | .ok (d, rest) =>
      if maxCodeRanges < d.cls.ranges.length then .error .tooManyRanges
      else .ok (d.cls, d.warnings, rest)

theorem openBracket_suffix {d d' : ClassDraft} {input rest : Input}
    (h : openBracket d input = .ok (d', rest)) : rest <:+ input := by
  unfold openBracket at h
  split at h
  · split at h
    · obtain ⟨_, rfl⟩ := Prod.mk.inj (Except.ok.inj h)
      exact List.tail_suffix _
    · cases h
  · cases h
    exact List.suffix_refl _

theorem classItems_suffix {e : Encoding} {d d' : ClassDraft} {input rest : Input}
    (h : classItems e d input = .ok (d', rest)) : rest <:+ input := by
  fun_induction classItems e d input with
  | case1 => cases h
  | case2 => cases h; exact List.suffix_cons ..
  | case3 _ _ _ _ _ _ _ ih => exact (ih h).trans (List.suffix_cons ..)
  | case4 => cases h
  | case5 _ _ _ _ _ _ _ _ hi _ _ ih =>
    exact (ih h).trans ((classItem_suffix hi).trans (List.suffix_cons ..))
  | case6 => cases h
  | case7 => cases h

theorem bracket_suffix {e : Encoding} {input rest : Input} {c : CharClass} {ws : List Warning}
    (h : bracket e input = .ok (c, ws, rest)) : rest <:+ input := by
  unfold bracket at h
  split at h
  · cases h
  · rename_i ho
    split at h
    · cases h
    · rename_i hr
      split at h
      · cases h
      · cases h
        exact (classItems_suffix hr).trans ((openBracket_suffix ho).trans (stripCaret_suffix _))

end Pattern
end MultibyteRegex

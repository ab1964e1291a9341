import MultibyteRegex.Machine.Stack
import MultibyteRegex.Class.Basic
import MultibyteRegex.Text.Boundary

/-! 本文の一か所での検査。文字列、文字の集まり、後方参照が合う長さを答える。 -/
namespace MultibyteRegex
namespace Text

/-- `pos` から `bytes` が並ぶ。 -/
def hasAt (text : Text) : List UInt8 → Nat → Bool
  | [], pos => pos ≤ text.size
  | b :: bytes, pos => text[pos]? == some b && text.hasAt bytes (pos + 1)

/-- `pos` から、写すと `bytes` になるバイトが並ぶ。 -/
def hasFoldedAt (table : FoldTable) (text : Text) : List UInt8 → Nat → Bool
  | [], pos => pos ≤ text.size
  | b :: bytes, pos =>
    (text[pos]?).map table.fold == some b && text.hasFoldedAt table bytes (pos + 1)

/-- `start` から `stop` の前までのバイト。 -/
def slice (text : Text) (start stop : Nat) : List UInt8 := (text.extract start stop).toList

end Text

namespace Encoding

/-- `pos` から始まる文字の符号位置。 -/
def codeAt (e : Encoding) (text : Text) (pos : Nat) : Nat :=
  e.decode (text.slice pos (pos + e.lengthAt text pos))

/-- `pos` の前の文字が単語の文字か。 -/
def isWordBefore (e : Encoding) (text : Text) (pos : Nat) : Bool :=
  (e.prevHead text 0 pos).any (e.isWordAt text)

end Encoding

namespace CharClass

/-- `pos` の文字を含むなら、その長さ。 -/
def matchAt (c : CharClass) (e : Encoding) (text : Text) (pos : Nat) : Option Nat :=
  let length := e.lengthAt text pos
  if length ≠ 0 ∧ c.contains e (e.codeAt text pos) then some length else none

end CharClass

namespace FoldTable

/-- 文字ごとに、一バイトの文字は写して、多バイトの文字はそのまま比べる。 -/
def sameChars (t : FoldTable) : List (List UInt8) → List UInt8 → Bool
  | [], _ => true
  | c :: cs, bytes =>
    let head := bytes.take c.length
    (if c.length = 1 then t.foldAll c == t.foldAll head else c == head) &&
      t.sameChars cs (bytes.drop c.length)

end FoldTable

namespace Captures

/-- `n` 番の捕獲の両端。終わりが始まりより前なら参加していない。 -/
def span? (caps : Captures) (n : Nat) : Option (Nat × Nat) :=
  match caps[n]? with
  | some ⟨some start, some stop⟩ => if start ≤ stop then some (start, stop) else none
  | _ => none

/-- `n` 番の捕獲と同じものが `pos` から並ぶなら、その長さ。`fold` があれば写して比べる。 -/
def backrefLength (caps : Captures) (e : Encoding) (fold : Option FoldTable) (text : Text)
    (n pos : Nat) : Option Nat :=
  match caps.span? n with
  | none => none
  | some (start, stop) =>
    let bytes := text.slice start stop
    let length := bytes.length
    if text.size < pos + length then none
    else
      let target := text.slice pos (pos + length)
      let same := match fold with
        | none => bytes == target
        | some table => table.sameChars (e.chars bytes) target
      if same then some length else none

end Captures
end MultibyteRegex

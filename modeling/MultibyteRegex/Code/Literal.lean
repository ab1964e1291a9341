import MultibyteRegex.Code.Instruction

/-! 文字列の命令。文字に分け、同じ幅の続きごとに一つの命令にする。 -/
namespace MultibyteRegex
namespace Literal

/-- 同じ長さの文字の続きを、その長さと合わせたバイト列にまとめる。 -/
def runs : List (List UInt8) → List (Nat × List UInt8)
  | [] => []
  | c :: cs =>
    match runs cs with
    | (width, bytes) :: more =>
      if width = c.length then (width, c ++ bytes) :: more
      else (c.length, c) :: (width, bytes) :: more
    | [] => [(c.length, c)]

/-- 一文字の幅とバイト数が決める形。 -/
def form (width count : Nat) : LiteralForm :=
  match width, count with
  | 1, 1 => .one
  | 1, 2 => .two
  | 1, 3 => .three
  | 1, 4 => .four
  | 1, 5 => .five
  | 1, _ => .many
  | 2, 2 => .wide2One
  | 2, 4 => .wide2Two
  | 2, 6 => .wide2Three
  | 2, _ => .wide2Many
  | 3, _ => .wide3Many
  | width, _ => .wideMany width

/-- 一つの続きの命令。表があっても、多バイトの文字は写さずに比べる。 -/
def instruction (fold : Option FoldTable) (width : Nat) (bytes : List UInt8) : Instruction :=
  match fold with
  | some table =>
    if width = 1 then .exactFold (bytes.length == 1) (table.foldAll bytes)
    else .exact (form width bytes.length) bytes
  | none => .exact (form width bytes.length) bytes

/-- 文字列の命令の列。 -/
def code (e : Encoding) (fold : Option FoldTable) (bytes : List UInt8) : List Instruction :=
  (runs (e.chars bytes)).map fun r => instruction fold r.1 r.2

end Literal
end MultibyteRegex

import MultibyteRegex.Text.Kind

/-! 大文字と小文字を同じとみなすための、バイトからバイトへの写像。 -/
namespace MultibyteRegex

/-- 全バイトを小さい順に並べる。 -/
def allBytes : List UInt8 := (List.range 256).map Nat.toUInt8

/-- 二つのバイトは、写した先が等しいとき同じ文字とみなす。 -/
structure FoldTable where
  fold : UInt8 → UInt8

namespace FoldTable

/-- ASCII の大文字を小文字に写す。 -/
def ascii : FoldTable := ⟨fun b => if CharKind.isUpper b.toNat then b + 0x20 else b⟩

instance : Inhabited FoldTable := ⟨ascii⟩

/-- 恒等写像の一部を差し替える。同じバイトには後の組が勝つ。 -/
def ofPairs (pairs : List (UInt8 × UInt8)) : FoldTable :=
  ⟨fun b => pairs.foldl (fun image p => if p.1 = b then p.2 else image) b⟩

def foldAll (t : FoldTable) (bytes : List UInt8) : List UInt8 := bytes.map t.fold

/-- `b` と同じとみなす他のバイト。 -/
def partners (t : FoldTable) (b : UInt8) : List UInt8 :=
  allBytes.filter fun c => c ≠ b ∧ t.fold c = t.fold b

end FoldTable
end MultibyteRegex

import MultibyteRegex.Machine.Step

/-! 積み重ねに触れない命令。本文の一か所を調べ、合えば位置だけを進める。 -/
namespace MultibyteRegex

/-- 積み重ねと捕獲に触れない命令。 -/
def Instruction.isLeaf : Instruction → Bool
  | .exact .. => true
  | .exactFold .. => true
  | .inSet .. => true
  | .inRanges .. => true
  | .inEither .. => true
  | .any _ => true
  | .word _ => true
  | .wordBound _ => true
  | .wordBegin => true
  | .wordEnd => true
  | .beginBuf => true
  | .endBuf => true
  | .semiEndBuf => true
  | .beginPosition => true
  | .beginLine _ => true
  | .endLine _ => true
  | .backref .. => true
  | .fail => true
  | .lookBehind _ => true
  | _ => false

/-- 積み重ねに触れず、後ろへも戻らない命令。 -/
def Instruction.isPlain (i : Instruction) : Bool :=
  match i with
  | .lookBehind _ => false
  | i => i.isLeaf

theorem Instruction.isLeaf_of_isPlain {i : Instruction} (h : i.isPlain) : i.isLeaf := by
  cases i <;> first | exact h | cases h

theorem isPlain_classInstruction (e : Encoding) (c : CharClass) : (classInstruction e c).isPlain := by
  unfold classInstruction
  dsimp only
  repeat' split
  all_goals rfl

theorem isLeaf_classInstruction (e : Encoding) (c : CharClass) : (classInstruction e c).isLeaf :=
  Instruction.isLeaf_of_isPlain (isPlain_classInstruction e c)

theorem isPlain_anchorInstruction (options : Options) (a : Anchor) :
    (anchorInstruction options a).isPlain := by cases a <;> rfl

theorem isLeaf_anchorInstruction (options : Options) (a : Anchor) :
    (anchorInstruction options a).isLeaf := Instruction.isLeaf_of_isPlain (isPlain_anchorInstruction options a)

/-- 文字列の命令はどれも積み重ねに触れない。 -/
theorem Literal.isPlain_code (e : Encoding) (fold : Option FoldTable) (bytes : List UInt8) :
    ∀ i ∈ Literal.code e fold bytes, i.isPlain := by
  intro i hi
  obtain ⟨r, _, rfl⟩ := List.mem_map.1 hi
  unfold Literal.instruction
  repeat' split
  all_goals rfl

theorem Literal.isLeaf_code (e : Encoding) (fold : Option FoldTable) (bytes : List UInt8) :
    ∀ i ∈ Literal.code e fold bytes, i.isLeaf :=
  fun i hi => Instruction.isLeaf_of_isPlain (isPlain_code e fold bytes i hi)

namespace Matcher

/-- 積み重ねに触れない命令が合った後の位置。 -/
def leafEnd? (m : Matcher) (i : Instruction) (caps : Captures) (pos : Nat) : Option Nat :=
  match m.execute 0 i { pc := 0, pos, caps } with
  | .ok (.go r) => some r.pos
  | _ => none

/-- 積み重ねに触れない命令の動きは、位置と捕獲だけで決まる。 -/
theorem execute_leaf {m : Matcher} {i : Instruction} (h : i.isLeaf) (origin : Nat) (r : Registers) :
    m.execute origin i r = .ok (match m.leafEnd? i r.caps r.pos with
      | some p => .go (r.moveTo p)
      | none => .fail r) := by
  unfold leafEnd?
  cases i <;> simp only [Instruction.isLeaf, Bool.false_eq_true] at h <;>
    simp only [execute, Move.consume, Move.check, Registers.moveTo, Registers.next] <;>
    grind

end Matcher
end MultibyteRegex

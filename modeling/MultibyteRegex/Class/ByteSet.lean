import MultibyteRegex.Text.Fold

/-! バイトの集合。どのバイトを含むかだけで等しさが決まる。 -/
namespace MultibyteRegex

structure ByteSet where
  flags : Vector Bool 256
  deriving DecidableEq

namespace ByteSet

/-- `p` を満たすバイトの集合。 -/
def ofPred (p : UInt8 → Bool) : ByteSet := ⟨Vector.ofFn fun i => p i.val.toUInt8⟩

def empty : ByteSet := ofPred fun _ => false

instance : Inhabited ByteSet := ⟨empty⟩

def contains (s : ByteSet) (b : UInt8) : Bool :=
  have : b.toNat < 256 := b.toNat_lt
  s.flags[b.toNat]

def union (s t : ByteSet) : ByteSet := ofPred fun b => s.contains b || t.contains b

def singleton (b : UInt8) : ByteSet := ofPred (b == ·)

/-- 両端を含む区間。`hi < lo` なら空になる。 -/
def range (lo hi : UInt8) : ByteSet := ofPred fun b => lo ≤ b && b ≤ hi

/-- 含むバイトを小さい順に並べる。 -/
def toList (s : ByteSet) : List UInt8 := allBytes.filter s.contains

def count (s : ByteSet) : Nat := s.toList.length

def isEmpty (s : ByteSet) : Bool := s.toList.isEmpty

/-- 小さい順のバイトを、続きの区間にまとめる。 -/
def runs : List UInt8 → List (UInt8 × UInt8)
  | [] => []
  | b :: rest =>
    match runs rest with
    | (lo, hi) :: more =>
      if b.toNat + 1 = lo.toNat then (b, hi) :: more else (b, b) :: (lo, hi) :: more
    | [] => [(b, b)]

/-- 二桁の十六進。 -/
def hexByte (b : UInt8) : String :=
  String.ofList [Nat.digitChar (b.toNat / 16), Nat.digitChar (b.toNat % 16)]

/-- 区間の列による表示。一つだけのバイトは `61`、区間は `61-63` と書く。 -/
def display (s : ByteSet) : String :=
  ",".intercalate ((runs s.toList).map fun r =>
    if r.1 = r.2 then hexByte r.1 else hexByte r.1 ++ "-" ++ hexByte r.2)

@[simp]
theorem contains_ofPred (p : UInt8 → Bool) (b : UInt8) : (ofPred p).contains b = p b := by
  simp [ofPred, contains]

@[simp]
theorem contains_empty (b : UInt8) : empty.contains b = false := contains_ofPred ..

@[simp]
theorem contains_union (s t : ByteSet) (b : UInt8) :
    (s.union t).contains b = (s.contains b || t.contains b) := contains_ofPred ..

@[simp]
theorem contains_singleton (c b : UInt8) : (singleton c).contains b = (c == b) :=
  contains_ofPred ..

@[simp]
theorem contains_range (lo hi b : UInt8) :
    (range lo hi).contains b = (lo ≤ b && b ≤ hi) := contains_ofPred ..

@[ext]
theorem ext {s t : ByteSet} (h : ∀ b, s.contains b = t.contains b) : s = t := by
  cases s
  cases t
  congr 1
  apply Vector.ext
  intro i hi
  simpa [contains, Nat.mod_eq_of_lt hi] using h i.toUInt8

end ByteSet
end MultibyteRegex

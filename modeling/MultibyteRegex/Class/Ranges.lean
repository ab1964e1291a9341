/-! 符号位置の区間の列。昇順で、隣り合う区間は間に一つ以上の抜けを持つ。 -/
namespace MultibyteRegex

/-- 両端を含む区間。 -/
structure CodeRange where
  lo : Nat
  hi : Nat
  deriving DecidableEq

namespace CodeRange

def contains (r : CodeRange) (code : Nat) : Bool := r.lo ≤ code && code ≤ r.hi

/-- 区間を一つ足し、重なる区間と隣り合う区間を一つにまとめる。 -/
def insert (r : CodeRange) : List CodeRange → List CodeRange
  | [] => [r]
  | s :: rest =>
    if s.hi + 1 < r.lo then s :: r.insert rest
    else if r.hi + 1 < s.lo then r :: s :: rest
    else insert ⟨min r.lo s.lo, max r.hi s.hi⟩ rest

/-- 区間の列に入るか。昇順なので、符号位置より手前で終わらない最初の区間だけを見ればよい。 -/
def covers (rs : List CodeRange) (code : Nat) : Bool :=
  (rs.find? (code ≤ ·.hi)).any (·.lo ≤ code)

/-- 昇順で重ならない列では、どれかの区間に入ることと同じである。 -/
theorem covers_eq_any {rs : List CodeRange} (h : rs.Pairwise (·.hi < ·.lo)) (code : Nat) :
    covers rs code = rs.any (·.contains code) := by
  induction rs with
  | nil => rfl
  | cons r rest ih =>
    obtain ⟨hr, hrest⟩ := List.pairwise_cons.mp h
    by_cases hc : code ≤ r.hi
    · have none_later : rest.any (·.contains code) = false := by
        rw [List.any_eq_false]
        intro s hs
        have := hr s hs
        simp only [contains, Bool.and_eq_true, decide_eq_true_eq]
        omega
      rw [List.any_cons, none_later]
      simp [covers, contains, hc]
    · have : covers (r :: rest) code = covers rest code := by simp [covers, hc]
      rw [this, ih hrest]
      simp [contains, hc]

end CodeRange
end MultibyteRegex

import MultibyteRegex.Machine.Leaf

/-! 照合の答えとして渡す、番号ごとの範囲。 -/
namespace MultibyteRegex

/-- 番号ごとの範囲。照合に参加しなかった番号には範囲がない。 -/
structure Region where
  spans : Array (Option (Nat × Nat)) := #[]
  deriving DecidableEq, Inhabited

namespace Region

def size (r : Region) : Nat := r.spans.size

def isEmpty (r : Region) : Bool := r.spans.isEmpty

def group (r : Region) (n : Nat) : Option (Nat × Nat) := (r.spans[n]?).join

/-- 少なくとも `n` 個にする。減らすことはない。 -/
def grow (r : Region) (n : Nat) : Region :=
  ⟨r.spans ++ Array.replicate (n - r.spans.size) none⟩

/-- 捕獲の範囲で上書きする。捕獲より多い番号は前のまま残る。 -/
def update (r : Region) (caps : Captures) : Region :=
  ⟨(Array.range caps.size).map caps.span? ++ r.spans.extract caps.size r.spans.size⟩

def ofCaptures (caps : Captures) : Region := ({} : Region).update caps

theorem size_grow (r : Region) (n : Nat) : (r.grow n).size = max r.size n := by
  simp [grow, size]
  omega

theorem size_update (r : Region) (caps : Captures) :
    (r.update caps).size = max r.size caps.size := by
  simp [update, size]
  omega

/-- 捕獲のある番号は、捕獲の範囲になる。 -/
theorem group_update {r : Region} {caps : Captures} {n : Nat} (h : n < caps.size) :
    (r.update caps).group n = caps.span? n := by
  simp [update, group, h, Array.getElem?_append]

/-- 捕獲より多い番号は、前のままである。 -/
theorem group_update_of_le {r : Region} {caps : Captures} {n : Nat} (h : caps.size ≤ n) :
    (r.update caps).group n = r.group n := by
  simp only [update, group, Array.getElem?_append, Array.size_map, Array.size_range, Nat.not_lt.2 h, if_false,
    Array.getElem?_extract]
  congr 1
  split
  · congr 1
    omega
  · rw [Array.getElem?_eq_none]
    omega

/-- 増やした番号には、範囲がない。 -/
@[simp] theorem group_grow (r : Region) (n i : Nat) : (r.grow n).group i = r.group i := by
  simp only [grow, group, Array.getElem?_append]
  split
  · rfl
  · have hnone : r.spans[i]? = none := Array.getElem?_eq_none (by omega)
    rw [hnone, Array.getElem?_replicate]
    split <;> rfl

end Region
end MultibyteRegex

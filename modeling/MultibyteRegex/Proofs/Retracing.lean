import MultibyteRegex.Proofs.Suffixes

/-!
# 文字を並べた本文を戻る

文字を並べた本文では、どの位置からもその文字の先頭に戻り、切れ目から何文字戻っても、前から数えた切れ目に着く。後続
バイトが先頭バイトと紛れる符号化で、紛れるバイトがどれだけ続いても、同じである。
-/

namespace MultibyteRegex
namespace Encoding

variable {e : Encoding} {cs : List (List UInt8)} {k n p pos : Nat}

/-- 初めの `k` 文字の後の切れ目。 -/
def boundary (cs : List (List UInt8)) (k : Nat) : Nat := (cs.take k).flatten.length

section

variable (hcs : ∀ c ∈ cs, e.isChar c)
include hcs

theorem isWhole_take (k : Nat) : (cs.take k).all e.isWholeChar :=
  List.all_eq_true.2 fun c hc => isWholeChar_of_isChar (hcs c (List.mem_of_mem_take hc))

theorem chars_of_isChar : e.chars cs.flatten = cs := by
  simpa using chars_flatten (isWhole_take hcs cs.length)

theorem isWellFormed_flatten : e.isWellFormed cs.flatten := by
  rw [isWellFormed, chars_of_isChar hcs]
  exact List.all_eq_true.2 hcs

theorem stride_boundary (hk : k ≤ cs.length) : Stride e cs.flatten.toArray k 0 (boundary cs k) := by
  have hwhole := isWhole_take hcs k
  have hchars := chars_flatten hwhole
  have hsplit : (cs.take k).flatten ++ (cs.drop k).flatten = cs.flatten := by
    rw [← List.flatten_append, List.take_append_drop]
  have hstride := Head.zero.stride (isWellFormed_flatten hcs) (w := (cs.take k).flatten) (by rwa [isWhole, hchars])
    (Text.hasAt_iff.2 ⟨Nat.zero_le _, _, hsplit⟩)
  rwa [hchars, List.length_take, Nat.min_eq_left hk, Nat.zero_add] at hstride

theorem nextHead_boundary (hk : k < cs.length) :
    e.nextHead cs.flatten.toArray (boundary cs k) = boundary cs (k + 1) := by
  have hnext := (stride_boundary hcs (Nat.succ_le_of_lt hk)).count
  rwa [Function.iterate_succ_apply', (stride_boundary hcs (Nat.le_of_lt hk)).count] at hnext

theorem exists_boundary (hp : e.Head cs.flatten.toArray p) (hlt : p < cs.flatten.length) :
    ∃ k < cs.length, p = boundary cs k := by
  obtain ⟨-, k, rfl⟩ := hp
  have hk : k < cs.length := by
    refine Nat.lt_of_not_le fun hle => ?_
    have hend := (stride_boundary hcs (Nat.le_refl cs.length)).count
    rw [boundary, List.take_length] at hend
    rcases Nat.lt_or_eq_of_le hle with hmore | rfl
    · have hpast : (e.nextHead cs.flatten.toArray)^[cs.length] 0 < (e.nextHead cs.flatten.toArray)^[k] 0 :=
        iterate_lt hmore
      omega
    · omega
  exact ⟨k, hk, (stride_boundary hcs (Nat.le_of_lt hk)).count⟩

/-- どの位置も、前から数えて何番目かの文字に入り、その先頭に戻る。 -/
theorem leftAdjust_boundary (hpos : pos < cs.flatten.length) : ∃ k < cs.length,
    boundary cs k ≤ pos ∧ pos < boundary cs (k + 1) ∧ e.leftAdjust cs.flatten.toArray 0 pos = boundary cs k := by
  obtain ⟨hhead, hle, hlt⟩ := leftAdjust_starts (isWellFormed_flatten hcs) (by simpa using hpos)
  obtain ⟨k, hk, heq⟩ := exists_boundary hcs hhead (Nat.lt_of_le_of_lt hle hpos)
  rw [heq] at hle hlt
  exact ⟨k, hk, hle, by rwa [nextHead_boundary hcs hk] at hlt, heq⟩

/-- 手前にある文字の数までは、戻った数だけ手前の切れ目に着く。それより多くは戻れない。 -/
theorem stepBack_boundary (hk : k ≤ cs.length) (n : Nat) :
    e.stepBack cs.flatten.toArray 0 (boundary cs k) n = if n ≤ k then some (boundary cs (k - n)) else none := by
  have hw := isWellFormed_flatten hcs
  have hstride := stride_boundary hcs hk
  split
  · rename_i hn
    have hback := stride_boundary hcs (Nat.le_trans (Nat.sub_le k n) hk)
    refine stepBack_of_iterate hw hback.head ?_ hstride.head.le
    rw [← hback.count, ← Function.iterate_add_apply, Nat.add_sub_cancel' hn, hstride.count]
  · rename_i hn
    refine Option.eq_none_iff_forall_ne_some.2 fun p hp => ?_
    -- 戻れたなら、その切れ目から同じ数だけ進んで、`k` 文字より多く進んだことになる。
    obtain ⟨⟨-, j, rfl⟩, hcount⟩ := stepBack_spec hw hstride.head hp
    rw [← Function.iterate_add_apply, ← hstride.count] at hcount
    exact Nat.ne_of_lt (iterate_lt (Nat.lt_add_right j (Nat.lt_of_not_le hn))) hcount.symm

theorem prevHead_boundary (hk : k < cs.length) :
    e.prevHead cs.flatten.toArray 0 (boundary cs (k + 1)) = some (boundary cs k) := by
  have hback := stepBack_boundary hcs (Nat.succ_le_of_lt hk) 1
  rw [if_pos (Nat.succ_le_succ (Nat.zero_le k)), Nat.succ_sub_one] at hback
  obtain ⟨p, hp, heq⟩ := Option.bind_eq_some_iff.1 hback
  cases heq
  exact hp

end

/-- 文字を並べた本文を戻る操作は、前へ進む操作の逆である。文字の途中からはその先頭に戻り、切れ目からは、一つ手前の
文字の先頭に、または、手前に足りるだけの文字があるかぎり、何文字でも手前の切れ目に戻る。 -/
theorem stepBack_retraces (e : Encoding) {cs : List (List UInt8)} (hcs : ∀ c ∈ cs, e.isChar c) :
    let text : Text := cs.flatten.toArray
    (∀ pos < text.size, ∃ k < cs.length,
      boundary cs k ≤ pos ∧ pos < boundary cs (k + 1) ∧ e.leftAdjust text 0 pos = boundary cs k) ∧
    (∀ k < cs.length, e.prevHead text 0 (boundary cs (k + 1)) = some (boundary cs k)) ∧
    ∀ k ≤ cs.length, ∀ n,
      e.stepBack text 0 (boundary cs k) n = if n ≤ k then some (boundary cs (k - n)) else none :=
  ⟨fun _ hpos => leftAdjust_boundary hcs (by simpa using hpos), fun _ => prevHead_boundary hcs,
    fun _ hk => stepBack_boundary hcs hk⟩

/-- 先頭とも後続とも読めるバイトが続いても、数の偶奇で切れ目が決まる。 -/
theorem stepBack_retraces_ambiguous :
    let cs : List (List UInt8) := [[0x5c], [0x81, 0x81], [0x9f, 0x81], [0x81, 0x5c], [0x41]]
    (∀ c ∈ cs, Encoding.sjis.isChar c) ∧
      Encoding.sjis.leftAdjust cs.flatten.toArray 0 6 = 5 ∧
      Encoding.sjis.prevHead cs.flatten.toArray 0 5 = some 3 ∧
      Encoding.sjis.stepBack cs.flatten.toArray 0 7 3 = some 1 ∧
      Encoding.sjis.stepBack cs.flatten.toArray 0 7 5 = none := by
  intro cs
  have hcs : ∀ c ∈ cs, Encoding.sjis.isChar c := by decide
  obtain ⟨hleft, hprev, hback⟩ := stepBack_retraces .sjis hcs
  have honly : ∀ k < cs.length, boundary cs k ≤ 6 → 6 < boundary cs (k + 1) → k = 3 := by decide
  refine ⟨hcs, ?_, hprev 2 (by decide), hback 4 (by decide) 3, hback 4 (by decide) 5⟩
  obtain ⟨k, hk, hle, hlt, heq⟩ := hleft 6 (by decide)
  rw [heq, honly k hk hle hlt]
  rfl

end Encoding
end MultibyteRegex

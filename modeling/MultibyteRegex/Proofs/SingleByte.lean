import MultibyteRegex.Proofs.Joining
import MultibyteRegex.Proofs.LookBehind
import MultibyteRegex.Search.Candidates

/-!
# 一バイトの符号化

どのバイトも一文字である。本文も文字列もいつも正しく、どの位置も切れ目なので、節の手がかりはいつでも読める。
文字の境界へ揃える操作は何も動かさず、候補を辿る操作は区間を端から端まで一つずつ辿る。
-/

namespace MultibyteRegex
namespace Encoding

variable {text : Text} {start pos lo hi c : Nat} {bytes : List UInt8}

theorem lengthAt_ascii (h : pos < text.size) : Encoding.ascii.lengthAt text pos = 1 := by
  simp only [lengthAt, Array.getElem?_eq_getElem h, width]
  omega

theorem nextHead_ascii : Encoding.ascii.nextHead text pos = pos + 1 := by
  by_cases h : pos < text.size
  · simp [nextHead, lengthAt_ascii h]
  · simp [nextHead, lengthAt, Array.getElem?_eq_none (Nat.not_lt.1 h)]

theorem leftAdjust_ascii : Encoding.ascii.leftAdjust text start pos = pos := by
  simp [leftAdjust]

theorem rightAdjust_ascii : Encoding.ascii.rightAdjust text pos = pos := by
  simp [rightAdjust, leftAdjust_ascii]

theorem prevHead_ascii : Encoding.ascii.prevHead text 0 pos = if pos = 0 then none else some (pos - 1) := by
  simp [prevHead, leftAdjust_ascii]

theorem chars_ascii : Encoding.ascii.chars bytes = bytes.map ([·]) := by
  induction bytes with
  | nil => simp [chars]
  | cons b bytes ih => simp [chars, takeChar, width, ih]

theorem headsUp_ascii : Encoding.ascii.headsUp text hi c = (List.range' c (hi + 1 - c), max c (hi + 1)) := by
  fun_induction headsUp .ascii text hi c with
  | case1 c hc rest next hr ih =>
    rw [hr, nextHead_ascii] at ih
    obtain ⟨rfl, rfl⟩ := Prod.mk.inj ih
    have hn : hi + 1 - c = hi + 1 - (c + 1) + 1 := by omega
    rw [hn, List.range'_succ]
    simp only [Prod.mk.injEq, true_and]
    omega
  | case2 c hc =>
    have hn : hi + 1 - c = 0 := by omega
    rw [hn, List.range'_zero]
    simp only [Prod.mk.injEq, true_and]
    omega

theorem headsDown_ascii : Encoding.ascii.headsDown text lo c =
    ((List.range' lo (c + 1 - lo)).reverse,
      if c < lo then some c else if lo = 0 then none else some (lo - 1)) := by
  induction c with
  | zero =>
    rw [headsDown]
    by_cases h : 0 < lo
    · have hn : 0 + 1 - lo = 0 := by omega
      simp [h, hn]
    · obtain rfl : lo = 0 := by omega
      rw [if_neg h]
      split
      · rename_i p hp
        simp [prevHead_ascii] at hp
      · simp
  | succ c ih =>
    rw [headsDown]
    by_cases h : c + 1 < lo
    · have hn : c + 1 + 1 - lo = 0 := by omega
      simp [h, hn]
    · have hn : c + 1 + 1 - lo = c + 1 - lo + 1 := by omega
      have hc : lo + (c + 1 - lo) = c + 1 := by omega
      rw [if_neg h, if_neg h, hn, List.range'_1_concat, hc, List.reverse_concat]
      split
      · rename_i p hp
        obtain rfl : c = p := by simpa [prevHead_ascii] using hp
        simp only [ih, Prod.mk.injEq, true_and]
        split
        · have : lo = c + 1 := by omega
          simp [this]
        · rfl
      · rename_i hp
        simp [prevHead_ascii] at hp

theorem isWellFormed_ascii (bytes : List UInt8) : Encoding.ascii.isWellFormed bytes := by
  simp [isWellFormed, chars_ascii, isChar, width]

theorem isWhole_ascii (bytes : List UInt8) : Encoding.ascii.isWhole bytes := by
  simp [isWhole, chars_ascii, isWholeChar, width]

theorem iterate_nextHead_ascii {text : Text} {k s : Nat} : (Encoding.ascii.nextHead text)^[k] s = s + k := by
  induction k with
  | zero => rfl
  | succ k ih => rw [Function.iterate_succ_apply', ih, nextHead_ascii, Nat.add_assoc]

theorem head_ascii {text : Text} {p : Nat} (h : p ≤ text.size) : Encoding.ascii.Head text p :=
  ⟨h, p, by rw [iterate_nextHead_ascii, Nat.zero_add]⟩

end Encoding

/-- 翻訳と照合が同じ一バイトの符号化と写像に従い、本文の長さが機械の語に収まる。 -/
structure SingleByte (env : CodeEnv) (m : Matcher) : Prop where
  code : env.encoding = .ascii
  text : m.encoding = .ascii
  fold : m.program.fold = env.fold.getD .ascii
  size : m.text.size ≤ maxSize

theorem FoldTable.keepsWidth_of_ascii (t : FoldTable) : t.KeepsWidth .ascii := fun _ => rfl

theorem Node.isWhole_ascii (n : Node) : n.isWhole .ascii := n.allLiterals_of_forall Encoding.isWhole_ascii

theorem Node.joinsEvenly_ascii (n : Node) (fold : Option FoldTable) (options : Options) :
    n.joinsEvenly .ascii fold options :=
  (n.joinsEvenly_of_cutsEvenly (fun _ => Encoding.cutsEvenly_of_width_one fun _ _ => rfl) fold options).1

/-- 一バイトの符号化では、後読みの長さはいつも釣り合う。 -/
theorem Source.Balanced.of_ascii {s : Source} {text : Text} (he : s.encoding = .ascii) (hsize : text.size ≤ maxSize) :
    s.Balanced text := by
  refine .inr ⟨?_, ?_, ?_, hsize⟩ <;> simp only [behindsWhole, he]
  · cases s.tree? with
    | none => rfl
    | some root => exact List.all_eq_true.2 fun b _ => b.isWhole_ascii
  · exact FoldTable.keepsWidth_of_ascii _
  · exact Encoding.isWellFormed_ascii _

namespace SingleByte

variable {env : CodeEnv} {m : Matcher}

theorem aligned (hx : SingleByte env m) : Aligned env m where
  code := by rw [hx.text, hx.code]
  fold := hx.fold
  keeps := by
    rw [hx.text]
    exact m.program.fold.keepsWidth_of_ascii
  text := by
    rw [hx.text]
    exact Encoding.isWellFormed_ascii _
  size := hx.size

theorem readable (hx : SingleByte env m) (bodies : List Node) : Readable env m bodies where
  code := hx.aligned.code
  fold := hx.fold
  rests b _ options s t h hs := by
    have hwhole : (Node.group .behind b).isWhole m.encoding := by
      rw [hx.text]
      exact Node.isWhole_ascii _
    have hhead : m.encoding.Head m.text s := by
      rw [hx.text]
      exact Encoding.head_ascii hs
    exact (Node.spans_stride hx.aligned _ true hwhole rfl h hhead).count.symm

end SingleByte
end MultibyteRegex

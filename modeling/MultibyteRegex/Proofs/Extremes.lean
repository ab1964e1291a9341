import Mathlib.Order.Bounds.Defs
import MultibyteRegex.Proofs.Finding

/-!
# 端に現れる位置

一バイトの符号化では、手順は、探すものが現れる最初の位置を前から、最後の位置を後ろから見つける。飛ばしながら
探しても、一つずつ調べるのと同じ位置が見つかり、本文の外のバイトを読むことはない。
-/

namespace MultibyteRegex
namespace Text

variable {text : Text} {key : List UInt8} {t : FoldTable} {p n last limit c : Nat}

/-! ## 現れること -/

theorem hasFoldedAt_iff_getElem? : text.hasFoldedAt t key p ↔ p + key.length ≤ text.size ∧
    ∀ i (hi : i < key.length), (text[p + i]?).map t.fold = some key[i] := by
  induction key generalizing p with
  | nil => simp [hasFoldedAt]
  | cons b key ih =>
    simp only [hasFoldedAt, Bool.and_eq_true, beq_iff_eq, ih, List.length_cons]
    constructor
    · rintro ⟨hb, hle, hrest⟩
      refine ⟨by omega, fun i hi => ?_⟩
      cases i with
      | zero => exact hb
      | succ i =>
        rw [show p + (i + 1) = p + 1 + i by omega]
        exact hrest i (Nat.lt_of_succ_lt_succ hi)
    · rintro ⟨hle, hall⟩
      refine ⟨hall 0 (Nat.succ_pos _), by omega, fun i hi => ?_⟩
      rw [show p + 1 + i = p + (i + 1) by omega]
      exact hall (i + 1) (Nat.succ_lt_succ hi)

/-! ## 本文の外を読まないこと -/

/-- 窓の `n` バイト目までを後ろから読み、文字列と違うところで止まる。本文の外を読めば値がない。 -/
def windowAt? (text : Text) (key : List UInt8) (p : Nat) : Nat → Option Bool
  | 0 => some true
  | n + 1 =>
    match text[p + n]? with
    | none => none
    | some b => if key[n]? = some b then text.windowAt? key p n else some false

/-- `leapForward` と同じように探し、本文の外を読めば値がない。 -/
def leapForward? (skip : Skip) (text : Text) (key : List UInt8) (last c : Nat) : Option (Option Nat) :=
  if c ≤ last then
    match text.windowAt? key c key.length with
    | none => none
    | some true => some (some c)
    | some false =>
      match text[c + (key.length - 1)]? with
      | none => none
      | some b => leapForward? skip text key last (c + skip.width b)
  else some none
termination_by last + 1 - c
decreasing_by
  have := skip.width_pos b
  omega

/-- `leapBackward` と同じように探し、本文の外を読めば値がない。 -/
def leapBackward? (skip : Skip) (e : Encoding) (text : Text) (key : List UInt8) (limit c : Nat) :
    Option (Option Nat) :=
  if limit ≤ c then
    if text.hasAt key c then some (some c)
    else
      match text[c]? with
      | none => none
      | some b =>
        if c < skip.width b then some none
        else leapBackward? skip e text key limit (e.leftAdjust text 0 (c - skip.width b))
  else some none
termination_by c
decreasing_by
  have := skip.width_pos b
  have := Encoding.leftAdjust_le e text 0 (c - skip.width b)
  omega

/-- `memberForward` と同じように探し、本文の外を読めば値がない。 -/
def memberForward? (set : ByteSet) (e : Encoding) (text : Text) (limit p : Nat) : Option (Option Nat) :=
  if _h : p ≤ limit ∧ p < text.size then
    match text[p]? with
    | none => none
    | some b =>
      if set.contains b then some (some p) else memberForward? set e text limit (e.nextHead text p)
  else some none
termination_by text.size - p
decreasing_by
  have := Encoding.lt_nextHead e text p
  omega

/-- `memberBackward` と同じように探し、本文の外を読めば値がない。 -/
def memberBackward? (set : ByteSet) (e : Encoding) (text : Text) (limit p : Nat) : Option (Option Nat) :=
  if limit ≤ p then
    match text[p]? with
    | none => none
    | some b =>
      if set.contains b then some (some p)
      else match _h : e.prevHead text 0 p with
        | some q => memberBackward? set e text limit q
        | none => some none
  else some none
termination_by p
decreasing_by exact Encoding.prevHead_lt _h

theorem windowAt?_eq (hn : n ≤ key.length) (hp : p + n ≤ text.size) :
    text.windowAt? key p n = some (text.hasAt (key.take n) p) := by
  induction n with
  | zero => simpa [windowAt?, hasAt] using hp
  | succ n ih =>
    have hlt : p + n < text.size := by omega
    rw [windowAt?, Array.getElem?_eq_getElem hlt, ih (by omega) (by omega), List.take_succ_eq_append_getElem hn,
      hasAt_append]
    have hlen : (key.take n).length = n := List.length_take_of_le (by omega)
    simp only [hasAt, hlen, Array.getElem?_eq_getElem hlt, List.getElem?_eq_getElem hn, Option.some_inj]
    by_cases hb : key[n] = text[p + n]
    · have hle : p + n + 1 ≤ text.size := by omega
      simp [hb, hle]
    · simp [hb, Ne.symm hb]

theorem leapForward?_eq {skip : Skip} (hne : key ≠ []) (hlast : last + key.length ≤ text.size) :
    leapForward? skip text key last c = some (leapForward skip text key last c) := by
  have hpos := List.length_pos_iff.2 hne
  fun_induction leapForward skip text key last c with
  | case1 c hle h =>
    rw [leapForward?, if_pos hle, windowAt?_eq (Nat.le_refl _) (by omega), List.take_length, h]
  | case2 c hle h ih =>
    have hlt : c + (key.length - 1) < text.size := by omega
    rw [leapForward?, if_pos hle, windowAt?_eq (Nat.le_refl _) (by omega), List.take_length,
      Bool.eq_false_iff.2 h, Array.getElem?_eq_getElem hlt]
    simpa [Array.getD, hlt] using ih
  | case3 c hgt => rw [leapForward?, if_neg hgt]

theorem leapBackward?_eq {skip : Skip} (hc : c < text.size) :
    leapBackward? skip .ascii text key limit c = some (leapBackward skip .ascii text key limit c) := by
  fun_induction leapBackward skip .ascii text key limit c with
  | case1 c hle h => rw [leapBackward?, if_pos hle, if_pos h]
  | case2 c hle h width hlt =>
    have hwidth : c < skip.width text[c] := by simpa [width, Array.getD, hc] using hlt
    rw [leapBackward?, if_pos hle, if_neg h, Array.getElem?_eq_getElem hc]
    simp only [hwidth, if_true]
  | case3 c hle h width hge ih =>
    have hwidth : width = skip.width text[c] := by simp [width, Array.getD, hc]
    rw [leapBackward?, if_pos hle, if_neg h, Array.getElem?_eq_getElem hc]
    simp only [← hwidth, hge, if_false]
    exact ih (by
      rw [Encoding.leftAdjust_ascii]
      omega)
  | case4 c hgt => rw [leapBackward?, if_neg hgt]

theorem memberForward?_eq {set : ByteSet} :
    memberForward? set .ascii text limit p = some (memberForward set .ascii text limit p) := by
  fun_induction memberForward set .ascii text limit p with
  | case1 p h hin =>
    rw [memberForward?, dif_pos h, Array.getElem?_eq_getElem h.2]
    simp only [hin, if_true]
  | case2 p h hout ih =>
    rw [memberForward?, dif_pos h, Array.getElem?_eq_getElem h.2]
    simpa only [hout, Bool.false_eq_true, if_false] using ih
  | case3 p h => rw [memberForward?, dif_neg h]

theorem memberBackward?_eq {set : ByteSet} (hp : p < text.size) :
    memberBackward? set .ascii text limit p = some (memberBackward set .ascii text limit p) := by
  fun_induction memberBackward set .ascii text limit p with
  | case1 p hle hin =>
    have hin : set.contains text[p] := by simpa [Array.getD, hp] using hin
    rw [memberBackward?, if_pos hle, Array.getElem?_eq_getElem hp]
    simp only [hin, if_true]
  | case2 p hle hout q hq ih =>
    have hout : ¬set.contains text[p] := by simpa [Array.getD, hp] using hout
    rw [memberBackward?, if_pos hle, Array.getElem?_eq_getElem hp]
    simp only [hout, Bool.false_eq_true, if_false]
    split
    · rename_i q' hq'
      cases hq.symm.trans hq'
      exact ih (Nat.lt_trans (Encoding.prevHead_lt hq) hp)
    · rename_i hnone
      cases hq.symm.trans hnone
  | case3 p hle hout hq =>
    have hout : ¬set.contains text[p] := by simpa [Array.getD, hp] using hout
    rw [memberBackward?, if_pos hle, Array.getElem?_eq_getElem hp]
    simp only [hout, Bool.false_eq_true, if_false]
    split
    · rename_i q' hq'
      cases hq.symm.trans hq'
    · rfl
  | case4 p hgt => rw [memberBackward?, if_neg hgt]

end Text

namespace Finder

variable {f : Finder} {fold : FoldTable} {text : Text} {start limit p : Nat}

/-- 前から探し、本文の外を読めば値がない。一つずつ調べる文字列は、本文に収まる窓とだけ比べる。 -/
def forward? (f : Finder) (e : Encoding) (fold : FoldTable) (text : Text) (start limit : Nat) :
    Option (Option Nat) :=
  match f with
  | .leaping key =>
    match text.lastStart? key.length with
    | some last => text.leapForward? (.forward key) key (min last limit) start
    | none => some none
  | .member set => text.memberForward? set e limit start
  | _ => some (f.forward e fold text start limit)

/-- 後ろから探し、本文の外を読めば値がない。 -/
def backward? (f : Finder) (e : Encoding) (fold : FoldTable) (text : Text) (start limit : Nat) :
    Option (Option Nat) :=
  match f with
  | .leaping key =>
    match text.lastStart? key.length with
    | some last => text.leapBackward? (.backward key) e key limit (min last start)
    | none => some none
  | .member set =>
    match if text.size ≤ start then e.prevHead text 0 text.size else some start with
    | some p => text.memberBackward? set e limit p
    | none => some none
  | _ => some (f.backward e fold text start limit)

theorem forward?_eq (hne : ∀ key, f = .leaping key → key ≠ []) :
    f.forward? .ascii fold text start limit = some (f.forward .ascii fold text start limit) := by
  cases f with
  | leaping key =>
    simp only [forward?, forward]
    by_cases hlen : key.length ≤ text.size
    · simp only [Text.lastStart?, if_pos hlen, Option.bind_some]
      exact Text.leapForward?_eq (hne key rfl) (by omega)
    · simp only [Text.lastStart?, if_neg hlen, Option.bind_none]
  | member set => exact Text.memberForward?_eq
  | _ => rfl

theorem backward?_eq (hne : ∀ key, f = .leaping key → key ≠ []) :
    f.backward? .ascii fold text start limit = some (f.backward .ascii fold text start limit) := by
  cases f with
  | leaping key =>
    simp only [backward?, backward]
    by_cases hlen : key.length ≤ text.size
    · have hpos := List.length_pos_iff.2 (hne key rfl)
      simp only [Text.lastStart?, if_pos hlen, Option.bind_some]
      exact Text.leapBackward?_eq (by omega)
    · simp only [Text.lastStart?, if_neg hlen, Option.bind_none]
  | member set =>
    simp only [backward?, backward]
    by_cases hend : text.size ≤ start
    · rw [if_pos hend, Encoding.prevHead_ascii]
      split
      · rename_i p hp
        obtain ⟨hpos, hp'⟩ := Option.ite_none_left_eq_some.1 hp
        rw [hp, Option.bind_some]
        exact Text.memberBackward?_eq (by
          have := Option.some.inj hp'
          omega)
      · rename_i hnone
        rw [hnone]
        rfl
    · simp only [if_neg hend, Option.bind_some]
      exact Text.memberBackward?_eq (Nat.not_le.1 hend)
  | _ => rfl

/-- 飛ばしながら探しても、一つずつ調べるのと同じ位置が見つかる。 -/
theorem leaping_eq_exact (key : List UInt8) :
    (leaping key).forward .ascii fold text start limit = (exact key).forward .ascii fold text start limit ∧
      (leaping key).backward .ascii fold text start limit =
        (exact key).backward .ascii fold text start limit := by
  rw [forward_ascii, forward_ascii, backward_ascii, backward_ascii]
  exact ⟨rfl, rfl⟩

end Finder

/-! ## 手順 -/

/-- 手がかりが `p` に現れる。文字列は全体が本文に収まって、写すなら写してから等しく、集合は `p` のバイトを含む。 -/
def Hints.Occurs (h : Hints) (fold : FoldTable) (text : Text) (p : Nat) : Prop :=
  match h.key, h.first with
  | some k, _ => p + k.bytes.length ≤ text.size ∧ ∀ i (hi : i < k.bytes.length),
      (text[p + i]?).map (if k.folded then fold.fold else id) = some k.bytes[i]
  | none, some set => ∃ h : p < text.size, set.contains text[p]
  | none, none => False

namespace Plan

variable {h : Hints} {fold : FoldTable} {text : Text} {start limit p : Nat}

theorem hits_ofHints (e : Encoding) : (ofHints e h).finder.hits fold text p ↔ h.Occurs fold text p := by
  obtain ⟨edges, length, threshold, key, first⟩ := h
  cases key with
  | some k =>
    have hplain : text.hasAt k.bytes p ↔ p + k.bytes.length ≤ text.size ∧
        ∀ i (hi : i < k.bytes.length), (text[p + i]?).map id = some k.bytes[i] := by
      rw [Text.hasAt_eq_hasFoldedAt]
      exact Text.hasFoldedAt_iff_getElem?
    simp only [ofHints, finderOf, Hints.Occurs]
    by_cases hfolded : k.folded
    · simp only [hfolded, if_true]
      exact Text.hasFoldedAt_iff_getElem?
    · simp only [hfolded, Bool.false_eq_true, if_false]
      split <;> exact hplain
  | none =>
    cases first with
    | some set =>
      simp only [ofHints, Hints.Occurs, Finder.hits, Option.any_eq_true, Array.getElem?_eq_some_iff]
      constructor
      · rintro ⟨b, ⟨hp, rfl⟩, hin⟩
        exact ⟨hp, hin⟩
      · rintro ⟨hp, hin⟩
        exact ⟨_, ⟨hp, rfl⟩, hin⟩
    | none => simp [ofHints, Hints.Occurs, Finder.hits]

/-- 飛ばしながら探すのは、手がかりの文字列である。 -/
theorem bytes_of_leaping {e : Encoding} {key : List UInt8} (hf : (ofHints e h).finder = .leaping key) :
    ∃ k ∈ h.key, k.bytes = key := by
  obtain ⟨edges, length, threshold, k, first⟩ := h
  cases k with
  | some k =>
    simp only [ofHints, finderOf] at hf
    split at hf
    · cases hf
    · split at hf
      · exact ⟨k, rfl, Finder.leaping.inj hf⟩
      · cases hf
  | none => cases first <;> cases hf

/-- 一バイトの符号化では、手順は、手がかりが現れる位置のうち、前からは最初のものを、後ろからは最後のものを
見つける。飛ばしながら探しても、一つずつ調べるのと同じで、本文の外は読まない。 -/
theorem finder_extreme (hkey : ∀ k ∈ h.key, k.bytes ≠ []) (fold : FoldTable) (text : Text) (start limit : Nat) :
    let f := (ofHints .ascii h).finder
    ((∀ p, f.forward .ascii fold text start limit = some p ↔
        IsLeast {p | start ≤ p ∧ p ≤ limit ∧ h.Occurs fold text p} p) ∧
      (f.forward .ascii fold text start limit = none ↔
        ∀ p, start ≤ p → p ≤ limit → ¬h.Occurs fold text p)) ∧
    ((∀ p, f.backward .ascii fold text start limit = some p ↔
        IsGreatest {p | limit ≤ p ∧ p ≤ start ∧ h.Occurs fold text p} p) ∧
      (f.backward .ascii fold text start limit = none ↔
        ∀ p, limit ≤ p → p ≤ start → ¬h.Occurs fold text p)) ∧
    (∀ key, f = .leaping key →
      f.forward .ascii fold text start limit = (Finder.exact key).forward .ascii fold text start limit ∧
      f.backward .ascii fold text start limit = (Finder.exact key).backward .ascii fold text start limit) ∧
    f.forward? .ascii fold text start limit = some (f.forward .ascii fold text start limit) ∧
    f.backward? .ascii fold text start limit = some (f.backward .ascii fold text start limit) := by
  intro f
  have hits : ∀ p, f.hits fold text p ↔ h.Occurs fold text p := fun p => hits_ofHints .ascii
  have hmiss : ∀ p, f.hits fold text p = false ↔ ¬h.Occurs fold text p := fun p => by
    rw [← hits, Bool.not_eq_true]
  have hleaping : ∀ key, f = .leaping key → key ≠ [] := by
    intro key hf
    obtain ⟨k, hk, rfl⟩ := bytes_of_leaping hf
    exact hkey k hk
  refine ⟨⟨fun p => ?_, ?_⟩, ⟨fun p => ?_, ?_⟩, fun key hf => ?_, Finder.forward?_eq hleaping,
    Finder.backward?_eq hleaping⟩
  · rw [Finder.forward_ascii, Text.firstFrom_eq_some_iff]
    simp only [hits, hmiss]
    constructor
    · rintro ⟨hlo, hhi, hp, hmin⟩
      exact ⟨⟨hlo, hhi, hp⟩, fun q ⟨hq, _, hocc⟩ => Nat.le_of_not_lt fun hlt => hmin q hq hlt hocc⟩
    · rintro ⟨⟨hlo, hhi, hp⟩, hmin⟩
      exact ⟨hlo, hhi, hp, fun q hq hlt hocc => Nat.not_le_of_lt hlt (hmin ⟨hq, by omega, hocc⟩)⟩
  · rw [Finder.forward_ascii, Text.firstFrom_eq_none_iff]
    simp only [hmiss]
  · rw [Finder.backward_ascii, Text.lastFrom_eq_some_iff]
    simp only [hits, hmiss]
    constructor
    · rintro ⟨hlo, hhi, hp, hmax⟩
      exact ⟨⟨hlo, hhi, hp⟩, fun q ⟨_, hq, hocc⟩ => Nat.le_of_not_lt fun hlt => hmax q hlt hq hocc⟩
    · rintro ⟨⟨hlo, hhi, hp⟩, hmax⟩
      exact ⟨hlo, hhi, hp, fun q hlt hq hocc => Nat.not_le_of_lt hlt (hmax ⟨by omega, hq, hocc⟩)⟩
  · rw [Finder.backward_ascii, Text.lastFrom_eq_none_iff]
    simp only [hmiss]
  · rw [hf]
    exact Finder.leaping_eq_exact key

/-- 同じバイトが重なって現れる文字列を、`aaaabaab` の中で両側から探す例。 -/
theorem finder_extreme_overlapping :
    ∃ h : Hints, h.key = some ⟨.zero, Pattern.ascii "aab", false, true⟩ ∧ (∀ k ∈ h.key, k.bytes ≠ []) ∧
      (ofHints .ascii h).finder = .leaping (Pattern.ascii "aab") ∧
      IsLeast {p | 0 ≤ p ∧ p ≤ 9 ∧ h.Occurs .ascii (Pattern.ascii "aaaabaab").toArray p} 2 ∧
      IsGreatest {p | 0 ≤ p ∧ p ≤ 9 ∧ h.Occurs .ascii (Pattern.ascii "aaaabaab").toArray p} 5 := by
  let h : Hints := { key := some ⟨.zero, Pattern.ascii "aab", false, true⟩ }
  have hkey : ∀ k ∈ h.key, k.bytes ≠ [] := by
    intro k hk
    cases hk
    decide
  obtain ⟨⟨hleast, -⟩, -, -⟩ := finder_extreme hkey .ascii (Pattern.ascii "aaaabaab").toArray 0 9
  obtain ⟨-, ⟨hgreatest, -⟩, -⟩ := finder_extreme hkey .ascii (Pattern.ascii "aaaabaab").toArray 9 0
  exact ⟨h, rfl, hkey, by decide +kernel, (hleast 2).1 (by decide +kernel), (hgreatest 5).1 (by decide +kernel)⟩

end Plan
end MultibyteRegex

import MultibyteRegex.Proofs.Resyncing
import MultibyteRegex.Proofs.Substring

/-!
# 後ろへ切れ目を辿ること

整形式の本文では、切れ目から戻れば、切れ目だけを一つも飛ばさずに辿る。切れ目に現れる文字列は、切れ目に揃えながら
飛ばしても飛び越えないので、後ろからの候補は、探すものの近くの切れ目を飛び越えない。
-/

namespace MultibyteRegex

namespace Encoding

variable {e : Encoding} {text : Text} {lo c x n : Nat}

/-- 後ろへ辿る先は、`lo` までの切れ目のすべてである。 -/
theorem headsDown_heads (hw : e.isWellFormed text.toList) (hc : e.Head text c) (lo : Nat) :
    (e.headsDown text lo c).1.Pairwise (· > ·) ∧
      (∀ x, x ∈ (e.headsDown text lo c).1 ↔ e.Head text x ∧ lo ≤ x ∧ x ≤ c) ∧
      (∀ n, (e.headsDown text lo c).2 = some n → e.Head text n) ∧
      ∀ x, e.Head text x → x < lo → x ≤ c → ∃ n, (e.headsDown text lo c).2 = some n ∧ x ≤ n := by
  fun_induction headsDown e text lo c with
  | case1 c hlt =>
    refine ⟨.nil, fun x => ?_, fun n hn => ?_, fun x _ _ hxc => ⟨c, rfl, hxc⟩⟩
    · simp only [List.not_mem_nil, false_iff]
      omega
    · cases hn
      exact hc
  | case2 c hge p hp rest next hr ih =>
    rw [hr] at ih
    obtain ⟨hsorted, hmem, hnext, hbelow⟩ := ih (prevHead_spec hw hc hp).1
    have hlt := prevHead_lt hp
    -- 一つ手前の切れ目まで、間に切れ目はない
    have hcase : ∀ x, e.Head text x → x ≤ c → x = c ∨ x ≤ p := fun x hx hxc => by
      rcases Nat.lt_or_eq_of_le hxc with hlt | rfl
      · obtain ⟨n, hn, hle⟩ := hx.le_prevHead hw hlt
        cases hp.symm.trans hn
        exact .inr hle
      · exact .inl rfl
    refine ⟨List.pairwise_cons.2 ⟨fun y hy => ?_, hsorted⟩, fun x => ?_, hnext, fun x hx hlo hxc => ?_⟩
    · have := ((hmem y).1 hy).2.2
      omega
    · rw [List.mem_cons, hmem]
      constructor
      · rintro (rfl | ⟨hx, hlo, hxp⟩)
        · exact ⟨hc, by omega, Nat.le_refl _⟩
        · exact ⟨hx, hlo, by omega⟩
      · rintro ⟨hx, hlo, hxc⟩
        exact (hcase x hx hxc).imp_right fun hxp => ⟨hx, hlo, hxp⟩
    · exact hbelow x hx hlo ((hcase x hx hxc).resolve_left (by omega))
  | case3 c hge hnone =>
    have hzero : ∀ x, e.Head text x → x ≤ c → x = c := fun x hx hxc => by
      refine Nat.le_antisymm hxc (Nat.le_of_not_lt fun hlt => ?_)
      obtain ⟨n, hn, -⟩ := hx.le_prevHead hw hlt
      cases hnone.symm.trans hn
    refine ⟨List.pairwise_singleton .., fun x => ?_, by simp, fun x hx hlo hxc => ?_⟩
    · rw [List.mem_singleton]
      constructor
      · rintro rfl
        exact ⟨hc, by omega, Nat.le_refl _⟩
      · exact fun h => hzero x h.1 h.2.2
    · have := hzero x hx hxc
      omega

theorem head_leftAdjust (hw : e.isWellFormed text.toList) (h : c ≤ text.size) : e.Head text (e.leftAdjust text 0 c) := by
  rcases Nat.lt_or_eq_of_le h with hlt | rfl
  · exact (leftAdjust_starts hw hlt).1
  · rw [(head_size hw).leftAdjust hw]
    exact head_size hw

end Encoding

/-! ## 探すものを見つける -/

namespace Text

variable {e : Encoding} {text : Text} {set : ByteSet} {key : List UInt8} {limit p x : Nat}

/-- 切れ目に揃えながら飛ばしても、切れ目に現れる文字列を飛び越えない。 -/
theorem exists_leapBackward (hw : e.isWellFormed text.toList) (hx : e.Head text x) (hkey : text.hasAt key x)
    (hlimit : limit ≤ x) (hxp : x ≤ p) :
    ∃ i, text.leapBackward (.backward key) e key limit p = some i ∧ x ≤ i := by
  fun_induction leapBackward (.backward key) e text key limit p with
  | case1 p hle h => exact ⟨p, rfl, hxp⟩
  | case2 p hle hmiss width hlt =>
    have hxp : x < p := Nat.lt_of_le_of_ne hxp fun h => hmiss (h ▸ hkey)
    rw [not_hasAt_of_lt_backward hxp (by omega)] at hkey
    cases hkey
  | case3 p hle hmiss width hge ih =>
    have hxp : x < p := Nat.lt_of_le_of_ne hxp fun h => hmiss (h ▸ hkey)
    refine ih (hx.le_leftAdjust hw (Nat.le_of_not_lt fun hlt => ?_))
    rw [not_hasAt_of_lt_backward hxp (by omega)] at hkey
    cases hkey
  | case4 p hgt => omega

theorem exists_memberBackward (hw : e.isWellFormed text.toList) (hx : e.Head text x)
    (hset : (text[x]?).any set.contains) (hlimit : limit ≤ x) (hxp : x ≤ p) :
    ∃ i, text.memberBackward set e limit p = some i ∧ x ≤ i := by
  have hbyte : set.contains (text.getD x 0) := by
    obtain ⟨b, hb, hin⟩ := (Option.any_eq_true ..).1 hset
    simpa [Array.getD_eq_getD_getElem?, hb] using hin
  fun_induction memberBackward set e text limit p with
  | case1 p hp hin => exact ⟨p, rfl, hxp⟩
  | case2 p hp hout q hq ih =>
    have hlt : x < p := Nat.lt_of_le_of_ne hxp fun h => hout (h ▸ hbyte)
    obtain ⟨n, hn, hle⟩ := hx.le_prevHead hw hlt
    cases hq.symm.trans hn
    exact ih hle
  | case3 p hp hout hnone =>
    have hlt : x < p := Nat.lt_of_le_of_ne hxp fun h => hout (h ▸ hbyte)
    obtain ⟨n, hn, -⟩ := hx.le_prevHead hw hlt
    cases hnone.symm.trans hn
  | case4 p hp => omega

end Text

namespace Finder

variable {f : Finder} {e : Encoding} {fold : FoldTable} {text : Text} {start limit x : Nat}

theorem exists_backward_of_eq (h : f.backward e fold text start limit = Text.lastFrom (f.hits fold text) limit start)
    (hx : f.hits fold text x) (hlimit : limit ≤ x) (hstart : x ≤ start) :
    ∃ i, f.backward e fold text start limit = some i ∧ x ≤ i := by
  rw [h]
  cases hlast : Text.lastFrom (f.hits fold text) limit start with
  | none =>
    rw [Text.lastFrom_eq_none_iff.1 hlast x hlimit hstart] at hx
    cases hx
  | some i =>
    obtain ⟨-, -, -, hmax⟩ := Text.lastFrom_eq_some_iff.1 hlast
    refine ⟨i, rfl, Nat.le_of_not_lt fun hlt => ?_⟩
    rw [hmax x hlt hstart] at hx
    cases hx

theorem exists_backward (hw : e.isWellFormed text.toList) (h : f.isKey) (hx : f.hits fold text x)
    (hhead : ∀ key, f = .leaping key → e.Head text x) (hlimit : limit ≤ x) (hstart : x ≤ start) :
    ∃ i, f.backward e fold text start limit = some i ∧ x ≤ i := by
  cases f with
  | nothing | member => cases h
  | exact key => exact exists_backward_of_eq (backward_ascii (f := .exact key)) hx hlimit hstart
  | folded key => exact exists_backward_of_eq (backward_ascii (f := .folded key)) hx hlimit hstart
  | leaping key =>
    have hsize : x + key.length ≤ text.size := Text.hasAt_le hx
    have hlast : text.lastStart? key.length = some (text.size - key.length) := if_pos (by omega)
    obtain ⟨i, hi, hle⟩ := Text.exists_leapBackward hw (hhead key rfl) hx hlimit
      (show x ≤ min (text.size - key.length) start by omega)
    exact ⟨i, by simp [backward, hlast, hi], hle⟩

end Finder

/-! ## 候補 -/

namespace Quarry

variable {q : Quarry} {lo s x : Nat}

/-- `x` から言われた距離の所に、探すものが現れる。飛ばしながら探す文字列は、切れ目に現れる。 -/
def Marks (q : Quarry) (x : Nat) : Prop :=
  ∃ p, x + q.plan.distance.min ≤ p ∧ (∀ far ∈ q.plan.distance.max, p ≤ x + far) ∧
    q.plan.finder.hits q.fold q.text p ∧ ∀ key, q.plan.finder = .leaping key → q.encoding.Head q.text p

section

variable (hw : q.encoding.isWellFormed q.text.toList)
  (hmember : ∀ set, q.plan.finder = .member set → q.plan.distance = .zero)
include hw hmember

theorem exists_backward (hs : q.encoding.Head q.text s) (hx : q.encoding.Head q.text x)
    (hlo : lo ≤ x) (hxs : x ≤ s) (hmarks : q.Marks x) :
    ∃ p, q.plan.finder.backward q.encoding q.fold q.text (q.reach s) (lo + q.plan.distance.min) = some p ∧
      x + q.plan.distance.min ≤ p := by
  obtain ⟨p, hmin, hfar, hp, hhead⟩ := hmarks
  have hreach := le_reach hxs hfar (hits_le hp)
  have hsome : q.plan.finder.isNothing = false := by
    cases hf : q.plan.finder with
    | nothing =>
      rw [hf] at hp
      cases hp
    | _ => rfl
  rcases Finder.isKey_or_member hsome with hkey | ⟨set, hset⟩
  · obtain ⟨i, hi, hle⟩ := Finder.exists_backward hw hkey hp hhead
      (show lo + q.plan.distance.min ≤ p by omega) hreach
    exact ⟨i, hi, Nat.le_trans hmin hle⟩
  · have hzero := hmember set hset
    have hpx : p = x := by
      have := hfar 0 (by rw [hzero]; rfl)
      omega
    subst hpx
    have hstart : q.reach s = s := by
      rw [reach, hzero]
      exact Nat.min_eq_left hs.le
    rw [hset] at hp ⊢
    rw [hzero, hstart]
    have hin : p < q.text.size := by
      obtain ⟨b, hb, -⟩ := (Option.any_eq_true ..).1 hp
      exact (Array.getElem?_eq_some_iff.1 hb).1
    -- 本文の終わりには文字がないので、一つ手前の切れ目から辿る
    obtain ⟨c, hc, hpc⟩ : ∃ c, (if q.text.size ≤ s then q.encoding.prevHead q.text 0 q.text.size else some s) = some c ∧
        p ≤ c := by
      split
      · exact hx.le_prevHead hw hin
      · exact ⟨s, rfl, hxs⟩
    obtain ⟨i, hi, hpi⟩ := Text.exists_memberBackward hw hx hp hlo hpc
    refine ⟨i, ?_, hpi⟩
    unfold Finder.backward
    dsimp only
    rw [hc]
    exact hi

/-- 後ろからの候補は切れ目だけを大きい順に並べ、近くに探すものが現れる切れ目をすべて含む。 -/
theorem backward_heads (hs : q.encoding.Head q.text s) (lo : Nat) :
    (q.backward lo s).Pairwise (· > ·) ∧
      (∀ x ∈ q.backward lo s, (lo ≤ x ∧ x ≤ s) ∧ q.encoding.Head q.text x) ∧
      ∀ x, q.encoding.Head q.text x → lo ≤ x → x ≤ s → q.Marks x → x ∈ q.backward lo s := by
  fun_induction backward q lo s with
  | case1 s hle hnone =>
    refine ⟨.nil, by simp, fun x hx hlo hxs hmarks => ?_⟩
    obtain ⟨p, hp, -⟩ := exists_backward hw hmember hs hx hlo hxs hmarks
    cases hnone.symm.trans hp
  | case2 s hle p hp high heads ih =>
    have hlo : lo ≤ q.earliest lo p := le_earliest
    have hearliest : q.earliest lo p ≤ s := earliest_le hle (Finder.backward_le hp)
    have hhigh : high ≤ s := Nat.min_le_right ..
    have hc := Encoding.head_leftAdjust hw (Nat.le_trans hhigh hs.le)
    have hadjust := Encoding.leftAdjust_le q.encoding q.text 0 high
    obtain ⟨hsorted, hmem, hnext, hbelow⟩ := Encoding.headsDown_heads hw hc (q.earliest lo p)
    -- 近くに探すものが現れる切れ目は、いま辿る切れ目の中か、その手前にある
    have hmarked : ∀ x, q.encoding.Head q.text x → lo ≤ x → x ≤ s → q.Marks x →
        x ∈ heads.1 ∨ ∃ n, heads.2 = some n ∧ x ≤ n := by
      intro x hx hlox hxs hmarks
      obtain ⟨p', hp', hxp⟩ := exists_backward hw hmember hs hx hlox hxs hmarks
      cases hp.symm.trans hp'
      have hxc := hx.le_leftAdjust hw (show x ≤ high by omega)
      rcases Nat.lt_or_ge x (q.earliest lo p) with hlt | hge
      · exact .inr (hbelow x hx hlt hxc)
      · exact .inl ((hmem x).2 ⟨hx, hge, hxc⟩)
    have hwithin : ∀ x ∈ heads.1, (lo ≤ x ∧ x ≤ s) ∧ q.encoding.Head q.text x := fun x hx => by
      obtain ⟨hhead, hge, hle⟩ := (hmem x).1 hx
      exact ⟨by omega, hhead⟩
    split
    · rename_i n hn
      obtain ⟨hsorted', hwithin', hmem'⟩ := ih n hn (hnext n hn)
      have hlt := Encoding.headsDown_lt hn
      refine ⟨List.pairwise_append.2 ⟨hsorted, hsorted', fun x hx y hy => ?_⟩, fun x hx => ?_,
        fun x hx hlox hxs hmarks => ?_⟩
      · have := ((hmem x).1 hx).2.1
        have := (hwithin' y hy).1
        omega
      · rcases List.mem_append.1 hx with hx | hx
        · exact hwithin x hx
        · have := hwithin' x hx
          exact ⟨by omega, this.2⟩
      · rw [List.mem_append]
        rcases hmarked x hx hlox hxs hmarks with hx' | ⟨n', hn', hle⟩
        · exact .inl hx'
        · cases hn.symm.trans hn'
          exact .inr (hmem' x hx hlox hle hmarks)
    · rename_i hn
      rw [List.append_nil]
      refine ⟨hsorted, hwithin, fun x hx hlox hxs hmarks => ?_⟩
      rcases hmarked x hx hlox hxs hmarks with hx' | ⟨n', hn', -⟩
      · exact hx'
      · simp [hn] at hn'
  | case3 s hgt => exact ⟨.nil, by simp, fun x _ hlo hxs _ => by omega⟩

end

end Quarry
end MultibyteRegex

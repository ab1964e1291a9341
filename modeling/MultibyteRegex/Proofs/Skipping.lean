import MultibyteRegex.Proofs.Leftmost

/-!
# 飛ばしながら試しても同じ照合が残ること

合うどの位置からも言われた距離の所に探すものが現れるなら、その周りだけを試す走査は、区間のどの位置も試す走査と
同じ照合を残す。手順がどのように決まったかにはよらない。
-/

namespace MultibyteRegex
namespace Matcher

variable {m : Matcher} {fuel : Nat} {P : Nat → Prop} {cs all : List Nat}

theorem longest_ends (h : ∀ x ∈ cs, ∃ v, m.matchAt fuel x = some (.ok v)) (best : Option Found) :
    ∃ r, m.longest fuel best cs = some (.ok r) := by
  induction cs generalizing best with
  | nil => exact ⟨best, rfl⟩
  | cons x cs ih =>
    obtain ⟨⟨⟨length, caps⟩, hx⟩, hcs⟩ := List.forall_mem_cons.1 h
    unfold Matcher.longest
    rw [hx]
    cases length with
    | none => exact ih hcs best
    | some length => exact ih hcs _

theorem scan_ends (h : ∀ x ∈ cs, ∃ v, m.matchAt fuel x = some (.ok v)) (longest : Bool) :
    ∃ r, m.scan fuel longest cs = some (.ok r) := by
  cases longest with
  | false => exact first_ends h
  | true => exact longest_ends h none

/-- どの候補でも照合が終わるなら、合う候補を残して間引いた走査も、すべてを試した走査も終わり、同じ照合が残る。 -/
theorem exists_scan (h : Thins P cs all) (hreturns : ∀ x ∈ all, ∃ v, m.Returns x v)
    (hP : ∀ x ∈ all, ∀ length caps, m.Returns x ⟨some length, caps⟩ → P x) (longest : Bool) :
    ∃ n r, ∀ fuel ≥ n, m.scan fuel longest cs = some (.ok r) ∧ m.scan fuel longest all = some (.ok r) := by
  obtain ⟨n, hn⟩ := exists_fuel hreturns
  obtain ⟨r, hr⟩ := scan_ends hn longest
  have hthin : m.scan n longest cs = some (.ok r) := by
    refine scan_thins h (fun x hx ⟨length, caps, hm⟩ => hP x hx length caps ⟨n, hm⟩) (fun x hx w hw => ?_) hr
    obtain ⟨v, hv⟩ := hn x hx
    cases hv.symm.trans hw
    exact ⟨v, rfl⟩
  exact ⟨n, r, fun fuel hle => ⟨scan_mono hthin hle, scan_mono hr hle⟩⟩

end Matcher

namespace Quarry

/-- 実際に試す候補。検索を始めた位置を渡すと、行の頭だけを試す。 -/
def tried (q : Quarry) (start : Option Nat) (cs : List Nat) : List Nat :=
  match start with
  | none => cs
  | some start => cs.filter (q.isLineHead start)

variable {q : Quarry} {P : Nat → Prop} {cs all : List Nat}

theorem tried_thins (h : Thins P cs all) (start : Option Nat) : Thins P (q.tried start cs) (q.tried start all) := by
  cases start with
  | none => exact h
  | some start => exact h.filter _

theorem mem_of_mem_tried {start : Option Nat} {x : Nat} (h : x ∈ q.tried start cs) : x ∈ cs := by
  cases start with
  | none => exact h
  | some start => exact List.mem_of_mem_filter h

end Quarry

namespace Matcher

/-- 区間のどの位置でも照合が終わり、合うどの位置からも言われた距離の所に探すものが現れるなら、飛ばしながらの走査は、
前からでも後ろからでも終わり、どの位置も試す走査と同じ照合を残す。 -/
theorem scan_near {m : Matcher} (he : m.encoding = .ascii) (plan : Plan) {lo hi : Nat}
    (hreturns : ∀ x, lo ≤ x → x ≤ hi → ∃ v, m.Returns x v)
    (hnear : ∀ x, lo ≤ x → x ≤ hi → ∀ length caps, m.Returns x ⟨some length, caps⟩ → (m.quarry plan).Near x)
    (start : Option Nat) (longest : Bool) :
    (∃ n r, ∀ fuel ≥ n,
      m.scan fuel longest ((m.quarry plan).tried start ((m.quarry plan).forward hi lo)) = some (.ok r) ∧
      m.scan fuel longest ((m.quarry plan).tried start (m.encoding.headsUp m.text hi lo).1) = some (.ok r)) ∧
    ∃ n r, ∀ fuel ≥ n,
      m.scan fuel longest ((m.quarry plan).tried start
        ((m.quarry plan).backward lo (m.encoding.leftAdjust m.text 0 hi))) = some (.ok r) ∧
      m.scan fuel longest ((m.quarry plan).tried start
        (m.encoding.headsDown m.text lo (m.encoding.leftAdjust m.text 0 hi)).1) = some (.ok r) := by
  have hwithin : ∀ x ∈ List.range' lo (hi + 1 - lo), lo ≤ x ∧ x ≤ hi := fun x hx => by
    have := List.mem_range'_1.1 hx
    omega
  have hscan : ∀ {cs all : List Nat}, Thins (m.quarry plan).Near cs all →
      (∀ x ∈ all, x ∈ List.range' lo (hi + 1 - lo)) →
      ∃ n r, ∀ fuel ≥ n, m.scan fuel longest ((m.quarry plan).tried start cs) = some (.ok r) ∧
        m.scan fuel longest ((m.quarry plan).tried start all) = some (.ok r) := by
    intro cs all hthins hall
    refine exists_scan (Quarry.tried_thins hthins start) (fun x hx => ?_) (fun x hx => ?_) longest
    · have hx := hwithin x (hall x (Quarry.mem_of_mem_tried hx))
      exact hreturns x hx.1 hx.2
    · have hx := hwithin x (hall x (Quarry.mem_of_mem_tried hx))
      exact hnear x hx.1 hx.2
  have hup : (m.encoding.headsUp m.text hi lo).1 = List.range' lo (hi + 1 - lo) := by
    rw [he, Encoding.headsUp_ascii]
  have hdown : (m.encoding.headsDown m.text lo hi).1 = (List.range' lo (hi + 1 - lo)).reverse := by
    rw [he, Encoding.headsDown_ascii]
  have hadjust : m.encoding.leftAdjust m.text 0 hi = hi := by
    rw [he, Encoding.leftAdjust_ascii]
  rw [hadjust, hup, hdown]
  exact ⟨hscan (Quarry.forward_thins he) fun x => id,
    hscan (Quarry.backward_thins he) fun x => List.mem_reverse.1⟩

/-- 文字列 `bc` を飛ばしながら探す例。 -/
theorem scan_near_leaping :
    ∃ re m, Regex.compile { pattern := Pattern.ascii "a?bc", encoding := .ascii } = .ok re ∧
      m = re.matcher .unlimited .none #[0x78, 0x61, 0x62, 0x63, 0x62, 0x63] 0 ∧ m.encoding = .ascii ∧
      re.plan.finder = .leaping [0x62, 0x63] ∧ (∀ x, 0 ≤ x → x ≤ 4 → ∃ v, m.Returns x v) ∧
      (∀ x, 0 ≤ x → x ≤ 4 → ∀ length caps, m.Returns x ⟨some length, caps⟩ → (m.quarry re.plan).Near x) ∧
      (∃ n r, ∀ fuel ≥ n,
        m.scan fuel true ((m.quarry re.plan).tried none ((m.quarry re.plan).forward 4 0)) = some (.ok r) ∧
        m.scan fuel true ((m.quarry re.plan).tried none (m.encoding.headsUp m.text 4 0).1) = some (.ok r)) ∧
      ∃ n r, ∀ fuel ≥ n,
        m.scan fuel true ((m.quarry re.plan).tried none
          ((m.quarry re.plan).backward 0 (m.encoding.leftAdjust m.text 0 4))) = some (.ok r) ∧
        m.scan fuel true ((m.quarry re.plan).tried none
          (m.encoding.headsDown m.text 0 (m.encoding.leftAdjust m.text 0 4)).1) = some (.ok r) := by
  obtain ⟨re, h, hok⟩ := exists_ok
    (x := Regex.compile { pattern := Pattern.ascii "a?bc", encoding := .ascii })
    (p := fun re => re.plan.finder == .leaping [0x62, 0x63] && re.program.encoding == .ascii &&
      (List.range 5).all fun x =>
        (((re.matcher .unlimited .none #[0x78, 0x61, 0x62, 0x63, 0x62, 0x63] 0).matchAt 40 x).bind
          Result.toOption).isSome) (by decide +kernel)
  simp only [Bool.and_eq_true, beq_iff_eq] at hok
  obtain ⟨⟨hfinder, hcode⟩, hends⟩ := hok
  have he : (re.matcher .unlimited .none #[0x78, 0x61, 0x62, 0x63, 0x62, 0x63] 0).encoding = .ascii := hcode
  have hreturns : ∀ x, 0 ≤ x → x ≤ 4 → ∃ v,
      (re.matcher .unlimited .none #[0x78, 0x61, 0x62, 0x63, 0x62, 0x63] 0).Returns x v := fun x _ hx => by
    have hx := List.all_eq_true.1 hends x (List.mem_range.2 (by omega))
    obtain ⟨v, hv, -⟩ := exists_some_ok (p := fun _ => true) (by simpa [Option.any_true] using hx)
    exact ⟨v, 40, hv⟩
  have hnear : ∀ x, 0 ≤ x → x ≤ 4 → ∀ length caps,
      (re.matcher .unlimited .none #[0x78, 0x61, 0x62, 0x63, 0x62, 0x63] 0).Returns x ⟨some length, caps⟩ →
      ((re.matcher .unlimited .none #[0x78, 0x61, 0x62, 0x63, 0x62, 0x63] 0).quarry re.plan).Near x := by
    rintro x - - length caps ⟨fuel, hx⟩
    obtain ⟨t, -, -, hsound⟩ := Regex.succeeds_sound h rfl (by decide) ⟨length, caps, hx⟩
    exact hsound.near (by simp [hfinder])
  exact ⟨re, _, h, rfl, he, hfinder, hreturns, hnear, scan_near he re.plan hreturns hnear none true⟩

end Matcher
end MultibyteRegex

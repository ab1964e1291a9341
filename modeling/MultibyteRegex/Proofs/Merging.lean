import Mathlib.Algebra.Group.Nat.Defs
import Mathlib.Data.Fintype.Card
import MultibyteRegex.Proofs.Reading

/-!
# 文字の集まりを作る操作

区間の列は、どの順にどの区間を足しても、昇順で、隣り合う区間の間に抜けを持つ。そうした列は、同じ符号位置を表す列の
うちで最も短い。文字の集まりに符号位置の区間か種類を足すと、その文字だけが加わる。
-/

namespace MultibyteRegex

/-! ## 区間の列 -/

namespace CodeRange

/-- 昇順で、どの区間も空でなく、隣り合う区間の間に一つ以上の抜けがある。 -/
structure Spaced (rs : List CodeRange) : Prop where
  le : ∀ r ∈ rs, r.lo ≤ r.hi
  gap : rs.Pairwise (·.hi + 1 < ·.lo)

variable {r s : CodeRange} {rs : List CodeRange} {k code : Nat}

theorem contains_iff : r.contains code ↔ r.lo ≤ code ∧ code ≤ r.hi := by simp [contains]

namespace Spaced

theorem nil : Spaced [] := ⟨by simp, .nil⟩

theorem cons_iff : Spaced (r :: rs) ↔ r.lo ≤ r.hi ∧ (∀ s ∈ rs, r.hi + 1 < s.lo) ∧ Spaced rs :=
  ⟨fun h => ⟨h.le r List.mem_cons_self, (List.pairwise_cons.1 h.gap).1,
      fun s hs => h.le s (List.mem_cons_of_mem r hs), (List.pairwise_cons.1 h.gap).2⟩,
    fun ⟨hle, hgap, hrs⟩ => ⟨List.forall_mem_cons.2 ⟨hle, hrs.le⟩, List.pairwise_cons.2 ⟨hgap, hrs.gap⟩⟩⟩

theorem covers_eq (h : Spaced rs) (code : Nat) : covers rs code = rs.any (·.contains code) :=
  covers_eq_any (h.gap.imp fun hlt => Nat.lt_of_succ_lt hlt) code

/-- 抜けの後には、手前の区間の符号位置はない。 -/
theorem lo_le (h : Spaced (r :: rs)) : ∀ s ∈ r :: rs, r.lo ≤ s.lo := by
  obtain ⟨hle, hgap, -⟩ := cons_iff.1 h
  intro s hs
  rcases List.mem_cons.1 hs with rfl | hs
  · exact Nat.le_refl _
  · have := hgap s hs
    omega

end Spaced

/-- 足した区間も元の区間も `k` より後にあれば、まとめた区間もそうである。 -/
theorem lt_of_mem_insert (hr : k < r.lo) (hrs : ∀ s ∈ rs, k < s.lo) : ∀ s ∈ insert r rs, k < s.lo := by
  fun_induction insert r rs with
  | case1 => exact List.forall_mem_singleton.2 hr
  | case2 r s rest hlt ih =>
    obtain ⟨hs, hrest⟩ := List.forall_mem_cons.1 hrs
    exact List.forall_mem_cons.2 ⟨hs, ih hr hrest⟩
  | case3 r s rest _ hlt => exact List.forall_mem_cons.2 ⟨hr, hrs⟩
  | case4 r s rest _ _ ih =>
    obtain ⟨hs, hrest⟩ := List.forall_mem_cons.1 hrs
    exact ih (Nat.lt_min.2 ⟨hr, hs⟩) hrest

/-- 区間を足しても、間に抜けのある昇順のままである。 -/
theorem Spaced.insert (h : Spaced rs) (hr : r.lo ≤ r.hi) : Spaced (insert r rs) := by
  fun_induction CodeRange.insert r rs with
  | case1 => exact cons_iff.2 ⟨hr, by simp, nil⟩
  | case2 r s rest hlt ih =>
    obtain ⟨hs, hgap, hrest⟩ := cons_iff.1 h
    exact cons_iff.2 ⟨hs, lt_of_mem_insert hlt hgap, ih hrest hr⟩
  | case3 r s rest _ hlt =>
    refine cons_iff.2 ⟨hr, fun t ht => ?_, h⟩
    have := h.lo_le t ht
    omega
  | case4 r s rest _ _ ih =>
    obtain ⟨hs, -, hrest⟩ := cons_iff.1 h
    exact ih hrest (by dsimp only; omega)

/-- 足した区間と元の区間の符号位置だけが入る。重なるか隣り合う区間をまとめても、抜けは埋まらない。 -/
theorem any_insert (hrs : ∀ s ∈ rs, s.lo ≤ s.hi) (hr : r.lo ≤ r.hi) (code : Nat) :
    (insert r rs).any (·.contains code) = (r.contains code || rs.any (·.contains code)) := by
  fun_induction insert r rs with
  | case1 => simp
  | case2 r s rest hlt ih =>
    rw [List.any_cons, List.any_cons, ih (List.forall_mem_cons.1 hrs).2 hr, Bool.or_left_comm]
  | case3 => rfl
  | case4 r s rest hleft hright ih =>
    obtain ⟨hs, hrest⟩ := List.forall_mem_cons.1 hrs
    have hmerged : (CodeRange.mk (min r.lo s.lo) (max r.hi s.hi)).contains code =
        (r.contains code || s.contains code) := by
      rw [Bool.eq_iff_iff, Bool.or_eq_true, contains_iff, contains_iff, contains_iff]
      dsimp only
      omega
    rw [ih hrest (by dsimp only; omega), hmerged, List.any_cons, Bool.or_assoc]

theorem covers_insert (h : Spaced rs) (hr : r.lo ≤ r.hi) (code : Nat) :
    covers (insert r rs) code = (r.contains code || covers rs code) := by
  rw [(h.insert hr).covers_eq, h.covers_eq, any_insert h.le hr]

/-- 間に抜けのある列は、同じ符号位置を表す列のうちで最も短い。 -/
theorem Spaced.length_le (h : Spaced rs) {qs : List CodeRange}
    (hqs : ∀ code, rs.any (·.contains code) = qs.any (·.contains code)) : rs.length ≤ qs.length := by
  have hcover (i : Fin rs.length) : ∃ j : Fin qs.length, (qs.get j).contains (rs.get i).lo := by
    have hmem := List.get_mem rs i
    have hany : rs.any (·.contains (rs.get i).lo) :=
      List.any_eq_true.2 ⟨_, hmem, contains_iff.2 ⟨Nat.le_refl _, h.le _ hmem⟩⟩
    rw [hqs] at hany
    obtain ⟨q, hq, hcontains⟩ := List.any_eq_true.1 hany
    obtain ⟨j, rfl⟩ := List.mem_iff_get.1 hq
    exact ⟨j, hcontains⟩
  choose f hf using hcover
  have hgap : ∀ i j, i < j → (rs.get i).hi + 1 < (rs.get j).lo := List.pairwise_iff_get.1 h.gap
  -- 二つの区間の初めをともに含む区間は、間の抜けも含んでしまう。
  have hne (i j : Fin rs.length) (hij : i < j) : f i ≠ f j := by
    intro heq
    have hi := contains_iff.1 (hf i)
    have hj := contains_iff.1 (hf j)
    have hle := h.le _ (List.get_mem rs i)
    have hlt := hgap i j hij
    rw [← heq] at hj
    have hany : qs.any (·.contains ((rs.get i).hi + 1)) :=
      List.any_eq_true.2 ⟨_, List.get_mem qs (f i), contains_iff.2 (by omega)⟩
    rw [← hqs] at hany
    obtain ⟨r, hr, hcontains⟩ := List.any_eq_true.1 hany
    obtain ⟨k, rfl⟩ := List.mem_iff_get.1 hr
    have hk := contains_iff.1 hcontains
    rcases Nat.lt_trichotomy k i with hlt | heq | hlt
    · have := hgap k i hlt
      omega
    · rw [Fin.ext heq] at hk
      omega
    · have := hgap i k hlt
      omega
  have hinj : Function.Injective f := by
    intro i j heq
    rcases lt_trichotomy i j with hlt | rfl | hlt
    · exact absurd heq (hne i j hlt)
    · rfl
    · exact absurd heq.symm (hne j i hlt)
  simpa using Fintype.card_le_of_injective f hinj

end CodeRange

/-! ## 文字の符号位置 -/

namespace Encoding

variable {e : Encoding}

/-- 続きの一バイトごとに、符号位置は高々 `base` 倍になる。 -/
theorem foldl_code_lt (base : Nat) (value : UInt8 → Nat) (hvalue : ∀ b, value b < base) {code bound : Nat}
    (hcode : code < bound) (trail : List UInt8) :
    trail.foldl (fun code b => code * base + value b) code < bound * base ^ trail.length := by
  induction trail generalizing code bound with
  | nil => simpa using hcode
  | cons b trail ih =>
    have hnext : code * base + value b < bound * base := by
      have := hvalue b
      have := Nat.mul_le_mul_right base (Nat.succ_le_of_lt hcode)
      rw [Nat.succ_mul] at this
      omega
    rw [List.foldl_cons, List.length_cons, Nat.pow_succ', ← Nat.mul_assoc]
    exact ih hnext

/-- どのバイト列から読んだ符号位置も、書ける符号位置の最大を越えない。 -/
theorem decode_le_maxCode (e : Encoding) (bytes : List UInt8) : e.decode bytes ≤ e.maxCode := by
  cases bytes with
  | nil => exact Nat.zero_le _
  | cons lead rest =>
    have hlead := lead.toNat_lt
    have hwidth := e.width_le_maxWidth lead
    have hlen : (rest.take (e.width lead - 1)).length ≤ e.maxWidth - 1 := by
      rw [List.length_take]
      omega
    unfold decode
    dsimp only
    generalize rest.take (e.width lead - 1) = trail at hlen
    cases e with
    | ascii =>
      obtain rfl : trail = [] := List.eq_nil_of_length_eq_zero (Nat.le_zero.1 hlen)
      exact Nat.le_of_lt_succ hlead
    | eucJp | sjis =>
      have hcode := foldl_code_lt 256 UInt8.toNat UInt8.toNat_lt hlead trail
      have := Nat.pow_le_pow_right (n := 256) (by decide) hlen
      simp only [maxWidth, maxCode] at this ⊢
      omega
    | utf8 =>
      dsimp only
      split
      · exact Nat.le_trans (Nat.le_of_lt hlead) (by decide)
      · -- 先頭のバイトの残りのビットと、続きの 6 ビットずつを合わせても、31 ビットに収まる。
        have hbits : ∀ n ≤ 5, Nat.pow 2 (6 - n) * 64 ^ n ≤ 0x80000000 := by decide
        have hcode := foldl_code_lt 64 (·.toNat % 64) (fun b => Nat.mod_lt _ (by decide))
          (Nat.mod_lt lead.toNat (Nat.two_pow_pos (6 - trail.length))) trail
        exact Nat.le_of_lt_succ (Nat.lt_of_lt_of_le hcode (hbits _ hlen))

end Encoding

namespace CharClass

variable {e : Encoding} {c : CharClass} {code : Nat}

/-! ## 一つの操作 -/

theorem isSingle_lt (h : isSingle e code) : code < 0x100 := by
  cases e <;> simp [isSingle] at h <;> omega

theorem isSingle_of_lt (h : code < 0x80) : isSingle e code := by
  have hb : code.toUInt8.toNat < 0x80 := by
    simp
    omega
  cases e with
  | utf8 => simpa [isSingle] using h
  | _ =>
    simp [isSingle, Encoding.width_of_lt hb]
    omega

/-- 一バイトの符号化では、どの文字も集合で持つ。 -/
theorem isSingle_of_isSingleByte (he : e.isSingleByte) (h : code ≤ e.maxCode) : isSingle e code := by
  obtain rfl : e = .ascii := by simpa [Encoding.isSingleByte] using he
  simp only [Encoding.maxCode] at h
  simp [isSingle, Encoding.width]
  omega

theorem covers_addWide (h : CodeRange.Spaced c.ranges) (a b : Nat) :
    CodeRange.Spaced (c.addWide a b).ranges ∧ ∀ code, CodeRange.covers (c.addWide a b).ranges code =
      (decide (min a b ≤ code ∧ code ≤ max a b) || CodeRange.covers c.ranges code) := by
  have hle : min a b ≤ max a b := by omega
  refine ⟨h.insert hle, fun code => ?_⟩
  rw [addWide, CodeRange.covers_insert h hle, CodeRange.contains, Bool.decide_and]

theorem ranges_addRange (lo hi : Nat) : (c.addRange e lo hi).ranges =
    if !e.isSingleByte && max lo 0x80 ≤ hi then (c.addWide (max lo 0x80) hi).ranges else c.ranges := by
  unfold addRange
  dsimp only
  split <;> simp [addWide, addBytes]

theorem ranges_addKind (k : CharKind) (outside : Bool) : (c.addKind e k outside).ranges =
    if !e.isSingleByte && k.hasWide != outside then (c.addWide 0x80 maxCode).ranges else c.ranges := by
  unfold addKind
  dsimp only
  split <;> simp [addWide, addBytes]

theorem bytes_addRange (lo hi : Nat) (b : UInt8) : (c.addRange e lo hi).bytes.contains b =
    (c.bytes.contains b || (lo ≤ b.toNat && b.toNat ≤ hi && isSingle e b.toNat)) := by
  unfold addRange
  dsimp only
  split <;> simp [addWide, addBytes]

theorem bytes_addKind (k : CharKind) (outside : Bool) (b : UInt8) :
    (c.addKind e k outside).bytes.contains b =
      (c.bytes.contains b || (isSingle e b.toNat && e.hasKind b.toNat k != outside)) := by
  unfold addKind
  dsimp only
  split <;> simp [addWide, addBytes]

theorem negated_addRange (lo hi : Nat) : (c.addRange e lo hi).negated = c.negated := by
  unfold addRange
  dsimp only
  split <;> simp [addWide, addBytes]

theorem negated_addKind (k : CharKind) (outside : Bool) : (c.addKind e k outside).negated = c.negated := by
  unfold addKind
  dsimp only
  split <;> simp [addWide, addBytes]

/-- 否定を考えずに、その文字を持つか。 -/
def holds (c : CharClass) (e : Encoding) (code : Nat) : Bool :=
  if isSingle e code then c.bytes.contains code.toUInt8 else CodeRange.covers c.ranges code

theorem contains_eq_holds : c.contains e code = (c.holds e code != c.negated) := rfl

section

variable (h : CodeRange.Spaced c.ranges)
include h

theorem spaced_addRange (lo hi : Nat) : CodeRange.Spaced (c.addRange e lo hi).ranges := by
  rw [ranges_addRange]
  split
  · exact (covers_addWide h _ _).1
  · exact h

theorem spaced_addKind (k : CharKind) (outside : Bool) : CodeRange.Spaced (c.addKind e k outside).ranges := by
  rw [ranges_addKind]
  split
  · exact (covers_addWide h _ _).1
  · exact h

theorem covers_addRange (lo hi : Nat) : CodeRange.covers (c.addRange e lo hi).ranges code =
    (decide (!e.isSingleByte ∧ 0x80 ≤ code ∧ lo ≤ code ∧ code ≤ hi) || CodeRange.covers c.ranges code) := by
  rw [ranges_addRange]
  split
  · rename_i hwide
    simp only [Bool.and_eq_true, decide_eq_true_eq] at hwide
    rw [(covers_addWide h _ _).2]
    congr 2
    simp only [hwide.1, true_and, eq_iff_iff]
    omega
  · rename_i hnarrow
    simp only [Bool.and_eq_true, decide_eq_true_eq, not_and] at hnarrow
    have hout : ¬(!e.isSingleByte ∧ 0x80 ≤ code ∧ lo ≤ code ∧ code ≤ hi) := by
      rintro ⟨he, hle, hlo, hhi⟩
      have := hnarrow he
      omega
    rw [decide_eq_false hout, Bool.false_or]

theorem covers_addKind (k : CharKind) (outside : Bool) :
    CodeRange.covers (c.addKind e k outside).ranges code =
      (decide ((!e.isSingleByte) ∧ (k.hasWide != outside) ∧ 0x80 ≤ code ∧ code ≤ maxCode) ||
        CodeRange.covers c.ranges code) := by
  rw [ranges_addKind]
  split
  · rename_i hwide
    simp only [Bool.and_eq_true] at hwide
    rw [(covers_addWide h _ _).2]
    simp [hwide.1, hwide.2, maxCode]
  · rename_i hnarrow
    simp only [Bool.and_eq_true, not_and] at hnarrow
    have hout : ¬((!e.isSingleByte) ∧ (k.hasWide != outside) ∧ 0x80 ≤ code ∧ code ≤ maxCode) := by
      rintro ⟨he, hk, -⟩
      exact hnarrow he hk
    rw [decide_eq_false hout, Bool.false_or]

/-- 区間を足すと、その中の文字だけが加わる。 -/
theorem holds_addRange (hcode : code ≤ e.maxCode) (lo hi : Nat) :
    (c.addRange e lo hi).holds e code = (c.holds e code || (lo ≤ code && code ≤ hi)) := by
  unfold holds
  by_cases hs : isSingle e code
  · have hb : code.toUInt8.toNat = code := by
      have := isSingle_lt hs
      simp
      omega
    rw [if_pos hs, if_pos hs, bytes_addRange, hb, hs, Bool.and_true]
  · have he : e.isSingleByte = false := by
      cases hb : e.isSingleByte
      · rfl
      · exact absurd (isSingle_of_isSingleByte hb hcode) hs
    have hle : 0x80 ≤ code := Nat.le_of_not_lt fun hlt => hs (isSingle_of_lt hlt)
    rw [if_neg hs, if_neg hs, covers_addRange h, Bool.or_comm]
    simp [he, hle]

/-- 種類を足すと、その種類の文字だけが、または、その種類でない文字だけが加わる。 -/
theorem holds_addKind (hcode : code ≤ e.maxCode) (k : CharKind) (outside : Bool) :
    (c.addKind e k outside).holds e code = (c.holds e code || (e.hasKind code k != outside)) := by
  unfold holds
  by_cases hs : isSingle e code
  · have hb : code.toUInt8.toNat = code := by
      have := isSingle_lt hs
      simp
      omega
    rw [if_pos hs, if_pos hs, bytes_addKind, hb, hs, Bool.true_and]
  · have he : e.isSingleByte = false := by
      cases hb : e.isSingleByte
      · rfl
      · exact absurd (isSingle_of_isSingleByte hb hcode) hs
    have hle : 0x80 ≤ code := Nat.le_of_not_lt fun hlt => hs (isSingle_of_lt hlt)
    have hmax : code ≤ maxCode := by
      cases e <;> simp only [Encoding.maxCode, maxCode] at hcode ⊢ <;> omega
    have hkind : e.hasKind code k = k.hasWide := by
      simp [Encoding.hasKind, he, Nat.not_lt.2 hle]
    rw [if_neg hs, if_neg hs, covers_addKind h, Bool.or_comm, hkind]
    cases k.hasWide <;> cases outside <;> simp [he, hle, hmax]

end

/-! ## 操作の列 -/

/-- 文字の集まりに加える操作。 -/
inductive Step
  | code (code : Nat)
  | range (lo hi : Nat)
  /-- 端の順を問わない、多バイトの区間。 -/
  | wide (a b : Nat)
  | kind (k : CharKind) (outside : Bool)
  /-- 同じとみなす文字について閉じる。 -/
  | fold (t : FoldTable)

def apply (e : Encoding) (c : CharClass) : Step → CharClass
  | .code code => c.addCode e code
  | .range lo hi => c.addRange e lo hi
  | .wide a b => c.addWide a b
  | .kind k outside => c.addKind e k outside
  | .fold t => c.closeFold t

/-- 空の集まりに、操作を順に加えたもの。 -/
def build (e : Encoding) (steps : List Step) : CharClass := steps.foldl (apply e) empty

/-- 操作が多バイトの部分に加える符号位置。一バイトの符号化で加わるのは、多バイトの区間だけである。 -/
def Step.Widens (e : Encoding) : Step → Nat → Prop
  | .code code, n => (!e.isSingleByte) ∧ 0x80 ≤ n ∧ n = code
  | .range lo hi, n => (!e.isSingleByte) ∧ 0x80 ≤ n ∧ lo ≤ n ∧ n ≤ hi
  | .wide a b, n => a ≤ n ∧ n ≤ b ∨ b ≤ n ∧ n ≤ a
  | .kind k outside, n => (!e.isSingleByte) ∧ (k.hasWide != outside) ∧ 0x80 ≤ n ∧ n ≤ maxCode
  | .fold _, _ => False

theorem spaced_apply (h : CodeRange.Spaced c.ranges) (s : Step) : CodeRange.Spaced (c.apply e s).ranges := by
  cases s with
  | code code => exact spaced_addRange h code code
  | range lo hi => exact spaced_addRange h lo hi
  | wide a b => exact (covers_addWide h a b).1
  | kind k outside => exact spaced_addKind h k outside
  | fold t => simpa only [apply, closeFold] using h

theorem covers_apply (h : CodeRange.Spaced c.ranges) (s : Step) (n : Nat) :
    CodeRange.covers (c.apply e s).ranges n ↔ CodeRange.covers c.ranges n ∨ s.Widens e n := by
  cases s with
  | code code =>
    simp only [apply, addCode, covers_addRange h, Step.Widens, Bool.or_eq_true, decide_eq_true_eq]
    grind
  | range lo hi =>
    simp only [apply, covers_addRange h, Step.Widens, Bool.or_eq_true, decide_eq_true_eq]
    exact or_comm
  | wide a b =>
    simp only [apply, (covers_addWide h a b).2, Step.Widens, Bool.or_eq_true, decide_eq_true_eq]
    grind
  | kind k outside =>
    simp only [apply, covers_addKind h, Step.Widens, Bool.or_eq_true, decide_eq_true_eq]
    exact or_comm
  | fold t => simp [apply, closeFold, Step.Widens]

theorem negated_apply (s : Step) : (c.apply e s).negated = c.negated := by
  cases s with
  | code code => exact negated_addRange code code
  | range lo hi => exact negated_addRange lo hi
  | kind k outside => exact negated_addKind k outside
  | wide a b => simp only [apply, addWide]
  | fold t => simp only [apply, closeFold]

theorem build_append (steps : List Step) (s : Step) : build e (steps ++ [s]) = (build e steps).apply e s := by
  simp [build]

theorem negated_build (steps : List Step) : (build e steps).negated = false := by
  induction steps using List.reverseRecOn with
  | nil => rfl
  | append_singleton steps s ih => rw [build_append, negated_apply, ih]

/-- 操作をどう並べても、区間の列は間に抜けのある昇順で、多バイトの部分に加えた符号位置だけを持つ。 -/
theorem spaced_build (e : Encoding) (steps : List Step) : CodeRange.Spaced (build e steps).ranges ∧
    ∀ n, CodeRange.covers (build e steps).ranges n ↔ ∃ s ∈ steps, s.Widens e n := by
  induction steps using List.reverseRecOn with
  | nil =>
    have hranges : (build e []).ranges = [] := by simp [build, empty]
    rw [hranges]
    exact ⟨.nil, fun n => by simp [CodeRange.covers]⟩
  | append_singleton steps s ih =>
    rw [build_append]
    refine ⟨spaced_apply ih.1 s, fun n => ?_⟩
    rw [covers_apply ih.1, ih.2]
    simp [or_and_right, exists_or]

/-- どの操作の後でも、区間の列は保たれ、次に足す区間や種類の文字だけが加わる。 -/
theorem contains_build (e : Encoding) (steps : List Step) :
    CodeRange.Spaced (build e steps).ranges ∧
    (∀ n, CodeRange.covers (build e steps).ranges n ↔ ∃ s ∈ steps, s.Widens e n) ∧
    ∀ bytes, let code := e.decode bytes
      (∀ lo hi, ((build e steps).apply e (.range lo hi)).contains e code =
        ((build e steps).contains e code || (lo ≤ code && code ≤ hi))) ∧
      ∀ k outside, ((build e steps).apply e (.kind k outside)).contains e code =
        ((build e steps).contains e code || (e.hasKind code k != outside)) := by
  obtain ⟨hspaced, hcovers⟩ := spaced_build e steps
  have hneg := negated_build (e := e) steps
  refine ⟨hspaced, hcovers, fun bytes => ?_⟩
  have hcode := e.decode_le_maxCode bytes
  constructor
  · intro lo hi
    rw [contains_eq_holds, contains_eq_holds, negated_apply, hneg, apply, holds_addRange hspaced hcode]
    simp
  · intro k outside
    rw [contains_eq_holds, contains_eq_holds, negated_apply, hneg, apply, holds_addKind hspaced hcode]
    simp

/-- 隣り合う区間は、端の順にも足す順にもよらず、一つになる。 -/
example : (build .utf8 [.wide 0x3050 0x3060, .wide 0x3000 0x3010, .wide 0x3020 0x3011]).ranges =
    [⟨0x3000, 0x3020⟩, ⟨0x3050, 0x3060⟩] := by
  decide +kernel

end CharClass
end MultibyteRegex

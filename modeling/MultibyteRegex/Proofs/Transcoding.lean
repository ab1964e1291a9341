import MultibyteRegex.Proofs.Merging

/-!
# 符号位置と文字の行き来

符号位置を書くバイト数は値の大きさで、読むバイト数は先頭バイトで決まる。UTF-8 では二つの表がどの値でも合う。EUC-JP と
Shift_JIS は上限しか調べないので、書いた先頭バイトが書いた長さを求めない符号位置があり、そこだけで読み戻せない。
-/

namespace MultibyteRegex
namespace Encoding

variable {e : Encoding} {code n k q : Nat}

/-! ## 書き足し -/

/-- 一文字を `buffer` の末尾に書き足す。 -/
def write (e : Encoding) (code : Nat) : ExceptT ParseError (StateM (List UInt8)) Unit := do
  let bytes ← liftM (e.encode code)
  bytes.forM fun b => modify (· ++ [b])

theorem forM_push (bytes buffer : List UInt8) :
    (bytes.forM fun b => modify (· ++ [b]) : ExceptT ParseError (StateM (List UInt8)) Unit) buffer =
      (.ok (), buffer ++ bytes) := by
  induction bytes generalizing buffer with
  | nil =>
    rw [List.append_nil]
    rfl
  | cons b bytes ih => exact (ih (buffer ++ [b])).trans (by simp)

theorem write_eq (e : Encoding) (code : Nat) (buffer : List UInt8) : e.write code buffer =
    match e.encode code with
    | .ok bytes => (.ok (), buffer ++ bytes)
    | .error err => (.error err, buffer) := by
  unfold write
  cases e.encode code with
  | ok bytes => exact forM_push bytes buffer
  | error err => rfl

/-! ## 桁の並び -/

theorem foldl_digits {base : Nat} {digits : Nat → List UInt8} (value : UInt8 → Nat) (digit : Nat → UInt8)
    (hnil : digits 0 = []) (hcons : ∀ n, digits (n + 1) = digit n :: digits n)
    (hdigit : ∀ n, value (digit n) = code / base ^ n % base) (acc n : Nat) :
    (digits n).foldl (fun code b => code * base + value b) acc = acc * base ^ n + code % base ^ n := by
  induction n generalizing acc with
  | zero => simp [hnil, Nat.mod_one]
  | succ n ih =>
    rw [hcons, List.foldl_cons, ih, hdigit, Nat.mod_pow_succ, Nat.pow_succ, Nat.add_mul]
    grind

theorem length_bigEndian (code n : Nat) : (bigEndian code n).length = n := by
  induction n with
  | zero => rfl
  | succ n ih => rw [bigEndian, List.length_cons, ih]

theorem length_utf8Trail (code n : Nat) : (utf8Trail code n).length = n := by
  induction n with
  | zero => rfl
  | succ n ih => rw [utf8Trail, List.length_cons, ih]

theorem foldl_bigEndian (acc code n : Nat) :
    (bigEndian code n).foldl (fun code b => code * 256 + b.toNat) acc = acc * 256 ^ n + code % 256 ^ n :=
  foldl_digits (·.toNat) (fun n => (code / Nat.pow 256 n).toUInt8) rfl (fun _ => rfl) (fun n => by simp) acc n

theorem foldl_utf8Trail (acc code n : Nat) :
    (utf8Trail code n).foldl (fun code b => code * 64 + b.toNat % 64) acc = acc * 64 ^ n + code % 64 ^ n :=
  foldl_digits (·.toNat % 64) (fun n => (0x80 + code / Nat.pow 64 n % 64).toUInt8) rfl (fun _ => rfl)
    (fun n => by simp; omega) acc n

theorem take_bigEndian (code : Nat) (h : k ≤ n) :
    (bigEndian code n).take k = bigEndian (code / 256 ^ (n - k)) k := by
  induction n generalizing k with
  | zero =>
    obtain rfl : k = 0 := by omega
    rfl
  | succ n ih =>
    cases k with
    | zero => rfl
    | succ k =>
      have hn : n = n - k + k := by omega
      rw [bigEndian, bigEndian, List.take_succ_cons, ih (by omega), Nat.add_sub_add_right, Nat.pow_eq, Nat.pow_eq,
        Nat.div_div_eq_div_mul, ← Nat.pow_add, ← hn]

/-! ## UTF-8 以外 -/

theorem codeLength_bigEndian (he : e ≠ .utf8) (h : code ≤ e.maxCode) :
    0 < e.codeLength code ∧ code < 256 ^ e.codeLength code ∧ (1 < e.codeLength code → 0 < code) := by
  cases e with
  | utf8 => exact absurd rfl he
  | ascii =>
    simp only [maxCode] at h
    simp only [codeLength]
    omega
  | _ =>
    simp only [maxCode] at h
    simp only [codeLength]
    repeat' split
    all_goals omega

/-- 先頭バイトの求める長さまでを読むので、先頭バイトの求める長さが短いと下位の桁が落ちる。 -/
theorem decode_bigEndian (he : e ≠ .utf8) (hn : 0 < n) (hcode : code < 256 ^ n) : ∃ lead trail,
    bigEndian code n = lead :: trail ∧ e.decode (lead :: trail) = code / 256 ^ (n - min (e.width lead) n) := by
  obtain ⟨n, rfl⟩ : ∃ k, n = k + 1 := ⟨n - 1, by omega⟩
  let lead := (code / Nat.pow 256 n).toUInt8
  have hwidth := e.width_pos lead
  have hbytes : bigEndian code (n + 1) = lead :: bigEndian code n := rfl
  generalize hw : min (e.width lead) (n + 1) = w
  have hle : w ≤ n + 1 := by omega
  -- 読むのは、求める長さと並んでいる長さの、小さいほうの桁である。
  have hread : (bigEndian code (n + 1)).take w = lead :: (bigEndian code n).take (e.width lead - 1) := by
    obtain ⟨k, rfl⟩ : ∃ k, w = k + 1 := ⟨w - 1, by omega⟩
    rw [hbytes, List.take_succ_cons, List.cons_inj_right, List.take_eq_take_iff, length_bigEndian]
    omega
  have hlt : code / 256 ^ (n + 1 - w) < 256 ^ w := by
    rwa [Nat.div_lt_iff_lt_mul (Nat.pow_pos (by decide)), ← Nat.pow_add, Nat.add_sub_cancel' hle]
  have hfold := foldl_bigEndian 0 (code / 256 ^ (n + 1 - w)) w
  rw [← take_bigEndian code hle, hread, List.foldl_cons, Nat.mod_eq_of_lt hlt, Nat.zero_mul, Nat.zero_add,
    Nat.zero_mul, Nat.zero_add] at hfold
  refine ⟨lead, bigEndian code n, hbytes, ?_⟩
  rw [hw]
  unfold decode
  cases e with
  | utf8 => exact absurd rfl he
  | _ => exact hfold

/-! ## UTF-8 -/

/-- 先頭バイトに入る上位の桁は、長さの印の下に収まる。 -/
theorem codeLength_utf8 (h : code ≤ maxCode .utf8) : (codeLength .utf8 code = 1 ∧ code < 0x80) ∨
    ∃ k < 5, codeLength .utf8 code = k + 2 ∧ code < 2 ^ (5 - k) * 64 ^ (k + 1) := by
  simp only [maxCode] at h
  simp only [codeLength]
  repeat' split
  · exact .inl ⟨rfl, by omega⟩
  · exact .inr ⟨0, by decide, rfl, by omega⟩
  · exact .inr ⟨1, by decide, rfl, by omega⟩
  · exact .inr ⟨2, by decide, rfl, by omega⟩
  · exact .inr ⟨3, by decide, rfl, by omega⟩
  · exact .inr ⟨4, by decide, rfl, by omega⟩

/-- 長さの印を付けた先頭バイトは、その長さを求め、印を外すと入れた桁に戻る。 -/
theorem utf8_lead (hk : k < 5) (hq : q < 2 ^ (5 - k)) :
    Encoding.utf8.width (256 - Nat.pow 2 (6 - k) + q).toUInt8 = k + 2 ∧
      (256 - Nat.pow 2 (6 - k) + q).toUInt8.toNat % Nat.pow 2 (5 - k) = q := by
  have hcases : k = 0 ∨ k = 1 ∨ k = 2 ∨ k = 3 ∨ k = 4 := by omega
  rcases hcases with rfl | rfl | rfl | rfl | rfl
  all_goals
    simp only [width, UInt8.lt_iff_toNat_lt, UInt8.reduceToNat, Nat.toUInt8_eq, UInt8.toNat_ofNat', Nat.pow_eq,
      Nat.reduceSub, Nat.reduceAdd, Nat.reducePow] at hq ⊢
    grind

theorem decode_utf8Bytes (h : code ≤ maxCode .utf8) : ∃ lead trail,
    utf8Bytes code (codeLength .utf8 code - 1) = lead :: trail ∧ (lead :: trail).length = codeLength .utf8 code ∧
      Encoding.utf8.width lead = codeLength .utf8 code ∧ Encoding.utf8.decode (lead :: trail) = code := by
  rcases codeLength_utf8 h with ⟨hone, hlt⟩ | ⟨k, hk, hmany, hlt⟩
  · have hb : code.toUInt8.toNat = code := by
      rw [Nat.toUInt8_eq, UInt8.toNat_ofNat']
      omega
    have hwidth : Encoding.utf8.width code.toUInt8 = 1 := width_of_lt (by omega)
    rw [hone]
    exact ⟨code.toUInt8, [], rfl, rfl, hwidth, by simp [decode, hb]⟩
  · have hq : code / 64 ^ (k + 1) < 2 ^ (5 - k) := (Nat.div_lt_iff_lt_mul (Nat.pow_pos (by decide))).2 hlt
    obtain ⟨hwidth, hlead⟩ := utf8_lead hk hq
    have hlength := length_utf8Trail code (k + 1)
    have htake : (utf8Trail code (k + 1)).take (k + 2 - 1) = utf8Trail code (k + 1) :=
      List.take_of_length_le (Nat.le_of_eq hlength)
    have hne : (utf8Trail code (k + 1)).isEmpty = false := rfl
    have hfold := foldl_utf8Trail (code / 64 ^ (k + 1)) code (k + 1)
    rw [Nat.div_add_mod'] at hfold
    rw [hmany]
    refine ⟨_, _, rfl, by rw [List.length_cons, hlength], hwidth, ?_⟩
    unfold decode
    simp only [Nat.pow_eq] at hwidth hlead ⊢
    rw [hwidth, htake, hne]
    simp only [Bool.false_eq_true, if_false, hlength, Nat.reduceSubDiff, hlead, hfold]

/-! ## 読み戻し -/

/-- 書いたバイト列は、先頭バイトが求める長さに足りるとき、そのときに限り、元の符号位置に読み戻せる。 -/
theorem encode_decode (h : code ≤ e.maxCode) : ∃ lead trail,
    e.encode code = .ok (lead :: trail) ∧ (lead :: trail).length = e.codeLength code ∧
      (e.decode (lead :: trail) = code ↔ e.codeLength code ≤ e.width lead) ∧
      (e.isLeadDistinguishable → e.codeLength code ≤ e.width lead) := by
  unfold encode
  rw [if_neg (Nat.not_lt.2 h)]
  by_cases he : e = .utf8
  · subst he
    obtain ⟨lead, trail, hbytes, hlength, hwidth, hdecode⟩ := decode_utf8Bytes h
    have hle := Nat.le_of_eq hwidth.symm
    exact ⟨lead, trail, by rw [if_pos rfl, hbytes], hlength, iff_of_true hdecode hle, fun _ => hle⟩
  · obtain ⟨hpos, hlt, hcode⟩ := codeLength_bigEndian he h
    obtain ⟨lead, trail, hbytes, hdecode⟩ := decode_bigEndian he hpos hlt
    refine ⟨lead, trail, by rw [if_neg he, hbytes], by rw [← hbytes, length_bigEndian], ?_, fun hlead => ?_⟩
    · rw [hdecode]
      refine ⟨fun heq => Nat.le_of_not_lt fun hshort => ?_, fun hle => ?_⟩
      · -- 桁が落ちると、値は必ず小さくなる。
        have hwidth := e.width_pos lead
        rw [Nat.min_eq_left (Nat.le_of_lt hshort)] at heq
        have hdrop := Nat.div_lt_self (hcode (by omega))
          (Nat.one_lt_pow (Nat.sub_ne_zero_of_lt hshort) (by decide : 1 < 256))
        omega
      · rw [Nat.min_eq_right hle, Nat.sub_self, Nat.pow_zero, Nat.div_one]
    · obtain rfl : e = .ascii := by simpa [isLeadDistinguishable, he] using hlead
      exact width_pos .ascii lead

/-- 符号位置を書き足す操作。大きすぎる符号位置では何も書かない。書いたバイト列が一文字として読め、元の符号位置に
戻るのは、先頭バイトの求める長さが書いた長さに足りるとき、そのときに限る。 -/
theorem write_decode (e : Encoding) (code : Nat) (buffer : List UInt8) :
    (e.maxCode < code → e.write code buffer = (.error .wideCharTooBig, buffer)) ∧
    (code ≤ e.maxCode → ∃ lead trail, e.write code buffer = (.ok (), buffer ++ lead :: trail) ∧
      (lead :: trail).length = e.codeLength code ∧ e.encodeLead code = .ok lead ∧
      (e.lengthAt (lead :: trail).toArray 0 = e.codeLength code ↔ e.codeLength code ≤ e.width lead) ∧
      (e.decode (lead :: trail) = code ↔ e.codeLength code ≤ e.width lead) ∧
      (e.isLeadDistinguishable → e.codeLength code ≤ e.width lead)) := by
  rw [write_eq]
  refine ⟨fun hbig => ?_, fun hle => ?_⟩
  · rw [encode, if_pos hbig]
  · obtain ⟨lead, trail, hencode, hlength, hdecode, hwidth⟩ := encode_decode hle
    have hat : e.lengthAt (lead :: trail).toArray 0 = min (e.width lead) (lead :: trail).length := rfl
    rw [encodeLead, hencode]
    refine ⟨lead, trail, rfl, hlength, rfl, ?_, hdecode, hwidth⟩
    rw [hat, hlength]
    omega

/-- 0x4142 は二バイトに書かれるが、先頭の 0x41 は一バイトの文字であり、読むと 0x41 になる。 -/
theorem write_two_chars :
    Encoding.sjis.write 0x4142 [] = (.ok (), [0x41, 0x42]) ∧ Encoding.sjis.codeLength 0x4142 = 2 ∧
      Encoding.sjis.lengthAt #[0x41, 0x42] 0 = 1 ∧ Encoding.sjis.decode [0x41, 0x42] = 0x41 :=
  ⟨rfl, rfl, rfl, rfl⟩

end Encoding
end MultibyteRegex

import Mathlib.Data.List.TakeWhile
import Colama.Qemu.Json.LexerSpec

namespace Colama.Qemu.Json

/-- What the reader makes of some characters of a string. -/
def Reads (u out : List Byte) : Prop :=
  ∀ rest, unescape (chr '"') (u ++ rest) = (unescape (chr '"') rest).map (out ++ ·)

/-- There is no character beyond U+FFFF: in UTF-8 its first byte is `0xF0` or more. -/
def Narrow (s : List Byte) : Prop := ∀ b ∈ s, b < 0xF0

theorem Reads.nil : Reads [] [] := fun rest => by simp

theorem Reads.append {u v out out' : List Byte} (hu : Reads u out) (hv : Reads v out') :
    Reads (u ++ v) (out ++ out') := by
  intro rest
  rw [List.append_assoc, hu, hv, Option.map_map]
  congr 1
  funext tail
  simp

theorem reads_byte {b : Byte} (hzero : b ≠ 0) (hquote : b ≠ chr '"') (hback : b ≠ chr '\\') : Reads [b] [b] := by
  intro rest
  rw [List.singleton_append, unescape.eq_def]
  simp [hzero, hquote, hback]

theorem reads_escape {e c : Byte} (hu : e ≠ chr 'u') (he : simpleEscape e = some c) : Reads [chr '\\', e] [c] := by
  intro rest
  have hback : ¬ (chr '\\' = 0 ∨ chr '\\' = chr '"') := by decide
  rw [List.cons_append, List.singleton_append, unescape.eq_def]
  simp [hback, hu, he]

theorem hex2decimal_hexDigit {n : ℕ} (h : n < 16) : hex2decimal (hexDigit n) = n := by
  interval_cases n <;> decide

theorem reads_hex {a b c d : ℕ} (ha : a < 16) (hb : b < 16) (hc : c < 16) (hd : d < 16) :
    Reads [chr '\\', chr 'u', hexDigit a, hexDigit b, hexDigit c, hexDigit d]
      (cString (wcharToUtf8 (a <<< 12 ||| b <<< 8 ||| c <<< 4 ||| d))) := by
  intro rest
  have hback : ¬ (chr '\\' = 0 ∨ chr '\\' = chr '"') := by decide
  rw [List.cons_append, unescape.eq_def]
  simp [hback, hexDigit_isHex ha, hexDigit_isHex hb, hexDigit_isHex hc, hexDigit_isHex hd, unicodeChar,
    hex2decimal_hexDigit ha, hex2decimal_hexDigit hb, hex2decimal_hexDigit hc, hex2decimal_hexDigit hd]

theorem or_eq_add {k low : ℕ} (h : low < 2 ^ k) (high : ℕ) : high <<< k ||| low = high * 2 ^ k + low := by
  rw [Nat.shiftLeft_eq, Nat.mul_comm, Nat.two_pow_add_eq_or_of_lt h]

/-- The four digits of a code unit. -/
theorem nibbles_eq {v : ℕ} (h : v < 2 ^ 16) :
    (v / 16 ^ 3 % 16) <<< 12 ||| (v / 16 ^ 2 % 16) <<< 8 ||| (v / 16 ^ 1 % 16) <<< 4 ||| v / 16 ^ 0 % 16 = v := by
  have hc : (v / 16 ^ 1 % 16) <<< 4 ||| v / 16 ^ 0 % 16 = v % 256 := by
    rw [or_eq_add (by omega)]
    omega
  have hb : (v / 16 ^ 2 % 16) <<< 8 ||| v % 256 = v % 4096 := by
    rw [or_eq_add (by omega)]
    omega
  rw [Nat.or_assoc, Nat.or_assoc, hc, hb, or_eq_add (by omega)]
  omega

theorem reads_escapeU {v : ℕ} (h : v < 2 ^ 16) : Reads (escapeU v) (cString (wcharToUtf8 v)) := by
  obtain ⟨m, hm, hform⟩ := escapeU_eq v
  rw [hm h] at hform
  have hreads := reads_hex (Nat.mod_lt (v / 16 ^ 3) (by decide)) (Nat.mod_lt (v / 16 ^ 2) (by decide))
    (Nat.mod_lt (v / 16 ^ 1) (by decide)) (Nat.mod_lt (v / 16 ^ 0) (by decide))
  rw [nibbles_eq h] at hreads
  rw [hform]
  exact hreads

theorem narrow_wcharToUtf8 (w : ℕ) : Narrow (cString (wcharToUtf8 w)) := by
  have hone : ∀ x < 128, UInt8.ofNat x < 0xF0 := by decide
  have htwo : ∀ x < 32, UInt8.ofNat (0xC0 ||| x) < 0xF0 := by decide
  have hthree : ∀ x < 16, UInt8.ofNat (0xE0 ||| x) < 0xF0 := by decide
  have hnext : ∀ x < 64, UInt8.ofNat (0x80 ||| x) < 0xF0 := by decide
  have hmask : ∀ n k, n &&& (2 ^ k - 1) < 2 ^ k := fun n k => by
    rw [Nat.and_two_pow_sub_one_eq_mod]
    exact Nat.mod_lt _ (by positivity)
  intro b hb
  have hb' := (List.takeWhile_prefix _).subset hb
  unfold wcharToUtf8 at hb'
  split_ifs at hb'
  · rw [List.mem_singleton.mp hb']
    exact hone _ (hmask _ 7)
  · simp only [List.mem_cons, List.not_mem_nil, or_false] at hb'
    rcases hb' with rfl | rfl
    · exact htwo _ (hmask _ 5)
    · exact hnext _ (hmask _ 6)
  · simp only [List.mem_cons, List.not_mem_nil, or_false] at hb'
    rcases hb' with rfl | rfl | rfl
    · exact hthree _ (hmask _ 4)
    · exact hnext _ (hmask _ 6)
    · exact hnext _ (hmask _ 6)

/-- Whatever is escaped is read as something narrow. -/
theorem exists_reads_escapeU (v : ℕ) : ∃ out, Reads (escapeU v) out ∧ Narrow out := by
  obtain ⟨m, -, hform⟩ := escapeU_eq v
  rw [hform]
  exact ⟨_, reads_hex (Nat.mod_lt _ (by decide)) (Nat.mod_lt _ (by decide)) (Nat.mod_lt _ (by decide))
    (Nat.mod_lt _ (by decide)), narrow_wcharToUtf8 _⟩

theorem exists_ofNat (b : Byte) : ∃ n < 256, b = UInt8.ofNat n := ⟨b.toNat, b.toNat_lt, b.ofNat_toNat.symm⟩

theorem exists_ascii {b : Byte} (h : b < 0x80) : ∃ n < 128, b = UInt8.ofNat n :=
  ⟨b.toNat, UInt8.lt_iff_toNat_lt.mp h, b.ofNat_toNat.symm⟩

theorem signed_ascii {b : Byte} (h : b < 0x80) : signed b = b.toNat := by
  have hall : ∀ n < 128, signed (UInt8.ofNat n) = (UInt8.ofNat n).toNat := by decide
  obtain ⟨n, hn, rfl⟩ := exists_ascii h
  exact hall n hn

theorem signed_neg {b : Byte} (h : ¬ b < 0x80) : signed b ≤ 0x1F := by
  have hall : ∀ n < 256, ¬ UInt8.ofNat n < 0x80 → signed (UInt8.ofNat n) ≤ 0x1F := by decide +kernel
  obtain ⟨n, hn, rfl⟩ := exists_ofNat b
  exact hall n hn h

theorem cString_eq {s : List Byte} (h : 0 ∉ s) : cString s = s := by
  rw [cString, List.takeWhile_eq_self_iff]
  intro b hb
  rw [decide_eq_true_iff]
  rintro rfl
  exact h hb

theorem cString_two {a b : Byte} (ha : a ≠ 0) (hb : b ≠ 0) : cString [a, b] = [a, b] :=
  cString_eq (by simp [ha.symm, hb.symm])

theorem cString_three {a b c : Byte} (ha : a ≠ 0) (hb : b ≠ 0) (hc : c ≠ 0) : cString [a, b, c] = [a, b, c] :=
  cString_eq (by simp [ha.symm, hb.symm, hc.symm])

/-- What is written for an ASCII byte is read as the byte. -/
theorem reads_escapeByte {b : Byte} (hzero : b ≠ 0) (hascii : b < 0x80) : Reads (escapeByte b) [b] := by
  unfold escapeByte
  split_ifs with h₁ h₂ h₃ h₄ h₅ h₆ h₇ hcontrol
  · exact h₁ ▸ reads_escape (e := chr '"') (by decide) (by decide)
  · exact h₂ ▸ reads_escape (e := chr '\\') (by decide) (by decide)
  · exact h₃ ▸ reads_escape (e := chr 'b') (by decide) (by decide)
  · exact h₄ ▸ reads_escape (e := chr 'f') (by decide) (by decide)
  · exact h₅ ▸ reads_escape (e := chr 'n') (by decide) (by decide)
  · exact h₆ ▸ reads_escape (e := chr 'r') (by decide) (by decide)
  · exact h₇ ▸ reads_escape (e := chr 't') (by decide) (by decide)
  · have hsigned := signed_ascii hascii
    have hlow : b.toNat < 2 ^ 16 := by omega
    have hutf : cString (wcharToUtf8 b.toNat) = [b] := by
      have hone : wcharToUtf8 b.toNat = [b] := by
        rw [wcharToUtf8, if_pos (by omega), Nat.and_two_pow_sub_one_eq_mod b.toNat 7, Nat.mod_eq_of_lt (by omega),
          UInt8.ofNat_toNat]
      rw [hone, cString_eq (by simpa using hzero.symm)]
    have hchar : (signed b % 2 ^ 32).toNat = b.toNat := by omega
    rw [hchar]
    exact hutf ▸ reads_escapeU hlow
  · exact reads_byte hzero h₁ h₂

theorem exists_reads_escapeByte {b : Byte} (hzero : b ≠ 0) : ∃ out, Reads (escapeByte b) out ∧ Narrow out := by
  by_cases hascii : b < 0x80
  · refine ⟨[b], reads_escapeByte hzero hascii, fun c hc => ?_⟩
    rw [List.mem_singleton.mp hc]
    exact UInt8.lt_trans hascii (by decide)
  · have hne : ∀ c : Byte, c < 0x80 → b ≠ c := by
      rintro c hc rfl
      exact hascii hc
    have hescape : escapeByte b = escapeU (signed b % 2 ^ 32).toNat := by
      unfold escapeByte
      rw [if_neg (hne _ (by decide)), if_neg (hne _ (by decide)), if_neg (hne _ (by decide)),
        if_neg (hne _ (by decide)), if_neg (hne _ (by decide)), if_neg (hne _ (by decide)),
        if_neg (hne _ (by decide)), if_pos (signed_neg hascii)]
    rw [hescape]
    exact exists_reads_escapeU _

/-- Every string that is written is read as something narrow. -/
theorem exists_reads_escapeString {s : List Byte} (h : 0 ∉ s) : ∃ out, Reads (escapeString s) out ∧ Narrow out := by
  have hchain : ∀ {u v : List Byte}, (∃ out, Reads u out ∧ Narrow out) → (∃ out, Reads v out ∧ Narrow out) →
      ∃ out, Reads (u ++ v) out ∧ Narrow out := by
    rintro u v ⟨out, hu, hout⟩ ⟨out', hv, hout'⟩
    refine ⟨out ++ out', hu.append hv, fun b hb => ?_⟩
    rcases List.mem_append.mp hb with hb | hb
    · exact hout b hb
    · exact hout' b hb
  induction s using escapeString.induct with
  | case1 => exact ⟨[], .nil, by simp [Narrow]⟩
  | case2 b =>
    rw [escapeString]
    exact exists_reads_escapeByte (by simpa [eq_comm] using h)
  | case3 b₀ b₁ hlead =>
    rw [escapeString, if_pos hlead]
    exact exists_reads_escapeU _
  | case4 b₀ b₁ hlead ih =>
    rw [escapeString, if_neg hlead]
    simp only [List.mem_cons, List.not_mem_nil, or_false, not_or] at h
    exact hchain (exists_reads_escapeByte (Ne.symm h.1)) (ih (by simpa using h.2))
  | case5 b₀ b₁ b₂ rest hlead ih =>
    rw [escapeString, if_pos hlead]
    simp only [List.mem_cons, not_or] at h
    exact hchain (exists_reads_escapeU _) (ih h.2.2.2)
  | case6 b₀ b₁ b₂ rest hlead hlead₂ ih =>
    rw [escapeString, if_neg hlead, if_pos hlead₂]
    simp only [List.mem_cons, not_or] at h
    exact hchain (exists_reads_escapeU _) (ih (by simpa using h.2.2))
  | case7 b₀ b₁ b₂ rest hlead hlead₂ ih =>
    rw [escapeString, if_neg hlead, if_neg hlead₂]
    simp only [List.mem_cons, not_or] at h
    exact hchain (exists_reads_escapeByte (Ne.symm h.1)) (ih (by simpa using h.2))

theorem escapeString_one {b : Byte} (h : b < 0x80) (rest : List Byte) :
    escapeString (b :: rest) = escapeByte b ++ escapeString rest := by
  have hall : ∀ n < 128, UInt8.ofNat n &&& 0xE0 ≠ 0xE0 ∧ UInt8.ofNat n &&& 0xE0 ≠ 0xC0 := by decide
  have hlead : b &&& 0xE0 ≠ 0xE0 ∧ b &&& 0xE0 ≠ 0xC0 := by
    obtain ⟨n, hn, rfl⟩ := exists_ascii h
    exact hall n hn
  rcases rest with _ | ⟨c, _ | ⟨d, rest⟩⟩
  · simp [escapeString]
  · simp [escapeString, isLead2, hlead]
  · simp [escapeString, isLead2, isLead3, hlead]

theorem escapeString_two {b c : Byte} (h : isLead2 b c = true) (rest : List Byte) :
    escapeString (b :: c :: rest) = escapeU (wchar2 b c) ++ escapeString rest := by
  rcases rest with _ | ⟨d, rest⟩
  · simp [escapeString, h]
  · have hlead : b &&& 0xE0 = 0xC0 := by
      have hparts := h
      simp only [isLead2, Bool.and_eq_true, beq_iff_eq] at hparts
      exact hparts.1
    rw [escapeString, if_neg (by simp [isLead3, hlead]), if_pos h]

theorem escapeString_three {b c d : Byte} (h : isLead3 b c d = true) (rest : List Byte) :
    escapeString (b :: c :: d :: rest) = escapeU (wchar3 b c d) ++ escapeString rest := by
  rw [escapeString, if_pos h]

/-- The bytes of a valid string without NUL. -/
def Utf8 (s : List Byte) : Prop := ∃ cs : List Char, '\x00' ∉ cs ∧ s = cs.flatMap String.utf8EncodeChar

theorem utf8EncodeChar_two {c : Char} (hlow : 0x7F < c.val.toNat) (hhigh : c.val.toNat ≤ 0x7FF) :
    String.utf8EncodeChar c =
      [UInt8.ofNat (c.val.toNat / 64 % 32 + 0xC0), UInt8.ofNat (c.val.toNat % 64 + 0x80)] := by
  rw [String.utf8EncodeChar, if_neg (by omega), if_pos hhigh]

theorem utf8EncodeChar_three {c : Char} (hlow : 0x7FF < c.val.toNat) (hhigh : c.val.toNat ≤ 0xFFFF) :
    String.utf8EncodeChar c =
      [UInt8.ofNat (c.val.toNat / 4096 % 16 + 0xE0), UInt8.ofNat (c.val.toNat / 64 % 64 + 0x80),
        UInt8.ofNat (c.val.toNat % 64 + 0x80)] := by
  rw [String.utf8EncodeChar, if_neg (by omega), if_neg (by omega), if_pos hhigh]

theorem lead3_or : ∀ x < 16, 0xE0 ||| x = x + 0xE0 := by decide
theorem lead2_or : ∀ x < 32, 0xC0 ||| x = x + 0xC0 := by decide
theorem next_or : ∀ x < 64, 0x80 ||| x = x + 0x80 := by decide

theorem wcharToUtf8_two {v : ℕ} (hlow : 0x7F < v) (hhigh : v ≤ 0x7FF) :
    wcharToUtf8 v = [UInt8.ofNat (v / 64 % 32 + 0xC0), UInt8.ofNat (v % 64 + 0x80)] := by
  have hlead : v >>> 6 &&& 0x1F = v / 64 % 32 := by
    rw [Nat.shiftRight_eq_div_pow, Nat.and_two_pow_sub_one_eq_mod _ 5]
  have hnext : v &&& 0x3F = v % 64 := Nat.and_two_pow_sub_one_eq_mod v 6
  rw [wcharToUtf8, if_neg (by omega), if_pos hhigh, hlead, hnext, lead2_or _ (by omega), next_or _ (by omega)]

theorem wcharToUtf8_three {v : ℕ} (hlow : 0x7FF < v) (hhigh : v ≤ 0xFFFF) :
    wcharToUtf8 v =
      [UInt8.ofNat (v / 4096 % 16 + 0xE0), UInt8.ofNat (v / 64 % 64 + 0x80), UInt8.ofNat (v % 64 + 0x80)] := by
  have hlead : v >>> 12 &&& 0x0F = v / 4096 % 16 := by
    rw [Nat.shiftRight_eq_div_pow, Nat.and_two_pow_sub_one_eq_mod _ 4]
  have hmid : v >>> 6 &&& 0x3F = v / 64 % 64 := by
    rw [Nat.shiftRight_eq_div_pow, Nat.and_two_pow_sub_one_eq_mod _ 6]
  have hnext : v &&& 0x3F = v % 64 := Nat.and_two_pow_sub_one_eq_mod v 6
  rw [wcharToUtf8, if_neg (by omega), if_neg (by omega), hlead, hmid, hnext, lead3_or _ (by omega),
    next_or _ (by omega), next_or _ (by omega)]

/-- The writer takes the code unit out of two bytes. -/
theorem wchar2_eq {v : ℕ} (hhigh : v ≤ 0x7FF) :
    wchar2 (UInt8.ofNat (v / 64 % 32 + 0xC0)) (UInt8.ofNat (v % 64 + 0x80)) = v := by
  have hlead : (UInt8.ofNat (v / 64 % 32 + 0xC0)).toNat &&& 0x1F = v / 64 := by
    rw [UInt8.toNat_ofNat', Nat.and_two_pow_sub_one_eq_mod _ 5]
    omega
  have hnext : (UInt8.ofNat (v % 64 + 0x80)).toNat &&& 0x3F = v % 64 := by
    rw [UInt8.toNat_ofNat', Nat.and_two_pow_sub_one_eq_mod _ 6]
    omega
  rw [wchar2, hlead, hnext, or_eq_add (by omega)]
  omega

/-- Out of three bytes. -/
theorem wchar3_eq {v : ℕ} (hhigh : v ≤ 0xFFFF) :
    wchar3 (UInt8.ofNat (v / 4096 % 16 + 0xE0)) (UInt8.ofNat (v / 64 % 64 + 0x80)) (UInt8.ofNat (v % 64 + 0x80)) =
      v := by
  have hlead : (UInt8.ofNat (v / 4096 % 16 + 0xE0)).toNat &&& 0x0F = v / 4096 := by
    rw [UInt8.toNat_ofNat', Nat.and_two_pow_sub_one_eq_mod _ 4]
    omega
  have hmid : (UInt8.ofNat (v / 64 % 64 + 0x80)).toNat &&& 0x3F = v / 64 % 64 := by
    rw [UInt8.toNat_ofNat', Nat.and_two_pow_sub_one_eq_mod _ 6]
    omega
  have hnext : (UInt8.ofNat (v % 64 + 0x80)).toNat &&& 0x3F = v % 64 := by
    rw [UInt8.toNat_ofNat', Nat.and_two_pow_sub_one_eq_mod _ 6]
    omega
  have hlow : (v / 64 % 64) <<< 6 ||| v % 64 = v % 4096 := by
    rw [or_eq_add (by omega)]
    omega
  rw [wchar3, hlead, hmid, hnext, Nat.or_assoc, hlow, or_eq_add (by omega)]
  omega

theorem next_byte : ∀ x < 64, UInt8.ofNat (x + 0x80) &&& 0x80 ≠ 0 ∧ UInt8.ofNat (x + 0x80) ≠ 0 := by decide

theorem isLead2_two (v : ℕ) : isLead2 (UInt8.ofNat (v / 64 % 32 + 0xC0)) (UInt8.ofNat (v % 64 + 0x80)) = true := by
  have hlead : ∀ x < 32, UInt8.ofNat (x + 0xC0) &&& 0xE0 = 0xC0 := by decide
  have hnext := (next_byte _ (Nat.mod_lt v (by decide : 0 < 64))).1
  rw [isLead2, Bool.and_eq_true, beq_iff_eq, bne_iff_ne]
  exact ⟨hlead _ (Nat.mod_lt (v / 64) (by decide)), hnext⟩

theorem isLead3_three (v : ℕ) :
    isLead3 (UInt8.ofNat (v / 4096 % 16 + 0xE0)) (UInt8.ofNat (v / 64 % 64 + 0x80)) (UInt8.ofNat (v % 64 + 0x80)) =
      true := by
  have hlead : ∀ x < 16, UInt8.ofNat (x + 0xE0) &&& 0xE0 = 0xE0 := by decide
  have hmid := (next_byte _ (Nat.mod_lt (v / 64) (by decide : 0 < 64))).1
  have hnext := (next_byte _ (Nat.mod_lt v (by decide : 0 < 64))).1
  rw [isLead3, Bool.and_eq_true, Bool.and_eq_true, beq_iff_eq, bne_iff_ne, bne_iff_ne]
  exact ⟨⟨hlead _ (Nat.mod_lt (v / 4096) (by decide)), hmid⟩, hnext⟩

theorem ofNat_ne_zero {c : Char} (hzero : c ≠ '\x00') (hone : c.val.toNat ≤ 0x7F) : UInt8.ofNat c.val.toNat ≠ 0 := by
  intro heq
  have hval := congrArg UInt8.toNat heq
  rw [UInt8.toNat_ofNat', Nat.mod_eq_of_lt (by omega)] at hval
  exact hzero (Char.ext (UInt32.toNat_inj.mp hval))

/-- A character of at most three bytes is written and read as itself. -/
theorem reads_char {c : Char} (hzero : c ≠ '\x00') (hnarrow : Narrow (String.utf8EncodeChar c)) :
    ∃ u, Reads u (String.utf8EncodeChar c) ∧
      ∀ rest, escapeString (String.utf8EncodeChar c ++ rest) = u ++ escapeString rest := by
  have hlead2 : ∀ x < 32, UInt8.ofNat (x + 0xC0) ≠ 0 := by decide
  have hlead3 : ∀ x < 16, UInt8.ofNat (x + 0xE0) ≠ 0 := by decide
  have hnext : ∀ n, UInt8.ofNat (n % 64 + 0x80) ≠ 0 := fun n => (next_byte _ (Nat.mod_lt n (by decide))).2
  by_cases hone : c.val.toNat ≤ 0x7F
  · have hencode : String.utf8EncodeChar c = [UInt8.ofNat c.val.toNat] := by
      rw [String.utf8EncodeChar, if_pos hone]
    have hascii : UInt8.ofNat c.val.toNat < 0x80 := by
      rw [UInt8.lt_iff_toNat_lt, UInt8.toNat_ofNat']
      show c.val.toNat % 2 ^ 8 < 128
      omega
    rw [hencode]
    exact ⟨_, reads_escapeByte (ofNat_ne_zero hzero hone) hascii, fun rest => escapeString_one hascii rest⟩
  · rw [not_le] at hone
    by_cases htwo : c.val.toNat ≤ 0x7FF
    · have hwchar := reads_escapeU (v := c.val.toNat) (by omega)
      rw [utf8EncodeChar_two hone htwo]
      rw [wcharToUtf8_two hone htwo, cString_two (hlead2 _ (Nat.mod_lt _ (by decide))) (hnext _)] at hwchar
      refine ⟨_, hwchar, fun rest => ?_⟩
      rw [List.cons_append, List.singleton_append, escapeString_two (isLead2_two _), wchar2_eq htwo]
    · rw [not_le] at htwo
      have hthree : c.val.toNat ≤ 0xFFFF := by
        by_contra hfour
        have hlead4 : ∀ x < 8, ¬ UInt8.ofNat (x + 0xF0) < 0xF0 := by decide
        apply hlead4 (c.val.toNat / 262144 % 8) (Nat.mod_lt _ (by decide))
        apply hnarrow
        rw [String.utf8EncodeChar, if_neg (by omega), if_neg (by omega), if_neg hfour]
        exact List.mem_cons_self
      have hwchar := reads_escapeU (v := c.val.toNat) (by omega)
      rw [utf8EncodeChar_three htwo hthree]
      rw [wcharToUtf8_three htwo hthree,
        cString_three (hlead3 _ (Nat.mod_lt _ (by decide))) (hnext _) (hnext _)] at hwchar
      refine ⟨_, hwchar, fun rest => ?_⟩
      rw [List.cons_append, List.cons_append, List.singleton_append, escapeString_three (isLead3_three _),
        wchar3_eq hthree]

theorem reads_utf8 {s : List Byte} (h : Utf8 s) (hnarrow : Narrow s) : Reads (escapeString s) s := by
  obtain ⟨cs, hzero, rfl⟩ := h
  induction cs with
  | nil => exact .nil
  | cons c cs ih =>
    rw [List.mem_cons, not_or] at hzero
    rw [List.flatMap_cons] at hnarrow ⊢
    obtain ⟨u, hu, hescape⟩ := reads_char (Ne.symm hzero.1) fun b hb => hnarrow b (List.mem_append_left _ hb)
    rw [hescape]
    exact hu.append (ih hzero.2 fun b hb => hnarrow b (List.mem_append_right _ hb))

end Colama.Qemu.Json

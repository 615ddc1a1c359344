import Mathlib.Tactic
import Colama.Spice.Lz.Decompress

namespace Colama.Spice.Lz

open Lib

variable (k : PixelKind) (X : Nat → k.Pixel)

/-- The bytes of `n` literals from pixel `a` on. -/
def litBytes (a n : Nat) : List UInt8 := (List.range' a n).flatMap fun j => k.encodePixel (X j)

/-- Compressed bytes that stand for the pixels of `X` from `a` to `b`. -/
inductive Stream : Nat → List UInt8 → Nat → Prop
  | nil (a : Nat) : Stream a [] a
  | literals {a n b : Nat} {bs : List UInt8} (hpos : 0 < n) (hle : n ≤ maxCopy)
      (h : Stream (a + n) bs b) : Stream a (.ofNat (n - 1) :: (litBytes k X a n ++ bs)) b
  | ref {a d n b : Nat} {bs : List UInt8} (hd : 0 < d) (hda : d ≤ a) (hfar : d < maxFarDistance)
      (hn : k.minLen ≤ n) (hsame : ∀ j < n, k.samePixel (X (a + j)) (X (a + j - d)) = true)
      (h : Stream (a + n) bs b) : Stream a (matchBytes (n + 1 - k.minLen) (d - 1) ++ bs) b

variable {k X}

@[simp] theorem litBytes_zero (a : Nat) : litBytes k X a 0 = [] := rfl

theorem litBytes_succ (a n : Nat) :
    litBytes k X a (n + 1) = k.encodePixel (X a) ++ litBytes k X (a + 1) n := rfl

theorem litBytes_append_last (a n : Nat) :
    litBytes k X a (n + 1) = litBytes k X a n ++ k.encodePixel (X (a + n)) := by
  simp [litBytes, List.range'_concat]

namespace Stream

variable {a b c n d : Nat} {bs cs : List UInt8}

theorem le (h : Stream k X a bs b) : a ≤ b := by
  induction h with
  | nil => exact le_rfl
  | literals => omega
  | ref => omega

theorem trans (h₁ : Stream k X a bs b) (h₂ : Stream k X b cs c) : Stream k X a (bs ++ cs) c := by
  induction h₁ with
  | nil => exact h₂
  | literals hpos hle _ ih =>
    rw [List.cons_append, List.append_assoc]
    exact literals hpos hle (ih h₂)
  | ref hd hda hfar hn hsame _ ih =>
    rw [List.append_assoc]
    exact ref hd hda hfar hn hsame (ih h₂)

theorem append_literals (h : Stream k X a bs b) (hpos : 0 < n) (hle : n ≤ maxCopy) :
    Stream k X a (bs ++ .ofNat (n - 1) :: litBytes k X b n) (b + n) := by
  have := literals (X := X) (a := b) hpos hle (nil (b + n))
  rw [List.append_nil] at this
  exact h.trans this

theorem append_ref (h : Stream k X a bs b) (hd : 0 < d) (hda : d ≤ b) (hfar : d < maxFarDistance)
    (hn : k.minLen ≤ n) (hsame : ∀ j < n, k.samePixel (X (b + j)) (X (b + j - d)) = true) :
    Stream k X a (bs ++ matchBytes (n + 1 - k.minLen) (d - 1)) (b + n) := by
  have := ref hd hda hfar hn hsame (nil (b + n))
  rw [List.append_nil] at this
  exact h.trans this

end Stream

section Decode

variable {i : In} {r : List UInt8}

theorem toNat_ofNat_of_lt {n : Nat} (h : n < 256) : (UInt8.ofNat n).toNat = n :=
  UInt8.toNat_ofNat_of_lt' h

theorem ofNat_ne_255 {n : Nat} (h : n < 255) : UInt8.ofNat n ≠ 255 := by
  intro he
  have := congrArg UInt8.toNat he
  rw [toNat_ofNat_of_lt (by omega)] at this
  exact absurd this (by change n ≠ 255; omega)

theorem decodeLen_lenBytes {n : Nat} (fuel l : Nat) (hf : i.Full) (h : i.bytes = lenBytes n ++ r)
    (hfuel : i.bytes.length ≤ fuel) :
    ∃ i', decodeLen fuel l i = .ok (l + n, i') ∧ i'.bytes = r ∧ i'.Full := by
  induction n using Nat.strong_induction_on generalizing fuel l i with
  | _ n ih =>
    rw [lenBytes] at h
    split at h
    · rename_i hn
      obtain ⟨i₁, e₁, h₁, f₁⟩ := decode_cons hf h
      have hlen : i.bytes.length = i₁.bytes.length + 1 := by rw [h, h₁]; rfl
      obtain ⟨fuel, rfl⟩ : ∃ f, fuel = f + 1 := ⟨fuel - 1, by omega⟩
      obtain ⟨i₂, e₂, h₂, f₂⟩ := ih (n - 255) (by omega) fuel (l + 255) f₁ h₁ (by omega)
      refine ⟨i₂, ?_, h₂, f₂⟩
      rw [decodeLen, e₁]
      change decodeLen fuel (l + 255) i₁ = _
      rw [e₂, show l + 255 + (n - 255) = l + n by omega]
    · rename_i hn
      obtain ⟨i₁, e₁, h₁, f₁⟩ := decode_cons hf h
      have hlen : i.bytes.length = i₁.bytes.length + 1 := by rw [h, h₁]; rfl
      obtain ⟨fuel, rfl⟩ : ∃ f, fuel = f + 1 := ⟨fuel - 1, by omega⟩
      refine ⟨i₁, ?_, h₁, f₁⟩
      rw [decodeLen, e₁]
      change (if UInt8.ofNat n = 255 then _ else _) = _
      rw [if_neg (ofNat_ne_255 (by omega)), toNat_ofNat_of_lt (by omega)]

/-- The high bits of a distance in the first byte of a match, and the bytes after the length. -/
def distanceBits (distance : Nat) : Nat := if distance < maxDistance then distance / 256 else 31

def distanceBytes (distance : Nat) : List UInt8 :=
  if distance < maxDistance then [.ofNat (distance % 256)]
  else [255, .ofNat ((distance - maxDistance) / 256), .ofNat ((distance - maxDistance) % 256)]

theorem matchBytes_eq (len distance : Nat) :
    matchBytes len distance = .ofNat (min len 7 * 32 + distanceBits distance) ::
      ((if len < 7 then [] else lenBytes (len - 7)) ++ distanceBytes distance) := by
  unfold matchBytes distanceBits distanceBytes
  by_cases hl : len < 7
  · rw [min_eq_left (by omega)]
    by_cases hd : distance < maxDistance <;> simp [hl, hd]
  · rw [min_eq_right (by omega)]
    by_cases hd : distance < maxDistance <;> simp [hl, hd]

theorem distanceBits_lt (distance : Nat) : distanceBits distance < 32 := by
  unfold distanceBits maxDistance
  split <;> omega

theorem decodeDistance_distanceBytes {distance : Nat} (hd : distance + 1 < maxFarDistance) (hf : i.Full)
    (h : i.bytes = distanceBytes distance ++ r) :
    ∃ i', decodeDistance (distanceBits distance * 256) i = .ok (distance, i') ∧ i'.bytes = r ∧
      i'.Full := by
  unfold distanceBytes at h
  unfold distanceBits
  unfold maxFarDistance at hd
  split at h
  · rename_i hnear
    obtain ⟨i₁, e₁, h₁, f₁⟩ := decode_cons hf h
    refine ⟨i₁, ?_, h₁, f₁⟩
    rw [if_pos hnear, decodeDistance, e₁]
    change (if _ then _ else _) = _
    have hto := toNat_ofNat_of_lt (n := distance % 256) (by omega)
    have hnot : ¬(UInt8.ofNat (distance % 256) = 255 ∧ distance / 256 * 256 = 31 * 256) := by
      rintro ⟨h255, h31⟩
      have : distance % 256 = 255 := by rw [← hto, h255]; rfl
      unfold maxDistance at hnear
      omega
    rw [if_neg hnot, hto, show distance / 256 * 256 + distance % 256 = distance by omega]
  · rename_i hfar
    obtain ⟨i₁, e₁, h₁, f₁⟩ := decode_cons hf h
    obtain ⟨i₂, e₂, h₂, f₂⟩ := decode_cons f₁ h₁
    obtain ⟨i₃, e₃, h₃, f₃⟩ := decode_cons f₂ h₂
    refine ⟨i₃, ?_, h₃, f₃⟩
    rw [if_neg hfar, decodeDistance, e₁]
    change (decode i₁ >>= _) = _
    rw [e₂]
    change (decode i₂ >>= _) = _
    rw [e₃]
    change Except.ok _ = _
    unfold maxDistance at hfar hd
    rw [toNat_ofNat_of_lt (by unfold maxDistance; omega), toNat_ofNat_of_lt (by omega)]
    congr 2
    unfold maxDistance
    omega

theorem decodeMatchLen_lenBytes {len : Nat} (hf : i.Full)
    (h : i.bytes = (if len < 7 then [] else lenBytes (len - 7)) ++ r) :
    ∃ i', decodeMatchLen (min len 7 - 1) i = .ok (len - 1, i') ∧ i'.bytes = r ∧ i'.Full := by
  by_cases hl : len < 7
  · rw [decodeMatchLen, if_neg (by omega), min_eq_left (by omega)]
    rw [if_pos hl, List.nil_append] at h
    exact ⟨i, rfl, h, hf⟩
  · rw [decodeMatchLen, min_eq_right (by omega), if_pos rfl]
    rw [if_neg hl] at h
    obtain ⟨i₁, e₁, h₁⟩ := decodeLen_lenBytes (i.bytes.length + 1) (7 - 1) hf h (by omega)
    refine ⟨i₁, ?_, h₁⟩
    rw [e₁, show 7 - 1 + (len - 7) = len - 1 by omega]

/-- The decoder reads back what the encoder says about a match. -/
theorem decodeRef_matchBytes {len distance : Nat} {c : UInt8} {t : List UInt8} (hlen : 0 < len)
    (hd : distance + 1 < maxFarDistance) (hm : matchBytes len distance = c :: t) (hf : i.Full)
    (h : i.bytes = t ++ r) :
    maxCopy ≤ c.toNat ∧ ∃ i', decodeRef k c i = .ok (len - 1 + k.minLen, distance + 1, i') ∧
      i'.bytes = r ∧ i'.Full := by
  rw [matchBytes_eq, List.cons_eq_cons] at hm
  obtain ⟨rfl, rfl⟩ := hm
  have hbits := distanceBits_lt distance
  have hto := toNat_ofNat_of_lt (n := min len 7 * 32 + distanceBits distance) (by omega)
  have hdiv : (min len 7 * 32 + distanceBits distance) / 32 - 1 = min len 7 - 1 := by omega
  have hmod : (min len 7 * 32 + distanceBits distance) % 32 = distanceBits distance := by omega
  refine ⟨by rw [hto]; unfold maxCopy; omega, ?_⟩
  rw [List.append_assoc] at h
  obtain ⟨i₁, e₁, h₁, f₁⟩ := decodeMatchLen_lenBytes hf h
  obtain ⟨i₂, e₂, h₂, f₂⟩ := decodeDistance_distanceBytes hd f₁ h₁
  refine ⟨i₂, ?_, h₂, f₂⟩
  simp only [decodeRef, hto, hdiv, hmod, e₁, e₂, bind, Except.bind]

variable {old : Nat → k.Pixel} {limit : Int} {out : List k.Pixel}

/-- The output so far is the image again. -/
abbrev Restored (old X : Nat → k.Pixel) (out : List k.Pixel) : Prop :=
  Follows (fun p o => k.Restores (old p) (X p) o) out

theorem copyComp_litBytes {n : Nat} (hout : Restored old X out) (hf : i.Full)
    (h : i.bytes = litBytes k X out.length n ++ r) :
    ∃ out' i', copyComp k old n out i = .ok (out', i') ∧ Restored old X out' ∧
      out'.length = out.length + n ∧ i'.bytes = r ∧ i'.Full := by
  induction n generalizing out i with
  | zero => exact ⟨out, i, rfl, hout, rfl, h, hf⟩
  | succ n ih =>
    rw [litBytes_succ, List.append_assoc] at h
    obtain ⟨i₁, e₁, h₁, f₁⟩ := decodeBytes_append hf h
    rw [k.encodePixel_length] at e₁
    have hnew := hout.append_singleton (k.compPixel_encodePixel (old out.length) (X out.length))
    have hlen : ∀ o : k.Pixel, (out ++ [o]).length = out.length + 1 := fun o => by simp
    obtain ⟨out', i', e, ho, hl, hb, hf'⟩ := ih hnew f₁ (by rw [hlen]; exact h₁)
    refine ⟨out', i', ?_, ho, by rw [hl, hlen]; omega, hb, hf'⟩
    rw [copyComp, e₁]
    exact e

/-- In a run every pixel is the same as the one before the run. -/
theorem samePixel_of_run {a n : Nat} (ha : 0 < a)
    (hsame : ∀ j < n, k.samePixel (X (a + j)) (X (a + j - 1)) = true) {j : Nat} (hj : j < n) :
    k.samePixel (X (a + j)) (X (a - 1)) = true := by
  induction j with
  | zero => exact hsame 0 hj
  | succ j ih =>
    have hstep := hsame (j + 1) hj
    rw [show a + (j + 1) - 1 = a + j by omega] at hstep
    exact k.samePixel_equiv.trans hstep (ih (by omega))

theorem copyRef_same {n d : Nat} (hout : Restored old X out) (hd : 0 < d) (hda : d ≤ out.length)
    (hlim : (out.length + n : Nat) ≤ limit)
    (hsame : ∀ j < n, k.samePixel (X (out.length + j)) (X (out.length + j - d)) = true) :
    ∃ out', copyRef k old limit n d out = .ok out' ∧ Restored old X out' ∧
      out'.length = out.length + n := by
  rw [copyRef, if_neg (by omega)]
  by_cases h1 : d = 1
  · subst h1
    have hget : out[out.length - 1]? = some out[out.length - 1] := List.getElem?_eq_getElem (by omega)
    rw [if_pos rfl, hget]
    refine ⟨_, rfl, hout.copyRun fun j hj => ?_, length_copyRun _ _ _ _⟩
    exact k.copyPixel_restores (samePixel_of_run hda hsame hj) (hout _ _ hget)
  · rw [if_neg h1]
    exact ⟨_, rfl, hout.copyBack hd hda fun j hj b hb => k.copyPixel_restores (hsame j hj) hb⟩

variable (k old limit) in
/-- What `decompress` does behind a control byte that is done with. -/
def resume (fuel : Nat) (out : List k.Pixel) (i : In) : Except Error (List k.Pixel × In) :=
  if (out.length : Int) < limit then do
    let (ctrl, i) ← decode i
    decompressLoop k old limit fuel ctrl out i
  else .ok (out, i)

theorem resume_token {c : UInt8} {t : List UInt8} (fuel : Nat) (hf : i.Full) (h : i.bytes = c :: t)
    (hlim : (out.length : Int) < limit) :
    ∃ i₁ : In, i₁.Full ∧ i₁.bytes = t ∧ ∀ out' i',
      copyToken k old limit c out i₁ = .ok (out', i') →
      resume k old limit (fuel + 1) out i = resume k old limit fuel out' i' := by
  obtain ⟨i₁, e₁, h₁, f₁⟩ := decode_cons hf h
  refine ⟨i₁, f₁, h₁, fun out' i' htok => ?_⟩
  rw [resume, if_pos hlim, e₁]
  change decompressLoop k old limit (fuel + 1) c out i₁ = _
  rw [decompressLoop, htok]
  rfl

theorem copyToken_literals {n : Nat} (hout : Restored old X out) (hpos : 0 < n) (hle : n ≤ maxCopy)
    (hlim : (out.length + n : Nat) ≤ limit) (hf : i.Full)
    (h : i.bytes = litBytes k X out.length n ++ r) :
    ∃ out' i', copyToken k old limit (.ofNat (n - 1)) out i = .ok (out', i') ∧ Restored old X out' ∧
      out'.length = out.length + n ∧ i'.bytes = r ∧ i'.Full := by
  unfold maxCopy at hle
  have hto := toNat_ofNat_of_lt (n := n - 1) (by omega)
  rw [copyToken, if_neg (by rw [hto, maxCopy]; omega), copyLiterals, hto, Nat.sub_add_cancel hpos,
    if_neg (by omega)]
  exact copyComp_litBytes hout hf h

theorem copyToken_ref {n d : Nat} {c : UInt8} {t : List UInt8} (hout : Restored old X out)
    (hd : 0 < d) (hda : d ≤ out.length) (hfar : d < maxFarDistance) (hn : k.minLen ≤ n)
    (hlim : (out.length + n : Nat) ≤ limit)
    (hsame : ∀ j < n, k.samePixel (X (out.length + j)) (X (out.length + j - d)) = true)
    (hm : matchBytes (n + 1 - k.minLen) (d - 1) = c :: t) (hf : i.Full) (h : i.bytes = t ++ r) :
    ∃ out' i', copyToken k old limit c out i = .ok (out', i') ∧ Restored old X out' ∧
      out'.length = out.length + n ∧ i'.bytes = r ∧ i'.Full := by
  obtain ⟨hc, i₁, e₁, h₁, f₁⟩ := decodeRef_matchBytes (k := k) (by omega) (by omega) hm hf h
  obtain ⟨out', e, ho, hl⟩ := copyRef_same hout hd hda hlim hsame
  refine ⟨out', i₁, ?_, ho, hl, h₁, f₁⟩
  rw [show n + 1 - k.minLen - 1 + k.minLen = n by omega, Nat.sub_add_cancel hd] at e₁
  rw [copyToken, if_pos hc, e₁]
  change (copyRef k old limit n d out >>= _) = _
  rw [e]
  rfl

/-- The decoder goes through a stream and gets its pixels. -/
theorem Stream.resume {a b : Nat} {bs : List UInt8} (hs : Stream k X a bs b) (hb : (b : Int) ≤ limit)
    (fuel : Nat) (hfuel : bs.length ≤ fuel) (hout : Restored old X out) (ha : out.length = a)
    (hf : i.Full) (h : i.bytes = bs ++ r) :
    ∃ fuel' out' i', resume k old limit fuel out i = resume k old limit fuel' out' i' ∧
      Restored old X out' ∧ out'.length = b ∧ i'.bytes = r ∧ i'.Full := by
  induction hs generalizing fuel out i with
  | nil => exact ⟨fuel, out, i, rfl, hout, ha, h, hf⟩
  | @literals a n b bs hpos hle hs ih =>
    subst ha
    have hle' := hs.le
    have hlt : (out.length : Int) < limit := by omega
    have hlim : ((out.length + n : Nat) : Int) ≤ limit := by omega
    simp only [List.length_cons, List.length_append] at hfuel
    obtain ⟨fuel, rfl⟩ : ∃ f, fuel = f + 1 := ⟨fuel - 1, by omega⟩
    rw [List.cons_append, List.append_assoc] at h
    obtain ⟨i₁, f₁, h₁, hres⟩ := resume_token fuel hf h hlt
    obtain ⟨out', i', e, ho, hl, hr, hf'⟩ := copyToken_literals hout hpos hle hlim f₁ h₁
    rw [hres _ _ e]
    exact ih hb fuel (by omega) ho hl hf' hr
  | @ref a d n b bs hd hda hfar hn hsame hs ih =>
    subst ha
    have hle' := hs.le
    have hmin := k.minLen_pos
    have hlt : (out.length : Int) < limit := by omega
    have hlim : ((out.length + n : Nat) : Int) ≤ limit := by omega
    obtain ⟨c, t, hm⟩ : ∃ c t, matchBytes (n + 1 - k.minLen) (d - 1) = c :: t :=
      ⟨_, _, matchBytes_eq _ _⟩
    rw [hm, List.cons_append, List.length_cons, List.length_append] at hfuel
    obtain ⟨fuel, rfl⟩ : ∃ f, fuel = f + 1 := ⟨fuel - 1, by omega⟩
    rw [hm, List.cons_append, List.cons_append, List.append_assoc] at h
    obtain ⟨i₁, f₁, h₁, hres⟩ := resume_token fuel hf h hlt
    obtain ⟨out', i', e, ho, hl, hr, hf'⟩ :=
      copyToken_ref hout hd hda hfar hn hlim hsame hm f₁ h₁
    rw [hres _ _ e]
    exact ih hb fuel (by omega) ho hl hf' hr

theorem decompress_eq_resume (hf : i.Full) (hlim : 0 < limit) :
    decompress k old limit i = resume k old limit i.bytes.length [] i := by
  rw [decompress, resume, if_pos (by simpa using hlim)]
  cases hb : i.bytes with
  | nil =>
    rw [decode_nil hb]
    rfl
  | cons c t =>
    obtain ⟨i₁, e₁, h₁, -⟩ := decode_cons hf hb
    rw [e₁]
    change decompressLoop k old limit (i₁.bytes.length + 1) c [] i₁ = _
    rw [h₁]
    rfl

theorem decompress_stream (old : Nat → k.Pixel) {b : Nat} {bs : List UInt8} (hs : Stream k X 0 bs b) (hb : 0 < b)
    (hf : i.Full) (h : i.bytes = bs ++ r) :
    ∃ out i', decompress k old b i = .ok (out, i') ∧ Restored old X out ∧ out.length = b ∧
      i'.bytes = r ∧ i'.Full := by
  have hfuel : bs.length ≤ i.bytes.length := by
    rw [h, List.length_append]
    omega
  obtain ⟨fuel, out, i', e, ho, hl, hr, hf'⟩ :=
    hs.resume (le_refl (b : Int)) _ hfuel follows_nil rfl hf h
  refine ⟨out, i', ?_, ho, hl, hr, hf'⟩
  rw [decompress_eq_resume hf (by omega), e, resume, if_neg (by omega)]

/-- A stream that ends before the image is full. -/
theorem decompress_short {b : Nat} {bs : List UInt8} (hs : Stream k X 0 bs b) (hb : (b : Int) < limit)
    (hf : i.Full) (h : i.bytes = bs) : decompress k old limit i = .error .noMoreBytes := by
  obtain ⟨fuel, out, i', e, -, hl, hr, -⟩ :=
    hs.resume hb.le i.bytes.length (by rw [h]) follows_nil rfl hf (by rw [h, List.append_nil])
  rw [decompress_eq_resume hf (by omega), e, resume, if_pos (by omega), decode_nil hr]
  rfl

theorem copyComp_length {n : Nat} {out' : List k.Pixel} {i' : In}
    (h : copyComp k old n out i = .ok (out', i')) : out'.length = out.length + n := by
  induction n generalizing out i with
  | zero =>
    cases h
    rfl
  | succ n ih =>
    obtain ⟨⟨bs, i₁⟩, -, h⟩ := bind_eq_ok.mp h
    rw [ih h, List.length_append, List.length_singleton]
    omega

theorem copyRef_le {len ofs : Nat} {out' : List k.Pixel}
    (h : copyRef k old limit len ofs out = .ok out') :
    (out'.length : Int) ≤ limit ∧ (out.length + len : Nat) ≤ limit := by
  rw [copyRef] at h
  split_ifs at h with h₁ h₂
  · split at h
    · cases h
    · cases h
      rw [length_copyRun]
      omega
  · cases h
    have := length_copyBack_le (fun i b => k.copyPixel (old i) b) ofs len out
    omega

/-- The assertions keep the output within its limit, and every control byte needs some room. -/
theorem copyToken_le {c : UInt8} {out' : List k.Pixel} {i' : In}
    (h : copyToken k old limit c out i = .ok (out', i')) : (out'.length : Int) ≤ limit ∧ 0 < limit := by
  rw [copyToken] at h
  split at h
  · have hmin := k.minLen_pos
    obtain ⟨⟨len, ofs, i₁⟩, hr, h⟩ := bind_eq_ok.mp h
    obtain ⟨out₁, hc, h⟩ := bind_eq_ok.mp h
    cases h
    obtain ⟨⟨len', i₂⟩, -, hr⟩ := bind_eq_ok.mp hr
    obtain ⟨⟨ofs', i₃⟩, -, hr⟩ := bind_eq_ok.mp hr
    cases hr
    have := copyRef_le hc
    omega
  · rw [copyLiterals] at h
    split_ifs at h with hlim
    have := copyComp_length h
    omega

/-- What `decompress` returns is as long as it was asked for. -/
theorem decompress_length {out : List k.Pixel} {i' : In}
    (h : decompress k old limit i = .ok (out, i')) : (out.length : Int) = limit ∧ 0 < limit := by
  obtain ⟨⟨c, i₁⟩, -, h⟩ := bind_eq_ok.mp h
  change decompressLoop k old limit (i₁.bytes.length + 1) c [] i₁ = _ at h
  generalize i₁.bytes.length + 1 = fuel at h
  generalize ([] : List k.Pixel) = o at h
  induction fuel generalizing c o i₁ with
  | zero => cases h
  | succ fuel ih =>
    obtain ⟨⟨o₁, i₂⟩, htok, h⟩ := bind_eq_ok.mp h
    have hle := copyToken_le htok
    change (if (o₁.length : Int) < limit then decode i₂ >>= _ else _) = _ at h
    split_ifs at h with hlt
    · obtain ⟨⟨c', i₃⟩, -, h⟩ := bind_eq_ok.mp h
      exact ih c' i₃ o₁ h
    · cases h
      omega

end Decode

end Colama.Spice.Lz

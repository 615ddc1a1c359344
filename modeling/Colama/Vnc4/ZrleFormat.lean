import Colama.Vnc4.ZrleStream

namespace Colama.Vnc4.Zrle

open Lib
open Xvnc (Bpp Card)

variable {σ τ : Type} {zlib : Zlib σ τ} {Sync : σ → τ → Prop}

/-- A component of a pixel, as `rgbFromPixel` takes it out. -/
def component (max shift v : Nat) : Nat := (v >>> shift) &&& max

namespace PixelFormat

/-- The number that the bytes of a pixel stand for. -/
def value (pf : PixelFormat) (pix : Card pf.bpp) : Nat :=
  if pf.bigEndian then ofLeBytes pix.bytes.reverse else ofLeBytes pix.bytes

def components (pf : PixelFormat) (v : Nat) : Nat × Nat × Nat :=
  (component pf.redMax pf.redShift v, component pf.greenMax pf.greenShift v, component pf.blueMax pf.blueShift v)

/-- A property of the maximum and the shift of each component. -/
def Each (pf : PixelFormat) (P : Nat → Nat → Prop) : Prop :=
  P pf.redMax pf.redShift ∧ P pf.greenMax pf.greenShift ∧ P pf.blueMax pf.blueShift

/-- The components fit in the pixel. -/
def Fits (pf : PixelFormat) : Prop := pf.Each fun max shift => max <<< shift < 2 ^ (8 * pf.bpp.size)

/-- In a format of 32 bits a component reaches the highest bit, the components that do not are in the lower three
bytes, and not every component of a big endian format is in the upper three. -/
def UpperByteLost (pf : PixelFormat) : Prop :=
  pf.bpp = .bpp32 ∧ (¬ pf.Each fun max shift => max <<< shift < 2 ^ 31) ∧
    (pf.Each fun max shift => max <<< shift < 2 ^ 24 ∨ 2 ^ 31 ≤ max <<< shift) ∧
    ¬ (pf.bigEndian = true ∧ pf.Each fun _ shift => 7 < shift)

/-- No component has a bit in the upper byte of the pixel. -/
def UpperUnused (pf : PixelFormat) (v : Nat) : Prop :=
  pf.Each fun max shift => (v / 2 ^ 24 * 2 ^ 24) &&& (max <<< shift) = 0

end PixelFormat

theorem component_eq_iff {max shift v v' : Nat} :
    component max shift v = component max shift v' ↔
      ∀ i, max.testBit i = true → v.testBit (shift + i) = v'.testBit (shift + i) := by
  constructor
  · intro h i hi
    have hbit := congrArg (fun n => Nat.testBit n i) h
    simpa [component, hi, Nat.testBit_shiftRight] using hbit
  · intro h
    apply Nat.eq_of_testBit_eq
    intro i
    simp only [component, Nat.testBit_and, Nat.testBit_shiftRight]
    cases hi : max.testBit i with
    | false => simp
    | true => rw [h i hi]

/-- The lower three bytes keep a component that is among them. -/
theorem component_lower_iff {max shift v : Nat} :
    component max shift (v % 2 ^ 24) = component max shift v ↔ (v / 2 ^ 24 * 2 ^ 24) &&& (max <<< shift) = 0 := by
  rw [component_eq_iff, ← Nat.shiftLeft_eq]
  constructor
  · intro h
    apply Nat.eq_of_testBit_eq
    intro j
    simp only [Nat.testBit_and, Nat.testBit_shiftLeft, Nat.testBit_div_two_pow, Nat.zero_testBit]
    by_cases hj : 24 ≤ j ∧ shift ≤ j
    · cases hmax : max.testBit (j - shift) with
      | false => simp
      | true =>
        have hbit := h (j - shift) hmax
        rw [Nat.add_sub_cancel' hj.2, Nat.testBit_mod_two_pow, decide_eq_false (by omega), Bool.false_and] at hbit
        rw [Nat.sub_add_cancel hj.1, ← hbit]
        simp
    · rcases not_and_or.mp hj with hj | hj
      · simp [hj]
      · simp [hj]
  · intro h i hi
    rw [Nat.testBit_mod_two_pow]
    by_cases hlt : shift + i < 24
    · simp [hlt]
    · have hbit := congrArg (fun n => Nat.testBit n (shift + i)) h
      simp only [Nat.testBit_and, Nat.testBit_shiftLeft, Nat.testBit_div_two_pow, Nat.zero_testBit,
        Nat.add_sub_cancel_left, hi, Nat.le_add_right, decide_true, Bool.and_true] at hbit
      rw [decide_eq_true (by omega), Bool.true_and, Nat.sub_add_cancel (by omega)] at hbit
      simp [hlt, hbit]

theorem component_upper {max shift v : Nat} (hshift : 7 < shift) :
    component max shift (v / 256 * 256) = component max shift v := by
  rw [component_eq_iff]
  intro i _
  have hpow : v / 256 * 256 = (v / 2 ^ 8) <<< 8 := by simp only [Nat.shiftLeft_eq, Nat.reducePow]
  rw [hpow, Nat.testBit_shiftLeft, Nat.testBit_div_two_pow, decide_eq_true (by omega), Bool.true_and,
    Nat.sub_add_cancel (by omega)]

theorem fits24_iff {max shift : Nat} (h : max <<< shift < 2 ^ 32) :
    PixelFormat.fits24 max shift = true ↔ max <<< shift < 2 ^ 24 ∨ 2 ^ 31 ≤ max <<< shift := by
  have hmax : max < 2 ^ 32 := Nat.le_shiftLeft.trans_lt h
  have hnat : (BitVec.ofNat 32 max <<< shift).toNat = max <<< shift := by
    rw [BitVec.toNat_shiftLeft, BitVec.toNat_ofNat, Nat.mod_eq_of_lt hmax, Nat.mod_eq_of_lt h]
  rw [PixelFormat.fits24, decide_eq_true_iff, BitVec.toInt_eq_toNat_cond, hnat]
  split <;> omega

theorem four_bytes (pix : Card .bpp32) : ∃ b₀ b₁ b₂ b₃, pix.bytes = [b₀, b₁, b₂, b₃] :=
  List.length_eq_four.mp (Card.length_bytes pix)

/-- The number that comes back: the packings of three bytes lose the highest or the lowest byte. -/
theorem value_kept24 {pf : PixelFormat} (h32 : pf.bpp = .bpp32) (pix : Card pf.bpp) :
    pf.value (CPixel.cpixel24A.kept pix) =
        (if pf.bigEndian then pf.value pix / 256 * 256 else pf.value pix % 2 ^ 24) ∧
      pf.value (CPixel.cpixel24B.kept pix) =
        if pf.bigEndian then pf.value pix % 2 ^ 24 else pf.value pix / 256 * 256 := by
  obtain ⟨bpp, bigEndian, redMax, greenMax, blueMax, redShift, greenShift, blueShift⟩ := pf
  dsimp only at h32
  subst h32
  obtain ⟨b₀, b₁, b₂, b₃, hbytes⟩ := four_bytes pix
  have hA : (CPixel.cpixel24A.kept pix).bytes = [b₀, b₁, b₂, 0] := by
    rw [CPixel.kept, CPixel.write, hbytes]
    exact Card.bytes_ofBytes rfl
  have hB : (CPixel.cpixel24B.kept pix).bytes = [0, b₁, b₂, b₃] := by
    rw [CPixel.kept, CPixel.write, hbytes]
    exact Card.bytes_ofBytes rfl
  have h₀ := b₀.toNat_lt
  have h₁ := b₁.toNat_lt
  have h₂ := b₂.toNat_lt
  have h₃ := b₃.toNat_lt
  have hzero : (0 : UInt8).toNat = 0 := rfl
  simp only [PixelFormat.value, hA, hB, hbytes, List.reverse_cons, List.reverse_nil, List.nil_append,
    List.cons_append, ofLeBytes, hzero]
  cases bigEndian with
  | true =>
    simp only [if_true]
    constructor <;> omega
  | false =>
    simp only [Bool.false_eq_true, if_false]
    constructor <;> omega

theorem cpixel_eq {pf : PixelFormat} (h32 : pf.bpp = .bpp32) :
    pf.cpixel = if (pf.fitsInLS3Bytes && !pf.bigEndian) || (pf.fitsInMS3Bytes && pf.bigEndian) then .cpixel24A
      else if (pf.fitsInLS3Bytes && pf.bigEndian) || (pf.fitsInMS3Bytes && !pf.bigEndian) then .cpixel24B
      else .whole := by
  obtain ⟨bpp, bigEndian, redMax, greenMax, blueMax, redShift, greenShift, blueShift⟩ := pf
  dsimp only at h32
  subst h32
  rfl

theorem kept_whole {bpp : Bpp} (pix : Card bpp) : CPixel.whole.kept pix = pix := Card.ofBytes_bytes pix

namespace PixelFormat

theorem components_lower_iff (pf : PixelFormat) (v : Nat) :
    pf.components (v % 2 ^ 24) = pf.components v ↔ pf.UpperUnused v := by
  simp only [components, Prod.mk.injEq, component_lower_iff, UpperUnused, Each]

theorem components_upper {pf : PixelFormat} (h : pf.Each fun _ shift => 7 < shift) (v : Nat) :
    pf.components (v / 256 * 256) = pf.components v := by
  rw [components, component_upper h.1, component_upper h.2.1, component_upper h.2.2, components]

theorem upperUnused_of_lt {pf : PixelFormat} (h : pf.Each fun max shift => max <<< shift < 2 ^ 24) (v : Nat) :
    pf.UpperUnused v := by
  have hzero : ∀ {m : Nat}, m < 2 ^ 24 → (v / 2 ^ 24 * 2 ^ 24) &&& m = 0 := by
    intro m hm
    apply Nat.eq_of_testBit_eq
    intro j
    rw [Nat.testBit_and, Nat.zero_testBit, ← Nat.shiftLeft_eq, Nat.testBit_shiftLeft]
    by_cases hj : j < 24
    · rw [decide_eq_false (by omega), Bool.false_and, Bool.false_and]
    · rw [Nat.testBit_lt_two_pow (hm.trans_le (Nat.pow_le_pow_right (by decide) (Nat.le_of_not_lt hj))), Bool.and_false]
  exact ⟨hzero h.1, hzero h.2.1, hzero h.2.2⟩

theorem fitsInLS3Bytes_iff {pf : PixelFormat} (h32 : pf.bpp = .bpp32) (hfits : pf.Fits) :
    pf.fitsInLS3Bytes = true ↔ pf.Each fun max shift => max <<< shift < 2 ^ 24 ∨ 2 ^ 31 ≤ max <<< shift := by
  rw [Fits, h32] at hfits
  rw [fitsInLS3Bytes, Bool.and_eq_true, Bool.and_eq_true, fits24_iff hfits.1, fits24_iff hfits.2.1,
    fits24_iff hfits.2.2, and_assoc, Each]

theorem fitsInMS3Bytes_iff (pf : PixelFormat) : pf.fitsInMS3Bytes = true ↔ pf.Each fun _ shift => 7 < shift := by
  rw [fitsInMS3Bytes, Bool.and_eq_true, Bool.and_eq_true, decide_eq_true_iff, decide_eq_true_iff, decide_eq_true_iff,
    and_assoc, Each]

theorem Each.and {pf : PixelFormat} {P Q : Nat → Nat → Prop} (hP : pf.Each P) (hQ : pf.Each Q) :
    pf.Each fun max shift => P max shift ∧ Q max shift :=
  ⟨⟨hP.1, hQ.1⟩, ⟨hP.2.1, hQ.2.1⟩, hP.2.2, hQ.2.2⟩

theorem Each.imp {pf : PixelFormat} {P Q : Nat → Nat → Prop} (hP : pf.Each P) (h : ∀ max shift, P max shift → Q max shift) :
    pf.Each Q :=
  ⟨h _ _ hP.1, h _ _ hP.2.1, h _ _ hP.2.2⟩

/-- Where the packing loses the upper byte, it is lost for the components unless they are below it. -/
theorem upperUnused_iff {pf : PixelFormat} (h32 : pf.bpp = .bpp32)
    (hls : pf.Each fun max shift => max <<< shift < 2 ^ 24 ∨ 2 ^ 31 ≤ max <<< shift)
    (hms : ¬ (pf.bigEndian = true ∧ pf.Each fun _ shift => 7 < shift)) (v : Nat) :
    pf.UpperUnused v ↔ ¬ pf.UpperByteLost ∨ pf.UpperUnused v := by
  constructor
  · exact .inr
  · rintro (hlost | hunused)
    · have hlow : pf.Each fun max shift => max <<< shift < 2 ^ 31 := by
        by_contra hhigh
        exact hlost ⟨h32, hhigh, hls, hms⟩
      apply upperUnused_of_lt
      exact (hls.and hlow).imp fun max shift h => h.1.resolve_right (Nat.not_le.mpr h.2)
    · exact hunused

theorem components_kept_iff (pf : PixelFormat) (hfits : pf.Fits) (pix : Card pf.bpp) :
    pf.components (pf.value (pf.cpixel.kept pix)) = pf.components (pf.value pix) ↔
      ¬ pf.UpperByteLost ∨ pf.UpperUnused (pf.value pix) := by
  by_cases h32 : pf.bpp = .bpp32
  · have hls := fitsInLS3Bytes_iff h32 hfits
    have hms := fitsInMS3Bytes_iff pf
    have hunused := fun hls hms => upperUnused_iff h32 hls hms (pf.value pix)
    have hupper := fun h : pf.Each fun _ shift => 7 < shift => components_upper h (pf.value pix)
    have hlower := pf.components_lower_iff (pf.value pix)
    have hnotLost : (pf.fitsInLS3Bytes = true → pf.bigEndian = true ∧ pf.fitsInMS3Bytes = true) →
        ¬ pf.UpperByteLost := fun h hlost =>
      hlost.2.2.2 ((h (hls.mpr hlost.2.2.1)).imp id hms.mp)
    obtain ⟨hA, hB⟩ := value_kept24 h32 pix
    rw [cpixel_eq h32]
    cases hbe : pf.bigEndian with
    | false =>
      rw [hbe, if_neg Bool.false_ne_true] at hA hB
      cases hl : pf.fitsInLS3Bytes with
      | true =>
        rw [if_pos (by simp), hA, hlower]
        exact hunused (hls.mp hl) fun h => Bool.false_ne_true (hbe ▸ h.1)
      | false =>
        have hkeep := hnotLost fun h => absurd h (hl ▸ Bool.false_ne_true)
        refine iff_of_true ?_ (.inl hkeep)
        cases hm : pf.fitsInMS3Bytes with
        | true =>
          rw [if_neg (by simp), if_pos (by simp), hB]
          exact hupper (hms.mp hm)
        | false =>
          rw [if_neg (by simp), if_neg (by simp), kept_whole]
    | true =>
      rw [hbe, if_pos rfl] at hA hB
      cases hm : pf.fitsInMS3Bytes with
      | true =>
        have hkeep := hnotLost fun _ => ⟨hbe, hm⟩
        refine iff_of_true ?_ (.inl hkeep)
        rw [if_pos (by simp), hA]
        exact hupper (hms.mp hm)
      | false =>
        cases hl : pf.fitsInLS3Bytes with
        | true =>
          rw [if_neg (by simp), if_pos (by simp), hB, hlower]
          exact hunused (hls.mp hl) fun h => Bool.false_ne_true (hm.symm.trans (hms.mpr h.2))
        | false =>
          have hkeep := hnotLost fun h => absurd h (hl ▸ Bool.false_ne_true)
          refine iff_of_true ?_ (.inl hkeep)
          rw [if_neg (by simp), if_neg (by simp), kept_whole]
  · have hwhole : pf.cpixel = .whole := by
      obtain ⟨bpp, bigEndian, redMax, greenMax, blueMax, redShift, greenShift, blueShift⟩ := pf
      cases bpp with
      | bpp8 => rfl
      | bpp16 => rfl
      | bpp32 => exact absurd rfl h32
    rw [hwhole, kept_whole]
    exact iff_of_true rfl (.inl fun hlost => h32 hlost.1)

end PixelFormat

/-- Every rectangle of an image comes back: unless its first line is too wide it is written, and what is written is
read to the end and gives the components of every pixel of the rectangle that is reported. -/
def RoundTrips (zlib : Zlib σ τ) (Sync : σ → τ → Prop) (pf : PixelFormat) (image : Nat → Nat → Card pf.bpp) (zos : σ)
    (zis : τ) : Prop :=
  ∀ r : Rect, (worstCaseLine (pf.cpixel.size pf.bpp) r.w ≤ maxLen → (writeRect zlib pf image r zos).isSome) ∧
    ∀ written, writeRect zlib pf image r zos = some written → ∀ window rest, ∃ window' zis',
      readRect zlib pf written.actual window zis (written.bytes ++ rest) = some (window', zis', rest) ∧
      Sync written.zos zis' ∧ ∀ x y, written.actual.x ≤ x → x < written.actual.x + written.actual.w →
        written.actual.y ≤ y → y < written.actual.y + written.actual.h →
        pf.components (pf.value (window' (x, y))) = pf.components (pf.value (image x y))

/-- A pixel with a colour in the upper byte does not come back if that byte is lost. -/
theorem not_roundTrips (hz : zlib.Delivers Sync) {zos : σ} {zis : τ} (hsync : Sync zos zis) {pf : PixelFormat}
    (hfits : pf.Fits) {image : Nat → Nat → Card pf.bpp} (hlost : pf.UpperByteLost) {x y : Nat}
    (hxy : ¬ pf.UpperUnused (pf.value (image x y))) : ¬ RoundTrips zlib Sync pf image zos zis := by
  intro h
  have hline : worstCaseLine (pf.cpixel.size pf.bpp) 1 ≤ maxLen := by
    have hsize := (pf.cpixel.size_le pf.bpp).2
    generalize pf.cpixel.size pf.bpp = size at hsize ⊢
    interval_cases size <;> decide
  obtain ⟨written, hwrite, ⟨hx', hy', hw', hh'⟩, hread⟩ :=
    readRect_writeRect hz pf image { x, y, w := 1, h := 1 } (fun _ => hline) hsync
  obtain ⟨window, zis₁, hreads, -, hwindow⟩ := hread (fun _ => 0) []
  obtain ⟨window', zis₂, hreads', -, hshown⟩ := (h { x, y, w := 1, h := 1 }).2 written hwrite (fun _ => 0) []
  rw [hreads] at hreads'
  obtain ⟨rfl, -⟩ := Prod.mk.inj (Option.some.inj hreads')
  dsimp only at hx' hy' hw' hh'
  have hpos := hh' Nat.one_pos
  have hshown' := hshown x y (by omega) (by omega) (by omega) (by omega)
  rw [hwindow, if_pos ⟨by dsimp only; omega, by dsimp only; omega, by dsimp only; omega, by dsimp only; omega⟩,
    PixelFormat.components_kept_iff pf hfits] at hshown'
  exact hshown'.elim (fun hkeep => hkeep hlost) hxy

/-- The colours of an image come back if and only if the format is not one whose upper byte is lost, or the image
has no colour in that byte. -/
theorem zrle_roundTrip (hz : zlib.Delivers Sync) {zos : σ} {zis : τ} (hsync : Sync zos zis) {pf : PixelFormat}
    (hfits : pf.Fits) (image : Nat → Nat → Card pf.bpp) :
    RoundTrips zlib Sync pf image zos zis ↔
      ¬ pf.UpperByteLost ∨ ∀ x y, pf.UpperUnused (pf.value (image x y)) := by
  constructor
  · intro h
    by_contra hnot
    obtain ⟨hlost, hused⟩ := not_or.mp hnot
    obtain ⟨x, hx⟩ := not_forall.mp hused
    obtain ⟨y, hxy⟩ := not_forall.mp hx
    have hline : worstCaseLine (pf.cpixel.size pf.bpp) 1 ≤ maxLen := by
      have hsize := (pf.cpixel.size_le pf.bpp).2
      generalize pf.cpixel.size pf.bpp = size at hsize ⊢
      interval_cases size <;> decide
    exact not_roundTrips hz hsync hfits (not_not.mp hlost) hxy h
  · intro hcond r
    have hpix : ∀ x y, pf.components (pf.value (pf.cpixel.kept (image x y))) = pf.components (pf.value (image x y)) :=
      fun x y => (PixelFormat.components_kept_iff pf hfits _).mpr (hcond.imp id fun h => h x y)
    have hreads : (0 < r.h → worstCaseLine (pf.cpixel.size pf.bpp) r.w ≤ maxLen) → ∀ written,
        writeRect zlib pf image r zos = some written → ∀ window rest, ∃ window' zis',
        readRect zlib pf written.actual window zis (written.bytes ++ rest) = some (window', zis', rest) ∧
        Sync written.zos zis' ∧ ∀ x y, written.actual.x ≤ x → x < written.actual.x + written.actual.w →
          written.actual.y ≤ y → y < written.actual.y + written.actual.h →
          pf.components (pf.value (window' (x, y))) = pf.components (pf.value (image x y)) := by
      intro hline written hwrite window rest
      obtain ⟨written', hwrite', -, hread⟩ := readRect_writeRect hz pf image r hline hsync
      rw [hwrite] at hwrite'
      cases hwrite'
      obtain ⟨window', zis', hread', hsync', hwindow⟩ := hread window rest
      refine ⟨window', zis', hread', hsync', fun x y hx hx' hy hy' => ?_⟩
      rw [hwindow, if_pos ⟨hx, hx', hy, hy'⟩, hpix]
    refine ⟨fun hline => ?_, fun written hwrite => ?_⟩
    · obtain ⟨written, hwrite, -⟩ := readRect_writeRect hz pf image r (fun _ => hline) hsync
      rw [hwrite]
      rfl
    · apply hreads
      · intro hpos
        by_contra hwide
        rw [writeRect_wide pf image hpos (Nat.lt_of_not_le hwide)] at hwrite
        cases hwrite
      · exact hwrite

/-- Streams that do not compress. -/
def stored : Zlib Unit Unit where
  deflate := fun _ bytes => (bytes, ())
  inflate := fun _ bytes => (bytes, ())

theorem stored_delivers : stored.Delivers fun _ _ => True where
  nil := fun _ => rfl
  append := fun _ _ _ => rfl
  delivers := fun _ _ _ _ => ⟨rfl, trivial⟩
  length_le := by
    intro _ bytes
    show bytes.length ≤ 2 * bytes.length + 64
    omega

/-- Eight bits for each colour, those of red from bit `shift` on. -/
def rgb888 (shift : Nat) : PixelFormat where
  bpp := .bpp32
  bigEndian := false
  redMax := 255
  greenMax := 255
  blueMax := 255
  redShift := shift
  greenShift := shift - 8
  blueShift := shift - 16

theorem rgb888_fits : ∀ shift ≤ 24, (rgb888 shift).Fits := by
  simp only [PixelFormat.Fits, PixelFormat.Each, rgb888, Bpp.size]
  decide

theorem zrle_roundTrip_low :
    RoundTrips stored (fun _ _ => True) (rgb888 16) (fun _ _ => (0x00ff0000 : BitVec 32)) () () :=
  (zrle_roundTrip stored_delivers trivial (rgb888_fits 16 (by decide)) _).mpr
    (.inl fun h => h.2.1 (by simp [PixelFormat.Each, rgb888]))

theorem red_lost : ¬ RoundTrips stored (fun _ _ => True) (rgb888 24) (fun _ _ => (0xff000000 : BitVec 32)) () () := by
  have hlost : (rgb888 24).UpperByteLost := by
    refine ⟨rfl, ?_, ?_, fun h => Bool.false_ne_true h.1⟩
    · simp [PixelFormat.Each, rgb888]
    · simp [PixelFormat.Each, rgb888]
  apply not_roundTrips stored_delivers trivial (rgb888_fits 24 le_rfl) hlost (x := 0) (y := 0)
  intro h
  have hred := h.1
  revert hred
  decide

end Colama.Vnc4.Zrle

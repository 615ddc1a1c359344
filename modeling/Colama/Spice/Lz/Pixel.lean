import Mathlib
import Colama.Spice.Lz.Common

namespace Colama.Spice.Lz

structure Rgb24Pixel where
  b : UInt8
  g : UInt8
  r : UInt8
  deriving DecidableEq, Repr

structure Rgb32Pixel where
  b : UInt8
  g : UInt8
  r : UInt8
  pad : UInt8
  deriving DecidableEq, Repr

/-- What the macros of the two templates are for one pixel type, decompressed to the same type.

`load` and `store` are the layout of `PIXEL` in memory. `compPixel` and `copyPixel` give the new value
of an output pixel from its old value and from what is written to it: the compressed bytes in the
order in which they are read, or another output pixel. `Restores old p out` says when `out`, written
over `old`, counts as the pixel `p` again. -/
structure PixelKind where
  Pixel : Type
  size : Nat
  load : List UInt8 → Pixel
  store : Pixel → List UInt8
  encodePixel : Pixel → List UInt8
  compSize : Nat
  compPixel : Pixel → List UInt8 → Pixel
  copyPixel : Pixel → Pixel → Pixel
  samePixel : Pixel → Pixel → Bool
  hashBytes : Pixel → List UInt8
  /-- The pixels that a match with the dictionary has at least, and how many more a far one. -/
  minLen : Nat
  farLen : Nat
  Restores : Pixel → Pixel → Pixel → Prop
  size_pos : 0 < size
  minLen_pos : 0 < minLen
  minLen_le : minLen ≤ 3
  farLen_pos : 0 < farLen
  farLen_le : farLen ≤ 2
  load_congr : ∀ {bs cs}, (∀ j < size, bs.getD j 0 = cs.getD j 0) → load bs = load cs
  load_store : ∀ p bs, load (store p ++ bs) = p
  store_length : ∀ p, (store p).length = size
  encodePixel_length : ∀ p, (encodePixel p).length = compSize
  samePixel_equiv : Equivalence fun p q => samePixel p q = true
  compPixel_encodePixel : ∀ old p, Restores old p (compPixel old (encodePixel p))
  copyPixel_restores : ∀ {old old' p q out}, samePixel p q = true → Restores old' q out →
    Restores old p (copyPixel old out)

namespace PixelKind

/-- Pixels compared by what a function reads of them. -/
theorem equiv_of_key {P κ : Type} [DecidableEq κ] (key : P → κ) :
    Equivalence fun p q => decide (key p = key q) = true where
  refl _ := decide_eq_true rfl
  symm h := decide_eq_true (of_decide_eq_true h).symm
  trans h₁ h₂ := decide_eq_true ((of_decide_eq_true h₁).trans (of_decide_eq_true h₂))

/-- `LZ_PLT`. -/
def plt : PixelKind where
  Pixel := UInt8
  size := 1
  load bs := bs.getD 0 0
  store p := [p]
  encodePixel p := [p]
  compSize := 1
  compPixel _ bs := bs.getD 0 0
  copyPixel _ p := p
  samePixel p q := decide (p = q)
  hashBytes p := [p]
  minLen := 3
  farLen := 2
  Restores _ p out := out = p
  size_pos := by decide
  minLen_pos := by decide
  minLen_le := by decide
  farLen_pos := by decide
  farLen_le := by decide
  load_congr h := h 0 (by decide)
  load_store _ _ := rfl
  store_length _ := rfl
  encodePixel_length _ := rfl
  samePixel_equiv := equiv_of_key id
  compPixel_encodePixel _ _ := rfl
  copyPixel_restores h e := e.trans (of_decide_eq_true h).symm

/-- The components that `GET_r`, `GET_g` and `GET_b` take from a 16 bit pixel. -/
def rgb16Components (p : UInt16) : UInt16 × UInt16 × UInt16 :=
  ((p >>> 10) &&& 0x1f, (p >>> 5) &&& 0x1f, p &&& 0x1f)

theorem toNat_and_two_pow_sub_one (p m : UInt16) (n : Nat) (h : m.toNat = 2 ^ n - 1) :
    (p &&& m).toNat = p.toNat % 2 ^ n := by
  rw [UInt16.toNat_and, h, Nat.and_two_pow_sub_one_eq_mod]

theorem rgb16Components_eq_iff (p q : UInt16) :
    rgb16Components p = rgb16Components q ↔ p &&& 0x7fff = q &&& 0x7fff := by
  have h5 : ∀ r : UInt16, (r &&& 0x1f).toNat = r.toNat % 32 :=
    fun r => toNat_and_two_pow_sub_one r 0x1f 5 rfl
  have h15 : ∀ r : UInt16, (r &&& 0x7fff).toNat = r.toNat % 32768 :=
    fun r => toNat_and_two_pow_sub_one r 0x7fff 15 rfl
  have s10 : ∀ r : UInt16, (r >>> 10).toNat = r.toNat / 1024 := fun r => by
    rw [UInt16.toNat_shiftRight, Nat.shiftRight_eq_div_pow]
    rfl
  have s5 : ∀ r : UInt16, (r >>> 5).toNat = r.toNat / 32 := fun r => by
    rw [UInt16.toNat_shiftRight, Nat.shiftRight_eq_div_pow]
    rfl
  simp only [rgb16Components, Prod.mk.injEq, ← UInt16.toNat_inj, h5, h15, s10, s5]
  omega

/-- A 16 bit pixel is put together from its two bytes. -/
theorem rgb16_of_bytes (p : UInt16) :
    ((p >>> 8).toUInt8).toUInt16 <<< 8 ||| (p.toUInt8).toUInt16 = p := by
  have h8 : (8 : UInt16).toNat % 16 = 8 := rfl
  have hp := p.toNat_lt
  rw [← UInt16.toNat_inj, UInt16.toNat_or, UInt16.toNat_shiftLeft, UInt8.toNat_toUInt16,
    UInt8.toNat_toUInt16, UInt16.toNat_toUInt8, UInt16.toNat_toUInt8, UInt16.toNat_shiftRight, h8,
    Nat.shiftRight_eq_div_pow, Nat.mod_eq_of_lt (by rw [Nat.shiftLeft_eq]; omega),
    ← Nat.shiftLeft_add_eq_or_of_lt (by omega), Nat.shiftLeft_eq]
  omega

/-- `LZ_RGB16`; the bytes of a compressed pixel are read from left to right. -/
def rgb16 : PixelKind where
  Pixel := UInt16
  size := 2
  load bs := (bs.getD 1 0).toUInt16 <<< 8 ||| (bs.getD 0 0).toUInt16
  store p := [p.toUInt8, (p >>> 8).toUInt8]
  encodePixel p := [(p >>> 8).toUInt8, (p &&& 0xff).toUInt8]
  compSize := 2
  compPixel _ bs := (bs.getD 0 0).toUInt16 <<< 8 ||| (bs.getD 1 0).toUInt16
  copyPixel _ p := p
  samePixel p q := decide (rgb16Components p = rgb16Components q)
  hashBytes p := [(p &&& 0xff).toUInt8, ((p >>> 8) &&& 0x7f).toUInt8]
  minLen := 2
  farLen := 1
  Restores _ p out := out &&& 0x7fff = p &&& 0x7fff
  size_pos := by decide
  minLen_pos := by decide
  minLen_le := by decide
  farLen_pos := by decide
  farLen_le := by decide
  load_congr h := by rw [h 0 (by decide), h 1 (by decide)]
  load_store p _ := rgb16_of_bytes p
  store_length _ := rfl
  encodePixel_length _ := rfl
  samePixel_equiv := equiv_of_key rgb16Components
  compPixel_encodePixel _ p := by
    have h : (p &&& 0xff).toUInt8 = p.toUInt8 := by
      rw [← UInt8.toNat_inj, UInt16.toNat_toUInt8, UInt16.toNat_toUInt8,
        toNat_and_two_pow_sub_one p 0xff 8 rfl, Nat.mod_mod]
    simp only [List.getD_cons_zero, List.getD_cons_succ, h, rgb16_of_bytes]
  copyPixel_restores h e :=
    e.trans ((rgb16Components_eq_iff _ _).mp (of_decide_eq_true h)).symm

/-- `LZ_RGB24`. -/
def rgb24 : PixelKind where
  Pixel := Rgb24Pixel
  size := 3
  load bs := ⟨bs.getD 0 0, bs.getD 1 0, bs.getD 2 0⟩
  store p := [p.b, p.g, p.r]
  encodePixel p := [p.b, p.g, p.r]
  compSize := 3
  compPixel _ bs := ⟨bs.getD 0 0, bs.getD 1 0, bs.getD 2 0⟩
  copyPixel _ p := p
  samePixel p q := decide ((p.r, p.g, p.b) = (q.r, q.g, q.b))
  hashBytes p := [p.r, p.g, p.b]
  minLen := 1
  farLen := 1
  Restores _ p out := out = p
  size_pos := by decide
  minLen_pos := by decide
  minLen_le := by decide
  farLen_pos := by decide
  farLen_le := by decide
  load_congr h := by rw [h 0 (by decide), h 1 (by decide), h 2 (by decide)]
  load_store _ _ := rfl
  store_length _ := rfl
  encodePixel_length _ := rfl
  samePixel_equiv := equiv_of_key fun p : Rgb24Pixel => (p.r, p.g, p.b)
  compPixel_encodePixel _ _ := rfl
  copyPixel_restores {_ _ p q _} h e := by
    cases p
    cases q
    simp_all

/-- `LZ_RGB32`. -/
def rgb32 : PixelKind where
  Pixel := Rgb32Pixel
  size := 4
  load bs := ⟨bs.getD 0 0, bs.getD 1 0, bs.getD 2 0, bs.getD 3 0⟩
  store p := [p.b, p.g, p.r, p.pad]
  encodePixel p := [p.b, p.g, p.r]
  compSize := 3
  compPixel _ bs := ⟨bs.getD 0 0, bs.getD 1 0, bs.getD 2 0, 0⟩
  copyPixel _ p := p
  samePixel p q := decide ((p.r, p.g, p.b) = (q.r, q.g, q.b))
  hashBytes p := [p.r, p.g, p.b]
  minLen := 1
  farLen := 1
  Restores _ p out := out = { p with pad := 0 }
  size_pos := by decide
  minLen_pos := by decide
  minLen_le := by decide
  farLen_pos := by decide
  farLen_le := by decide
  load_congr h := by rw [h 0 (by decide), h 1 (by decide), h 2 (by decide), h 3 (by decide)]
  load_store _ _ := rfl
  store_length _ := rfl
  encodePixel_length _ := rfl
  samePixel_equiv := equiv_of_key fun p : Rgb32Pixel => (p.r, p.g, p.b)
  compPixel_encodePixel _ _ := rfl
  copyPixel_restores {_ _ p q _} h e := by
    cases p
    cases q
    simp_all

/-- `LZ_RGB_ALPHA`: only the `pad` byte is read and written. -/
def rgbAlpha : PixelKind where
  Pixel := Rgb32Pixel
  size := 4
  load := rgb32.load
  store := rgb32.store
  encodePixel p := [p.pad]
  compSize := 1
  compPixel old bs := { old with pad := bs.getD 0 0 }
  copyPixel old p := { old with pad := p.pad }
  samePixel p q := decide (p.pad = q.pad)
  hashBytes p := [p.pad]
  minLen := 3
  farLen := 2
  Restores old p out := out = { old with pad := p.pad }
  size_pos := by decide
  minLen_pos := by decide
  minLen_le := by decide
  farLen_pos := by decide
  farLen_le := by decide
  load_congr := rgb32.load_congr
  load_store := rgb32.load_store
  store_length := rgb32.store_length
  encodePixel_length _ := rfl
  samePixel_equiv := equiv_of_key Rgb32Pixel.pad
  compPixel_encodePixel _ _ := rfl
  copyPixel_restores h e := by simp_all

variable (k : PixelKind)

/-- The pixel `i` of a buffer. -/
def pixel (bs : List UInt8) (i : Nat) : k.Pixel := k.load (bs.drop (i * k.size))

end PixelKind

end Colama.Spice.Lz

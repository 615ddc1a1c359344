import Mathlib.Data.Nat.Size
import Colama.Xvnc.Pixels

namespace Colama.Xvnc

/-- `rfbPixelFormat`, with a number of bits per pixel that `rfbSetTranslateFunction` lets through. -/
structure PixelFormat where
  bpp : Bpp
  depth : UInt8
  bigEndian : Bool
  trueColour : Bool
  redMax : UInt16
  greenMax : UInt16
  blueMax : UInt16
  redShift : UInt8
  greenShift : UInt8
  blueShift : UInt8

variable {inBpp outBpp : Bpp}

def swap16 (s : BitVec 16) : BitVec 16 := (s &&& 0xff) <<< 8 ||| (s >>> 8 &&& 0xff)

def swap32 (l : BitVec 32) : BitVec 32 :=
  l >>> 24 ||| (l &&& 0x00ff0000) >>> 8 ||| (l &&& 0x0000ff00) <<< 8 ||| l <<< 24

/-- `SwapOUT`. There is none for 8 bits. -/
def Card.swap : {bpp : Bpp} → Card bpp → Card bpp
  | .bpp8, pix => pix
  | .bpp16, pix => swap16 pix
  | .bpp32, pix => swap32 pix

/-- The component of a pixel. -/
def component (pix : Nat) (shift : UInt8) (max : UInt16) : Nat := pix >>> shift.toNat &&& max.toNat

/-- The component in the other format, an `int`. -/
def scale (inMax outMax : UInt16) (c : Nat) : Int32 :=
  (Int32.ofNat c * Int32.ofNat outMax.toNat + Int32.ofNat (inMax.toNat / 2)) / Int32.ofNat inMax.toNat

/-- The loops over the lines and the pixels of a rectangle. The lines of the input are `stride` pixels apart. -/
def translateRect (pixel : Card inBpp → Card outBpp) (ip : Nat → Card inBpp) (stride width height : Nat) :
    List (Card outBpp) :=
  (List.range height).flatMap fun y => (List.range width).map fun x => pixel (ip (y * stride + x))

/-- A component as it should be. -/
def scaled (inMax outMax : UInt16) (c : Nat) : Nat := (c * outMax.toNat + inMax.toNat / 2) / inMax.toNat

/-- The bits of a component, the last one left out. -/
def endBit (max : UInt16) (shift : UInt8) : Nat := shift.toNat + max.toNat.size

/-- A component has bits, and all of them are in the pixel. -/
abbrev ComponentFits (bpp : Bpp) (max : UInt16) (shift : UInt8) : Prop :=
  0 < max.toNat ∧ endBit max shift ≤ 8 * bpp.size

abbrev BitsApart (max max' : UInt16) (shift shift' : UInt8) : Prop :=
  endBit max shift ≤ shift'.toNat ∨ endBit max' shift' ≤ shift.toNat

/-- A format with bits of their own for each component. -/
structure PixelFormat.Fits (fmt : PixelFormat) : Prop where
  trueColour : fmt.trueColour
  red : ComponentFits fmt.bpp fmt.redMax fmt.redShift
  green : ComponentFits fmt.bpp fmt.greenMax fmt.greenShift
  blue : ComponentFits fmt.bpp fmt.blueMax fmt.blueShift
  redGreen : BitsApart fmt.redMax fmt.greenMax fmt.redShift fmt.greenShift
  redBlue : BitsApart fmt.redMax fmt.blueMax fmt.redShift fmt.blueShift
  greenBlue : BitsApart fmt.greenMax fmt.blueMax fmt.greenShift fmt.blueShift

/-- No product overflows `int` where a component leaves room for two others in 16 bits. -/
theorem scale_eq {inMax outMax : UInt16} {c : Nat} (hpos : 0 < inMax.toNat) (hsize : inMax.toNat.size ≤ 14)
    (hc : c ≤ inMax.toNat) : scale inMax outMax c = Int32.ofNat (scaled inMax outMax c) := by
  have hin : inMax.toNat < 2 ^ 14 := Nat.size_le.mp hsize
  have hout : outMax.toNat < 2 ^ 16 := outMax.toNat_lt
  have hmul : c * outMax.toNat ≤ 2 ^ 14 * 2 ^ 16 := Nat.mul_le_mul (by omega) hout.le
  have hsum : c * outMax.toNat + inMax.toNat / 2 < 2 ^ 31 := by omega
  rw [scale, scaled, ← Int32.ofNat_mul, ← Int32.ofNat_add, Int32.ofNat_div hsum (by omega)]

/-- Of 16 bits, two are left to the other components. -/
theorem PixelFormat.Fits.size_le {fmt : PixelFormat} (h : fmt.Fits) (hbpp : fmt.bpp ≠ .bpp32) :
    fmt.redMax.toNat.size ≤ 14 ∧ fmt.greenMax.toNat.size ≤ 14 ∧ fmt.blueMax.toNat.size ≤ 14 := by
  have hbits : 8 * fmt.bpp.size ≤ 16 := by
    cases hb : fmt.bpp with
    | bpp8 => decide
    | bpp16 => decide
    | bpp32 => exact absurd hb hbpp
  obtain ⟨-, ⟨hr, hr'⟩, ⟨hg, hg'⟩, ⟨hb, hb'⟩, hrg, hrb, hgb⟩ := h
  have hr₁ := Nat.size_pos.mpr hr
  have hg₁ := Nat.size_pos.mpr hg
  have hb₁ := Nat.size_pos.mpr hb
  simp only [BitsApart, endBit] at *
  omega

end Colama.Xvnc

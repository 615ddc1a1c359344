import Colama.Spice.Glz.PaletteScan

namespace Colama.Spice

open Lib
open Lz.Decoder (Palette PltFormat)

/-- No entry that `decompress` reads is behind the last one of the palette. -/
def Lz.Decoder.ReadsInside (palette : Palette) (k : PltFormat) (size : Int) (input : Lz.In)
    (out : Nat → (k.template palette).Pixel) : Prop :=
  ∀ s, decompress (k.checked palette) size (initial (k.checked palette) input out) ≠ .error .fault s

/-- No entry that `decode` reads is behind the last one of the palette. -/
def Glz.Decoder.ReadsInside (palette : Palette) (k : PltFormat) (debug : Bool) (size : Int)
    (old : Nat → (k.template palette).Pixel) (images : RefImages (k.template palette).Pixel) (inBuf : List UInt8) : Prop :=
  ∀ s, decode (k.checked palette) debug size old images ⟨inBuf, []⟩ ≠ .error .outsidePalette s

variable {palette : Palette} {k : PltFormat} {size : Int}

theorem Lz.Decoder.checked_guards (h : 1 ≤ palette.numEnts.toNat) (input : Lz.In)
    (out : Nat → (k.template palette).Pixel) :
    Guards DecoderState.place (k.Inside palette) .fault (initial (k.template palette) input out)
      (decompress (k.checked palette) size) (decompress (k.template palette) size) (scanStream k.pixelsPerByte size) := by
  rw [← k.template_scale palette]
  exact decompress_guards (k.Inside palette) (PltFormat.template_oneByte h k)

theorem Glz.Decoder.checked_guards (h : 1 ≤ palette.numEnts.toNat) (debug : Bool)
    (old : Nat → (k.template palette).Pixel) (images : RefImages (k.template palette).Pixel) (inBuf : List UInt8) :
    Guards DecodeState.place (k.Inside palette) .outsidePalette ⟨inBuf, []⟩
      (decode (k.checked palette) debug size old images) (decode (k.template palette) debug size old images)
      (scanStream k.pixelsPerByte debug size images.refLength) := by
  have hg := decode_guards debug size old images (k.Inside palette) ⟨inBuf, []⟩ (PltFormat.template_oneByte h k)
  rwa [k.template_scale palette] at hg

/-- Both decoders stay inside the palette where each byte of the stream that they look up meets what the format asks
of it. -/
theorem paletteLookups_inside_iff (palette : Palette) (h : 1 ≤ palette.numEnts.toNat) (k : PltFormat) (size : Int)
    (input : Lz.In) (out : Nat → (k.template palette).Pixel) (debug : Bool) (old : Nat → (k.template palette).Pixel)
    (images : Glz.Decoder.RefImages (k.template palette).Pixel) (inBuf : List UInt8) :
    (Lz.Decoder.ReadsInside palette k size input out ↔
      ∀ b ∈ Lz.Decoder.literalBytes k.pixelsPerByte size input, k.Meets palette b) ∧
    (Glz.Decoder.ReadsInside palette k debug size old images inBuf ↔
      ∀ b ∈ Glz.Decoder.literalBytes k.pixelsPerByte debug size images.refLength inBuf, k.Meets palette b) := by
  simp only [← PltFormat.inside_iff h]
  exact ⟨(Lz.Decoder.checked_guards h input out).no_fault_iff,
    (Glz.Decoder.checked_guards h debug old images inBuf).no_fault_iff⟩

/-- A palette of `n` entries, all of them black. -/
def blackPalette (n : UInt16) : Palette := ⟨n, fun _ => 0⟩

def noImages : Glz.Decoder.RefImages Lz.Rgb32Pixel := ⟨.new, 0, fun _ => []⟩

theorem paletteLookups_inside_iff_two :
    (Lz.Decoder.ReadsInside (blackPalette 2) .plt8 2 ⟨[1, 1, 0], []⟩ (fun _ => (⟨0, 0, 0, 0⟩ : Lz.Rgb32Pixel)) ↔
      ∀ b ∈ Lz.Decoder.literalBytes 1 2 ⟨[1, 1, 0], []⟩, PltFormat.plt8.Meets (blackPalette 2) b) ∧
    (Glz.Decoder.ReadsInside (blackPalette 2) .plt8 false 2 (fun _ => (⟨0, 0, 0, 0⟩ : Lz.Rgb32Pixel)) noImages [1, 1, 0] ↔
      ∀ b ∈ Glz.Decoder.literalBytes 1 false 2 noImages.refLength [1, 1, 0], PltFormat.plt8.Meets (blackPalette 2) b) :=
  paletteLookups_inside_iff (blackPalette 2) (by decide) .plt8 2 _ _ false _ noImages _

/-- One literal: the byte 5 with a palette of one entry, and any byte of one bit a pixel with it. -/
theorem not_readsInside_onePalette :
    ¬Lz.Decoder.ReadsInside (blackPalette 1) .plt8 1 ⟨[0, 5], []⟩ (fun _ => (⟨0, 0, 0, 0⟩ : Lz.Rgb32Pixel)) ∧
    ¬Lz.Decoder.ReadsInside (blackPalette 1) .plt1Be 8 ⟨[0, 0], []⟩ (fun _ => (⟨0, 0, 0, 0⟩ : Lz.Rgb32Pixel)) ∧
    ¬Glz.Decoder.ReadsInside (blackPalette 1) .plt8 false 1 (fun _ => (⟨0, 0, 0, 0⟩ : Lz.Rgb32Pixel)) noImages [0, 5] ∧
    ¬Glz.Decoder.ReadsInside (blackPalette 1) .plt1Be false 8 (fun _ => (⟨0, 0, 0, 0⟩ : Lz.Rgb32Pixel)) noImages
      [0, 0] :=
  ⟨fun h => h _ rfl, fun h => h _ rfl, fun h => h _ rfl, fun h => h _ rfl⟩

end Colama.Spice

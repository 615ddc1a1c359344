import Colama.Lib.Scan
import Colama.Spice.Lz.TemplateSpec

namespace Colama.Spice.Lz.Decoder

open Lib Template

/-- The inclusions of the template that look pixels up in a palette. -/
inductive PltFormat
  | plt8 | plt4Be | plt4Le | plt1Be | plt1Le
  deriving DecidableEq

/-- The same template with a check of the bytes of each unit. -/
abbrev Template.guard (t : Template) (ok : List UInt8 → Prop) [DecidablePred ok] : Template :=
  { t with
    comp := fun bs => if ok bs then t.comp bs else none
    comp_length := fun {bs ps} h => by
      by_cases hok : ok bs
      · rw [if_pos hok] at h
        exact t.comp_length h
      · rw [if_neg hok] at h
        cases h }

namespace PltFormat

def template (palette : Palette) : PltFormat → Template
  | plt8 => plt8ToRgb32 palette
  | plt4Be => plt4BeToRgb32 palette
  | plt4Le => plt4LeToRgb32 palette
  | plt1Be => plt1BeToRgb32 palette
  | plt1Le => plt1LeToRgb32 palette

/-- The pixels of a byte, by which `CAST_PLT_DISTANCE` multiplies. -/
def pixelsPerByte : PltFormat → UInt32
  | plt8 => 1
  | plt4Be | plt4Le => 2
  | plt1Be | plt1Le => 8

theorem template_scale (palette : Palette) (k : PltFormat) : (k.template palette).scale = k.pixelsPerByte := by
  cases k <;> rfl

/-- The entries that `COPY_COMP_PIXEL` reads for a byte, in the order in which it does. -/
def lookups (numEnts : Nat) (byte : UInt8) : PltFormat → List Nat
  | plt8 => [byte.toNat]
  | plt4Be => [((byte >>> 4) &&& 0x0f).toNat % numEnts, (byte &&& 0x0f).toNat % numEnts]
  | plt4Le => [(byte &&& 0x0f).toNat % numEnts, ((byte >>> 4) &&& 0x0f).toNat % numEnts]
  | plt1Be | plt1Le => [1, 0]

/-- All entries that are read for the byte are entries of the palette. -/
def Inside (palette : Palette) (k : PltFormat) (byte : UInt8) : Prop :=
  ∀ i ∈ k.lookups palette.numEnts.toNat byte, i < palette.numEnts.toNat

instance (palette : Palette) (k : PltFormat) : DecidablePred (k.Inside palette) := fun _ =>
  inferInstanceAs (Decidable (∀ i ∈ _, _))

/-- The template with a palette of which there is nothing behind the last entry: to read there is a fault. -/
abbrev checked (palette : Palette) (k : PltFormat) : Template :=
  (k.template palette).guard fun bs => k.Inside palette (bs.getD 0 0)

/-- What the byte of a unit has to meet: nothing, where the index is taken modulo the number of the entries. -/
def Meets (palette : Palette) (byte : UInt8) : PltFormat → Prop
  | plt8 => byte.toNat < palette.numEnts.toNat
  | plt4Be | plt4Le => True
  | plt1Be | plt1Le => 2 ≤ palette.numEnts.toNat

theorem inside_iff {palette : Palette} (h : 1 ≤ palette.numEnts.toNat) (k : PltFormat) (byte : UInt8) :
    k.Inside palette byte ↔ k.Meets palette byte := by
  have hmod (n : Nat) : n % palette.numEnts.toNat < palette.numEnts.toNat := Nat.mod_lt _ h
  cases k with
  | plt8 => simp [Inside, Meets, lookups]
  | plt4Be | plt4Le => simp [Inside, Meets, lookups, hmod]
  | plt1Be | plt1Le =>
    simp only [Inside, Meets, lookups, List.mem_cons, List.not_mem_nil, or_false, forall_eq_or_imp, forall_eq]
    omega

theorem plt4ToRgb32_total {palette : Palette} (h : palette.numEnts ≠ 0) (first second : UInt8 → UInt8) (b : UInt8) :
    ∃ ps, (plt4ToRgb32 palette first second).comp [b] = some ps := by
  have hentry (bits : UInt8) : ∃ p, plt4Entry palette bits = some p := ⟨_, if_neg h⟩
  obtain ⟨p, hp⟩ := hentry (first b)
  obtain ⟨q, hq⟩ := hentry (second b)
  exact ⟨[p, q], Option.bind_eq_some_iff.mpr ⟨p, hp, Option.bind_eq_some_iff.mpr ⟨q, hq, rfl⟩⟩⟩

theorem plt1ToRgb32_total (palette : Palette) (order : Fin 8 → UInt8) (b : UInt8) :
    ∃ ps, (plt1ToRgb32 palette order).comp [b] = some ps := ⟨_, rfl⟩

/-- A template of which each unit is one byte. -/
structure OneByte (t : Template) : Prop where
  bytes : t.bytes = 1
  whole : t.fieldwise = false
  lenBias : t.lenBias = 3
  total : ∀ b, ∃ ps, t.comp [b] = some ps

theorem template_oneByte {palette : Palette} (h : 1 ≤ palette.numEnts.toNat) (k : PltFormat) :
    OneByte (k.template palette) := by
  have hne : palette.numEnts ≠ 0 := by
    intro h0
    rw [h0] at h
    exact absurd h (by decide)
  cases k with
  | plt8 => exact ⟨rfl, rfl, rfl, fun b => ⟨_, rfl⟩⟩
  | plt4Be => exact ⟨rfl, rfl, rfl, plt4ToRgb32_total hne (fun byte => (byte >>> 4) &&& 0x0f) (· &&& 0x0f)⟩
  | plt4Le => exact ⟨rfl, rfl, rfl, plt4ToRgb32_total hne (· &&& 0x0f) fun byte => (byte >>> 4) &&& 0x0f⟩
  | plt1Be => exact ⟨rfl, rfl, rfl, plt1ToRgb32_total palette fun i => UInt8.ofNat (7 - i)⟩
  | plt1Le => exact ⟨rfl, rfl, rfl, plt1ToRgb32_total palette fun i => UInt8.ofNat i⟩

end PltFormat

end Colama.Spice.Lz.Decoder

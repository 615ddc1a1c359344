import Colama.Spice.RegionTest

namespace Colama.Spice

/-- Some point lies in the box. -/
def Box.Nonempty (b : Box) : Prop := ∃ x y, b.Mem x y

/-- Some point lies in both boxes. -/
def Box.Overlap (b b' : Box) : Prop := ∃ x y, b.Mem x y ∧ b'.Mem x y

namespace Box

variable {b b' : Box}

theorem nonempty_iff : b.Nonempty ↔ b.x1 < b.x2 ∧ b.y1 < b.y2 := by
  constructor
  · rintro ⟨x, y, h⟩
    unfold Mem at h
    omega
  · exact fun h => ⟨b.x1, b.y1, le_rfl, h.1, le_rfl, h.2⟩

theorem Overlap.symm (h : b.Overlap b') : b'.Overlap b := by
  obtain ⟨x, y, hb, hb'⟩ := h
  exact ⟨x, y, hb', hb⟩

theorem Overlap.nonempty (h : b.Overlap b') : b.Nonempty := by
  obtain ⟨x, y, hb, -⟩ := h
  exact ⟨x, y, hb⟩

end Box

variable (rgn : Nat → QRegion) (rgn1 rgn2 : Nat)

theorem regionBoundsIntersects_iff :
    regionBoundsIntersects rgn rgn1 rgn2 = true ↔ (rgn rgn1).extents.Nonempty := by
  rw [regionBoundsIntersects, extentCheck_iff, Box.nonempty_iff]
  omega

/-- For the two regions the function is an exact and symmetric test of their extents. -/
structure PreFilters : Prop where
  overlap : regionBoundsIntersects rgn rgn1 rgn2 = true ↔ (rgn rgn1).extents.Overlap (rgn rgn2).extents
  symm : regionBoundsIntersects rgn rgn1 rgn2 = regionBoundsIntersects rgn rgn2 rgn1
  disjoint : ¬(rgn rgn1).extents.Overlap (rgn rgn2).extents → regionBoundsIntersects rgn rgn1 rgn2 = false

theorem preFilters_iff : PreFilters rgn rgn1 rgn2 ↔
    ¬(rgn rgn1).extents.Nonempty ∧ ¬(rgn rgn2).extents.Nonempty ∨
      (rgn rgn1).extents.Overlap (rgn rgn2).extents := by
  have h1 := regionBoundsIntersects_iff rgn rgn1 rgn2
  have h2 := regionBoundsIntersects_iff rgn rgn2 rgn1
  constructor
  · intro h
    by_cases ho : (rgn rgn1).extents.Overlap (rgn rgn2).extents
    · exact .inr ho
    · have hfalse := h.disjoint ho
      refine .inl ⟨fun hn => ?_, fun hn => ?_⟩
      · rw [h1.mpr hn] at hfalse
        cases hfalse
      · rw [h.symm, h2.mpr hn] at hfalse
        cases hfalse
  · rintro (⟨he1, he2⟩ | ho)
    · have hf1 := Bool.eq_false_iff.mpr (h1.not.mpr he1)
      have hf2 := Bool.eq_false_iff.mpr (h2.not.mpr he2)
      exact ⟨h1.trans ⟨fun hn => absurd hn he1, Box.Overlap.nonempty⟩, hf1.trans hf2.symm, fun _ => hf1⟩
    · have ht1 := h1.mpr ho.nonempty
      have ht2 := h2.mpr ho.symm.nonempty
      exact ⟨h1.trans ⟨fun _ => ho, Box.Overlap.nonempty⟩, ht1.trans ht2.symm, fun hn => absurd ho hn⟩

/-- The rectangles `(0, 0)-(10, 10)` and `(20, 20)-(30, 30)` pass although they are apart. -/
theorem not_preFilters_apart :
    ¬PreFilters (fun n => if n = 0 then ⟨⟨0, 0, 10, 10⟩, none⟩ else ⟨⟨20, 20, 30, 30⟩, none⟩) 0 1 := by
  rw [preFilters_iff]
  rintro (⟨he, -⟩ | ⟨x, y, hx, hy⟩)
  · exact he (Box.nonempty_iff.mpr ⟨by decide, by decide⟩)
  · simp only [if_true, Nat.one_ne_zero, if_false, Box.Mem] at hx hy
    omega

end Colama.Spice

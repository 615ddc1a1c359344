import Colama.Lib.Bitwise
import Colama.Spice.Duplicates

namespace Colama.Spice

open Lib

variable {w : Nat} (canvas : Canvas w)

theorem SpiceROP.apply_bitwise (rop : SpiceROP) (src : BitVec w) : Bitwise (rop.apply src) := by
  have hid : Bitwise fun dst : BitVec w => dst := Bitwise.id
  cases rop with
  | clear => exact .const 0
  | and => exact (Bitwise.const src).and hid
  | andReverse => exact (Bitwise.const src).and hid.not
  | copy => exact .const src
  | andInverted => exact (Bitwise.const (~~~src)).and hid
  | noop => exact hid
  | xor => exact (Bitwise.const src).xor hid
  | or => exact (Bitwise.const src).or hid
  | nor => exact (Bitwise.const (~~~src)).and hid.not
  | equiv => exact (Bitwise.const (~~~src)).xor hid
  | invert => exact hid.not
  | orReverse => exact (Bitwise.const src).or hid.not
  | copyInverted => exact .const (~~~src)
  | orInverted => exact (Bitwise.const (~~~src)).or hid
  | nand => exact (Bitwise.const (~~~src)).or hid.not
  | set => exact .const (BitVec.allOnes w)

theorem SpiceClip.clip_inter (clip : SpiceClip) (rgn rgn' : Region) :
    clip.clip (rgn ∩ rgn') = clip.clip rgn ∩ rgn' := by
  cases clip with
  | none => rfl
  | rects l => exact (Finset.filter_inter _ rgn' (s := rgn)).symm

namespace Canvas

/-- The source pixel of a brush. -/
def source (brush : SpiceBrush) (p : SpicePoint) : BitVec w :=
  match brush with
  | .none => 0
  | .solid color => color.setWidth w
  | .pattern pattern => (canvas.getImage pattern.pat).source pattern.pos p

/-- The raster operations done on one pixel, with their sources, in order. -/
@[grind] def hits (d : RedDrawable) (p : SpicePoint) : List (SpiceROP × BitVec w) :=
  match d.u with
  | .fill fill =>
    let dest := canvas.maskPixman (canvas.clipPixman d.bbox d.clip) fill.mask (d.bbox.left, d.bbox.top)
    if p ∈ dest then [(ropdDescriptorToRop fill.ropDescriptor .brush .dest, canvas.source fill.brush p)]
    else []
  | .stroke stroke =>
    let foreRop := ropdDescriptorToRop stroke.foreMode .brush .dest
    let backRop := ropdDescriptorToRop stroke.backMode .brush .dest
    ((canvas.strokeLines stroke.path stroke.attr).filter fun area =>
        p ∈ area.1 ∩ canvas.clipPixman d.bbox d.clip).map fun area =>
      (if area.2 then foreRop else backRop, canvas.source stroke.brush p)
  | _ => []

/-- What the drawable makes of one pixel. -/
def ink (d : RedDrawable) (p : SpicePoint) (dst : BitVec w) : BitVec w :=
  (canvas.hits d p).foldl (fun dst hit => hit.1.apply hit.2 dst) dst

def paint (d : RedDrawable) (pic : Picture w) : Picture w := canvas.draw d.bbox d.clip pic d.u

def picture (ds : List RedDrawable) (pic : Picture w) : Picture w :=
  ds.foldl (fun pic d => canvas.paint d pic) pic

theorem drawBrush_apply (region : Region) (brush : SpiceBrush) (rop : SpiceROP) (pic : Picture w)
    (p : SpicePoint) : canvas.drawBrush region brush rop pic p =
      if p ∈ region then rop.apply (canvas.source brush p) (pic p) else pic p := by
  cases brush with
  | none => simp [drawBrush, fillSolidRectsRop, source]
  | solid color =>
    by_cases h : rop = .copy
    · simp [drawBrush, fillSolidRects, source, h, SpiceROP.apply]
    · simp [drawBrush, fillSolidRectsRop, source, h]
  | pattern pattern =>
    by_cases h : rop = .copy
    · simp [drawBrush, fillTiledRects, source, h, SpiceROP.apply]
    · simp [drawBrush, fillTiledRectsRop, source, h]

theorem drawFill_apply (d : RedDrawable) (fill : SpiceFill) (h : d.u = .fill fill) (pic : Picture w)
    (p : SpicePoint) : canvas.drawFill d.bbox d.clip fill pic p = canvas.ink d p (pic p) := by
  simp only [drawFill, ink, hits, h]
  generalize canvas.maskPixman (canvas.clipPixman d.bbox d.clip) fill.mask (d.bbox.left, d.bbox.top) = dest
  generalize ropdDescriptorToRop fill.ropDescriptor .brush .dest = rop
  by_cases hn : rop = .noop ∨ dest = ∅
  · rw [if_pos hn]
    rcases hn with rfl | rfl
    · split <;> rfl
    · simp
  · rw [if_neg hn, drawBrush_apply]
    split <;> rfl

theorem foldl_strokeFill (dest : Region) (stroke : SpiceStroke) (p : SpicePoint)
    (lines : List (Region × Bool)) (pic : Picture w) :
    lines.foldl (canvas.strokeFill dest stroke) pic p =
      ((lines.filter fun area => p ∈ area.1 ∩ dest).map fun area =>
        (if area.2 then ropdDescriptorToRop stroke.foreMode .brush .dest
          else ropdDescriptorToRop stroke.backMode .brush .dest, canvas.source stroke.brush p)).foldl
        (fun dst hit => hit.1.apply hit.2 dst) (pic p) := by
  induction lines generalizing pic with
  | nil => rfl
  | cons area lines ih =>
    rw [List.foldl_cons, ih, strokeFill, drawBrush_apply]
    by_cases h : p ∈ area.1 ∩ dest
    · rw [if_pos h, List.filter_cons_of_pos (by simpa using h), List.map_cons, List.foldl_cons]
    · rw [if_neg h, List.filter_cons_of_neg (by simpa using h)]

theorem drawStroke_apply (d : RedDrawable) (stroke : SpiceStroke) (h : d.u = .stroke stroke)
    (pic : Picture w) (p : SpicePoint) :
    canvas.drawStroke d.bbox d.clip stroke pic p = canvas.ink d p (pic p) := by
  simp only [drawStroke, ink, hits, h]
  by_cases hn : canvas.clipPixman d.bbox d.clip = ∅
  · simp [hn]
  · rw [if_neg hn, foldl_strokeFill]

def IsBrushed (d : RedDrawable) : Prop :=
  (∃ fill, d.u = .fill fill) ∨ ∃ stroke, d.u = .stroke stroke

theorem paint_apply (d : RedDrawable) (h : IsBrushed d) (pic : Picture w) (p : SpicePoint) :
    canvas.paint d pic p = canvas.ink d p (pic p) := by
  rcases h with ⟨fill, h⟩ | ⟨stroke, h⟩
  · rw [paint, h]
    exact canvas.drawFill_apply d fill h pic p
  · rw [paint, h]
    exact canvas.drawStroke_apply d stroke h pic p

theorem clipPixman_eq (d : RedDrawable) :
    canvas.clipPixman d.bbox d.clip = d.region ∩ canvas.canvasRegion :=
  d.clip.clip_inter _ _

theorem maskPixman_subset (dest : Region) (mask : SpiceQMask) (pos : SpicePoint) :
    canvas.maskPixman dest mask pos ⊆ dest := by
  unfold maskPixman
  split
  · exact Finset.Subset.refl dest
  · exact Finset.inter_subset_left

theorem clipPixman_subset (d : RedDrawable) : canvas.clipPixman d.bbox d.clip ⊆ d.region := by
  rw [clipPixman_eq]
  exact Finset.inter_subset_left

theorem mem_of_hits (d : RedDrawable) (p : SpicePoint) (h : canvas.hits d p ≠ []) :
    p ∈ canvas.clipPixman d.bbox d.clip := by
  unfold hits at h
  cases hu : d.u with
  | fill fill =>
    simp only [hu] at h
    by_contra hp
    exact h (if_neg fun hc => hp (canvas.maskPixman_subset _ _ _ hc))
  | stroke stroke =>
    simp only [hu] at h
    obtain ⟨hit, hh⟩ := List.exists_mem_of_ne_nil _ h
    obtain ⟨area, ha, _⟩ := List.mem_map.mp hh
    exact (Finset.mem_inter.mp (of_decide_eq_true (List.mem_filter.mp ha).2)).2
  | copyBits srcPos => exact absurd (by rw [hu]) h
  | other type => exact absurd (by rw [hu]) h

theorem paint_outside (d : RedDrawable) (pic : Picture w) (p : SpicePoint)
    (hp : p ∉ canvas.clipPixman d.bbox d.clip) : canvas.paint d pic p = pic p := by
  by_cases h : IsBrushed d
  · rw [canvas.paint_apply d h, ink, not_not.mp (mt (canvas.mem_of_hits d p) hp)]
    rfl
  · unfold paint
    cases hu : d.u with
    | fill fill => exact absurd (.inl ⟨fill, hu⟩) h
    | stroke stroke => exact absurd (.inr ⟨stroke, hu⟩) h
    | copyBits srcPos => exact canvas.drawOther_outside _ _ _ _ hp
    | other type => exact canvas.drawOther_outside _ _ _ _ hp

theorem ink_bitwise (d : RedDrawable) (p : SpicePoint) : Bitwise (canvas.ink d p) :=
  Bitwise.foldl (fun (hit : SpiceROP × BitVec w) => hit.1.apply hit.2) _
    fun hit _ => hit.1.apply_bitwise hit.2

/-- The drawable does what its effect says. -/
def Truthful (d : RedDrawable) : Prop :=
  match d.effect with
  | .effectOpaque => ∀ pic pic' p, p ∈ d.region → p ∈ canvas.canvasRegion →
    canvas.paint d pic p = canvas.paint d pic' p
  | .effectOpaqueBrush => ∀ pic pic' p, canvas.hits d p ≠ [] → canvas.paint d pic p = canvas.paint d pic' p
  | .effectRevertOnDup => ∀ pic, canvas.paint d (canvas.paint d pic) = pic
  | .effectNopOnDup => ∀ pic, canvas.paint d (canvas.paint d pic) = canvas.paint d pic
  | _ => True

/-- The pixels of the older drawable that something drawn after it already covers. -/
def hidden (other : DrawItem) : Region := other.drawable.region \ other.rgn

/-- What the comparison of the two drawables leaves open, pixel by pixel: a brush that covers draws
wherever the older one did, two inversions flip the same bits, and the newer of two idempotent
drawings sets and clears no other bits than the older. -/
def Compatible (item other : DrawItem) : Prop :=
  match item.effect with
  | .effectOpaqueBrush =>
    ∀ p ∈ item.rgn, canvas.hits other.drawable p ≠ [] → canvas.hits item.drawable p ≠ []
  | .effectRevertOnDup =>
    ∀ p ∈ item.rgn, canvas.ink item.drawable p 0 = canvas.ink other.drawable p 0
  | .effectNopOnDup =>
    ∀ p ∈ item.rgn, Within (canvas.ink item.drawable p 0) (canvas.ink other.drawable p 0) ∧
      Within (canvas.ink other.drawable p (BitVec.allOnes w)) (canvas.ink item.drawable p (BitVec.allOnes w))
  | _ => True

theorem isBrushed_of_isSameGeometry {d1 d2 : RedDrawable} (h : isSameGeometry d1 d2) :
    IsBrushed d1 ∧ IsBrushed d2 := by
  unfold isSameGeometry at h
  split at h
  next s1 s2 h1 h2 => exact ⟨.inr ⟨s1, h1⟩, .inr ⟨s2, h2⟩⟩
  next f1 f2 h1 h2 => exact ⟨.inl ⟨f1, h1⟩, .inl ⟨f2, h2⟩⟩
  next => cases h

theorem isSameGeometry_of_isSameDrawable {d1 d2 : RedDrawable} (h : isSameDrawable d1 d2) :
    isSameGeometry d1 d2 := (Bool.and_eq_true_iff.mp h).1

theorem ink_of_not_mem (d : RedDrawable) (p : SpicePoint) (hp : p ∉ d.region) (dst : BitVec w) :
    canvas.ink d p dst = dst := by
  rw [ink, not_not.mp (mt (canvas.mem_of_hits d p) fun h => hp (canvas.clipPixman_subset d h))]
  rfl

theorem ink_of_revert {d : RedDrawable} (hb : IsBrushed d) (he : d.effect = .effectRevertOnDup)
    (ht : canvas.Truthful d) (p : SpicePoint) (dst : BitVec w) : canvas.ink d p (canvas.ink d p dst) = dst := by
  simp only [Truthful, he] at ht
  have h := congrFun (ht fun _ => dst) p
  rwa [canvas.paint_apply d hb, canvas.paint_apply d hb] at h

theorem ink_of_nop {d : RedDrawable} (hb : IsBrushed d) (he : d.effect = .effectNopOnDup)
    (ht : canvas.Truthful d) (p : SpicePoint) (dst : BitVec w) :
    canvas.ink d p (canvas.ink d p dst) = canvas.ink d p dst := by
  simp only [Truthful, he] at ht
  have h := congrFun (ht fun _ => dst) p
  rwa [canvas.paint_apply d hb, canvas.paint_apply d hb] at h

theorem ink_of_opaqueBrush {d : RedDrawable} (hb : IsBrushed d) (he : d.effect = .effectOpaqueBrush)
    (ht : canvas.Truthful d) {p : SpicePoint} (hp : canvas.hits d p ≠ []) (dst dst' : BitVec w) :
    canvas.ink d p dst = canvas.ink d p dst' := by
  simp only [Truthful, he] at ht
  have h := ht (fun _ => dst) (fun _ => dst') p hp
  rwa [canvas.paint_apply d hb, canvas.paint_apply d hb] at h

/-- Equality of two pictures made by pixel functions, as equality of the functions. -/
theorem forall_picture_iff (f g : SpicePoint → BitVec w → BitVec w) (P : SpicePoint → Prop) :
    (∀ pic : Picture w, ∀ p, P p → f p (pic p) = g p (pic p)) ↔ ∀ p, P p → ∀ dst, f p dst = g p dst :=
  ⟨fun h p hp dst => h (fun _ => dst) p hp, fun h pic p hp => h p hp (pic p)⟩

/-- The newer drawable has just been made, the older one may have lost pixels, and the region test
found no pixel that only one of the two has. -/
structure SameRegion (item other : DrawItem) : Prop where
  fresh : item.rgn = item.drawable.region
  shrunk : other.rgn ⊆ other.drawable.region
  same : item.rgn = other.rgn

namespace SameRegion

variable {item other : DrawItem}

theorem not_hidden (hs : SameRegion item other) {p : SpicePoint} (hp : p ∈ item.rgn) : p ∉ hidden other := fun hc =>
  (Finset.mem_sdiff.mp hc).2 (hs.same ▸ hp)

theorem outside (hs : SameRegion item other) {p : SpicePoint} (hp : p ∉ hidden other) (hi : p ∉ item.rgn) :
    p ∉ item.drawable.region ∧ p ∉ other.drawable.region :=
  ⟨hs.fresh ▸ hi, fun ho => hp (Finset.mem_sdiff.mpr ⟨ho, hs.same ▸ hi⟩)⟩

theorem forall_iff (hs : SameRegion item other) {f g : SpicePoint → BitVec w → BitVec w}
    (hfg : ∀ p, p ∉ item.drawable.region → p ∉ other.drawable.region → ∀ dst, f p dst = g p dst) :
    (∀ p, p ∉ hidden other → ∀ dst, f p dst = g p dst) ↔ ∀ p ∈ item.rgn, ∀ dst, f p dst = g p dst := by
  constructor
  · intro h p hp
    exact h p (hs.not_hidden hp)
  · intro h p hp
    by_cases hi : p ∈ item.rgn
    · exact h p hi
    · obtain ⟨h1, h2⟩ := hs.outside hp hi
      exact hfg p h1 h2

end SameRegion

/-- Painting the drawables that remain, against painting both, wherever the older one still shows. -/
def Preserved (m : Merge) (item other : DrawItem) : Prop :=
  ∀ pic p, p ∉ hidden other →
    canvas.picture (m.remaining item.drawable other.drawable) pic p =
      canvas.picture [other.drawable, item.drawable] pic p

variable {item other : DrawItem}

theorem preserved_iff_ink (hs : SameRegion item other) (hi : IsBrushed item.drawable)
    (ho : IsBrushed other.drawable) (m : Merge) : canvas.Preserved m item other ↔
      ∀ p ∈ item.rgn, ∀ dst, (m.remaining item.drawable other.drawable).foldl
        (fun dst d => canvas.ink d p dst) dst = canvas.ink item.drawable p (canvas.ink other.drawable p dst) := by
  rw [← hs.forall_iff, ← forall_picture_iff]
  · unfold Preserved
    simp only [picture, List.foldl_cons, List.foldl_nil, canvas.paint_apply _ hi, canvas.paint_apply _ ho]
    cases m with
    | replaceOther => simp only [Merge.remaining, List.foldl_cons, List.foldl_nil, canvas.paint_apply _ hi]
    | removeBoth => rfl
    | dropItem => simp only [Merge.remaining, List.foldl_cons, List.foldl_nil, canvas.paint_apply _ ho]
  · intro p h1 h2 dst
    have ei := canvas.ink_of_not_mem item.drawable p h1
    have eo := canvas.ink_of_not_mem other.drawable p h2
    cases m <;> simp [Merge.remaining, ei, eo]

theorem preserved_opaque (hs : SameRegion item other) (he : item.effect = .effectOpaque)
    (hti : canvas.Truthful item.drawable) : canvas.Preserved .replaceOther item other := by
  intro pic p hp
  have hi : ∀ pic pic' p, p ∈ item.drawable.region → p ∈ canvas.canvasRegion →
      canvas.paint item.drawable pic p = canvas.paint item.drawable pic' p := by
    unfold Truthful at hti
    rwa [show item.drawable.effect = _ from he] at hti
  change canvas.paint item.drawable pic p = canvas.paint item.drawable (canvas.paint other.drawable pic) p
  by_cases hc : p ∈ canvas.clipPixman item.drawable.bbox item.drawable.clip
  · rw [clipPixman_eq, Finset.mem_inter] at hc
    exact hi _ _ p hc.1 hc.2
  · -- the newer drawable leaves the pixel alone, and so does the older one
    rw [canvas.paint_outside _ _ _ hc, canvas.paint_outside _ _ _ hc, canvas.paint_outside]
    intro ho
    rw [clipPixman_eq, Finset.mem_inter] at ho hc
    have hr : p ∈ other.rgn := by
      by_contra hr
      exact hp (Finset.mem_sdiff.mpr ⟨ho.1, hr⟩)
    rw [← hs.same, hs.fresh] at hr
    exact hc ⟨hr, ho.2⟩

theorem preserved_opaqueBrush_iff (hs : SameRegion item other) (hi : IsBrushed item.drawable)
    (ho : IsBrushed other.drawable) (hei : item.effect = .effectOpaqueBrush)
    (heo : other.effect = .effectOpaqueBrush) (hti : canvas.Truthful item.drawable)
    (hto : canvas.Truthful other.drawable) : canvas.Preserved .replaceOther item other ↔
      ∀ p ∈ item.rgn, canvas.hits other.drawable p ≠ [] → canvas.hits item.drawable p ≠ [] := by
  rw [canvas.preserved_iff_ink hs hi ho]
  refine forall₂_congr fun p _ => ?_
  change (∀ dst, canvas.ink item.drawable p dst = _) ↔ _
  constructor
  · intro h hh hn
    -- the newer one keeps the pixel, which the older one makes the same of black and of white
    have key : ∀ dst, canvas.ink item.drawable p dst = dst := fun dst => by rw [ink, hn]; rfl
    have e := canvas.ink_of_opaqueBrush ho heo hto hh 0 (BitVec.allOnes w)
    have h0 := h 0
    have h1 := h (BitVec.allOnes w)
    rw [key, key] at h0 h1
    have hbit := congrArg (fun d : BitVec w => d.getLsbD 0) (h0.trans (e.trans h1.symm))
    simp [canvas.bits_pos] at hbit
  · intro h dst
    by_cases hh : canvas.hits other.drawable p = []
    · have e : canvas.ink other.drawable p dst = dst := by rw [ink, hh]; rfl
      rw [e]
    · exact canvas.ink_of_opaqueBrush hi hei hti (h hh) _ _

theorem preserved_revert_iff (hs : SameRegion item other) (hi : IsBrushed item.drawable)
    (ho : IsBrushed other.drawable) (hei : item.effect = .effectRevertOnDup)
    (heo : other.effect = .effectRevertOnDup) (hti : canvas.Truthful item.drawable)
    (hto : canvas.Truthful other.drawable) : canvas.Preserved .removeBoth item other ↔
      ∀ p ∈ item.rgn, canvas.ink item.drawable p 0 = canvas.ink other.drawable p 0 := by
  rw [canvas.preserved_iff_ink hs hi ho]
  refine forall₂_congr fun p _ => ?_
  rw [← Bitwise.comp_involutive_iff (canvas.ink_bitwise _ p) (canvas.ink_bitwise _ p)
    (canvas.ink_of_revert hi hei hti p) (canvas.ink_of_revert ho heo hto p)]
  exact forall_congr' fun dst => eq_comm

theorem preserved_nop_iff (hs : SameRegion item other) (hi : IsBrushed item.drawable)
    (ho : IsBrushed other.drawable) (hei : item.effect = .effectNopOnDup)
    (heo : other.effect = .effectNopOnDup) (hti : canvas.Truthful item.drawable)
    (hto : canvas.Truthful other.drawable) : canvas.Preserved .dropItem item other ↔
      ∀ p ∈ item.rgn, Within (canvas.ink item.drawable p 0) (canvas.ink other.drawable p 0) ∧
        Within (canvas.ink other.drawable p (BitVec.allOnes w))
          (canvas.ink item.drawable p (BitVec.allOnes w)) := by
  rw [canvas.preserved_iff_ink hs hi ho]
  refine forall₂_congr fun p _ => ?_
  rw [← Bitwise.comp_idempotent_iff (canvas.ink_bitwise _ p) (canvas.ink_bitwise _ p)
    (canvas.ink_of_nop hi hei hti p) (canvas.ink_of_nop ho heo hto p)]
  exact forall_congr' fun dst => eq_comm

theorem redCurrentAddEqual_effect {m : Merge} (hm : redCurrentAddEqual item other = some m) :
    other.effect = item.effect := by
  unfold redCurrentAddEqual at hm
  split at hm
  · cases hm
  next hc =>
    by_contra he
    exact hc (by simp [Ne.symm he])

theorem redCurrentAddEqual_preserved_iff {m : Merge} (hs : SameRegion item other)
    (hm : redCurrentAddEqual item other = some m) (hti : canvas.Truthful item.drawable)
    (hto : canvas.Truthful other.drawable) : canvas.Preserved m item other ↔ canvas.Compatible item other := by
  have heo := redCurrentAddEqual_effect hm
  unfold redCurrentAddEqual at hm
  split at hm
  · cases hm
  cases he : item.effect with
  | effectOpaque =>
    simp only [he] at hm
    cases hm
    simp only [Compatible, he, iff_true]
    exact canvas.preserved_opaque hs he hti
  | effectRevertOnDup =>
    simp only [he] at hm
    split at hm <;> cases hm
    next hd =>
      obtain ⟨hi, ho⟩ := isBrushed_of_isSameGeometry (isSameGeometry_of_isSameDrawable hd)
      simp only [Compatible, he]
      exact canvas.preserved_revert_iff hs hi ho he (heo.trans he) hti hto
  | effectOpaqueBrush =>
    simp only [he] at hm
    split at hm <;> cases hm
    next hd =>
      obtain ⟨hi, ho⟩ := isBrushed_of_isSameGeometry hd
      simp only [Compatible, he]
      exact canvas.preserved_opaqueBrush_iff hs hi ho he (heo.trans he) hti hto
  | effectNopOnDup =>
    simp only [he] at hm
    split at hm <;> cases hm
    next hd =>
      obtain ⟨hi, ho⟩ := isBrushed_of_isSameGeometry (isSameGeometry_of_isSameDrawable hd)
      simp only [Compatible, he]
      exact canvas.preserved_nop_iff hs hi ho he (heo.trans he) hti hto
  | effectBlend => simp only [he] at hm; cases hm
  | effectBlacknessOnDup => simp only [he] at hm; cases hm
  | effectWhitenessOnDup => simp only [he] at hm; cases hm
  | effectNop => simp only [he] at hm; cases hm

def onePixel : Canvas 32 where
  bits_pos := by decide
  canvasRegion := {(0, 0)}
  getImage _ := ⟨1, 1, fun _ _ => 0⟩
  maskRegion _ dest _ := dest
  strokeLines _ _ := []
  drawOther _ _ pic := pic
  drawOther_outside _ _ _ _ _ := rfl

def xorFill (color : BitVec 32) : RedDrawable where
  surfaceId := 0
  effect := .effectRevertOnDup
  bbox := ⟨0, 0, 1, 1⟩
  clip := .none
  selfBitmap := none
  surfacesDest _ := none
  surfacesRects _ := ⟨0, 0, 0, 0⟩
  u := .fill ⟨.solid color, ROPD.opXor, ⟨0, (0, 0), none⟩⟩

theorem sameRegion_xorFill (color color' : BitVec 32) :
    SameRegion (.start (xorFill color)) (.start (xorFill color')) where
  fresh := rfl
  shrunk := Finset.Subset.refl _
  same := rfl

theorem xorFill_rop : ropdDescriptorToRop ROPD.opXor .brush .dest = .xor := by decide

theorem ink_xorFill (color : BitVec 32) (p : SpicePoint) (dst : BitVec w) : canvas.ink (xorFill color) p dst =
    if p ∈ canvas.clipPixman ⟨0, 0, 1, 1⟩ .none then color.setWidth w ^^^ dst else dst := by
  simp only [ink, hits, xorFill, maskPixman, xorFill_rop]
  split <;> rfl

theorem xorFill_truthful (color : BitVec 32) : canvas.Truthful (xorFill color) := by
  change ∀ pic, canvas.paint (xorFill color) (canvas.paint (xorFill color) pic) = pic
  intro pic
  funext p
  rw [canvas.paint_apply _ (.inl ⟨_, rfl⟩), canvas.paint_apply _ (.inl ⟨_, rfl⟩), ink_xorFill, ink_xorFill]
  split
  · rw [← BitVec.xor_assoc, BitVec.xor_self, BitVec.zero_xor]
  · rfl

theorem xorFill_twice_preserved :
    onePixel.Preserved .removeBoth (.start (xorFill 1)) (.start (xorFill 1)) :=
  (onePixel.redCurrentAddEqual_preserved_iff (sameRegion_xorFill 1 1) (by decide)
    (onePixel.xorFill_truthful 1) (onePixel.xorFill_truthful 1)).mpr fun _ _ => rfl

theorem not_preserved_xorFill : ¬∀ (item other : DrawItem) (m : Merge), SameRegion item other →
    redCurrentAddEqual item other = some m → onePixel.Truthful item.drawable →
      onePixel.Truthful other.drawable → onePixel.Preserved m item other := by
  intro h
  have hp := h (.start (xorFill 2)) (.start (xorFill 1)) .removeBoth (sameRegion_xorFill 2 1) (by decide)
    (onePixel.xorFill_truthful 2) (onePixel.xorFill_truthful 1)
  rw [onePixel.preserved_revert_iff (sameRegion_xorFill 2 1) (.inl ⟨_, rfl⟩) (.inl ⟨_, rfl⟩) rfl rfl
    (onePixel.xorFill_truthful 2) (onePixel.xorFill_truthful 1)] at hp
  have hbad := hp (0, 0) (by decide)
  rw [DrawItem.start, DrawItem.start, ink_xorFill, ink_xorFill] at hbad
  exact absurd hbad (by decide)

end Canvas

end Colama.Spice

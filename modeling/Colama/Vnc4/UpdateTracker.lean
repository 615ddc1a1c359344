import Colama.Xvnc.ViewSpec

namespace Colama.Vnc4

open Xvnc (Pixel RegionRec BoxRec Banded translate extentsArea mem_translate)

/-- `Region::get_rects`, over the rectangles of a region as they are kept in it. -/
def getRects (rects : List BoxRec) (left2right topdown : Bool) : List BoxRec :=
  Xvnc.copyOrder BoxRec.y1 (left2right == topdown) (if topdown then rects else rects.reverse)

/-- The pixels of a rectangle. -/
def rectRegion (r : BoxRec) : RegionRec :=
  ((List.range (r.y2 - r.y1).toNat).flatMap fun (y : Nat) =>
    (List.range (r.x2 - r.x1).toNat).map fun (x : Nat) => (r.x1 + x, r.y1 + y)).toFinset

/-- The rectangles in which a region is kept. -/
structure RectsOf (region : RegionRec) (rects : List BoxRec) : Prop where
  nonempty : ∀ r ∈ rects, r.x1 < r.x2 ∧ r.y1 < r.y2
  banded : Banded rects
  covers : ∀ p, p ∈ region ↔ ∃ r ∈ rects, r.Has p

/-- `SimpleUpdateTracker`. -/
structure UpdateTracker where
  changed : RegionRec
  copied : RegionRec
  copyDelta : Pixel
  copyEnabled : Bool

namespace UpdateTracker

def addChanged (ut : UpdateTracker) (region : RegionRec) : UpdateTracker :=
  { ut with changed := ut.changed ∪ region }

def addCopied (ut : UpdateTracker) (dest : RegionRec) (delta : Pixel) : UpdateTracker :=
  if ut.copyEnabled = false then ut.addChanged dest
  else if dest = ∅ then ut
  else
    let overlap := translate dest (-delta.1) (-delta.2) ∩ ut.copied
    if overlap = ∅ then
      if extentsArea ut.copied > extentsArea dest then { ut with changed := ut.changed ∪ dest }
      else
        let invalidSrc := translate (translate dest (-delta.1) (-delta.2) ∩ ut.changed) delta.1 delta.2
        { ut with
          changed := ut.changed ∪ invalidSrc ∪ ut.copied
          copied := dest
          copyDelta := delta }
    else
      let invalidSrc := translate (overlap ∩ ut.changed) delta.1 delta.2
      let copied := translate overlap delta.1 delta.2
      { ut with
        changed := ut.changed ∪ invalidSrc ∪ (dest ∪ ut.copied) \ copied
        copied
        copyDelta := ut.copyDelta.move delta.1 delta.2 }

def enableCopyrect (ut : UpdateTracker) (enable : Bool) : UpdateTracker :=
  if enable = false ∧ ut.copyEnabled = true then
    { ut with changed := ut.changed ∪ ut.copied, copied := ∅, copyEnabled := enable }
  else { ut with copyEnabled := enable }

def subtract (ut : UpdateTracker) (region : RegionRec) : UpdateTracker :=
  { ut with changed := ut.changed \ region, copied := ut.copied \ region }

def clear (ut : UpdateTracker) : UpdateTracker := { ut with changed := ∅, copied := ∅ }

def isEmpty (ut : UpdateTracker) : Bool := decide (ut.changed = ∅) && decide (ut.copied = ∅)

/-- Where the pixel is copied from. -/
def source (ut : UpdateTracker) (p : Pixel) : Pixel := p.move (-ut.copyDelta.1) (-ut.copyDelta.2)

end UpdateTracker

@[simp] theorem mem_rectRegion {r : BoxRec} {p : Pixel} : p ∈ rectRegion r ↔ r.Has p := by
  simp only [rectRegion, List.mem_toFinset, List.mem_flatMap, List.mem_map, List.mem_range, BoxRec.Has]
  constructor
  · rintro ⟨y, hy, x, hx, rfl⟩
    dsimp only
    omega
  · rintro ⟨hx₁, hx₂, hy₁, hy₂⟩
    refine ⟨(p.2 - r.y1).toNat, by omega, (p.1 - r.x1).toNat, by omega, ?_⟩
    apply Prod.ext <;> dsimp only <;> omega

theorem getRects_delta (rects : List BoxRec) (dx dy : Int) :
    getRects rects (decide (dx ≤ 0)) (decide (dy ≤ 0)) = Xvnc.rfbSendCopyRegion BoxRec.y1 rects dx dy := by
  simp only [getRects, Xvnc.rfbSendCopyRegion, decide_eq_true_eq]

theorem getRects_perm (rects : List BoxRec) (left2right topdown : Bool) :
    (getRects rects left2right topdown).Perm rects := by
  unfold getRects
  split
  · exact Xvnc.copyOrder_perm BoxRec.y1 _ rects
  · exact (Xvnc.copyOrder_perm BoxRec.y1 _ _).trans (List.reverse_perm rects)

variable {α : Type*} {screen : BoxRec} {cursor : Pixel → Prop} {ut : UpdateTracker}
  {pixels pixels' shown : Pixel → α}

/-- What a tracker says of two pictures: outside its regions they are the same, and what is copied and
not changed is the old picture moved. What the old one has under a cursor does not count. -/
structure Tracks (screen : BoxRec) (cursor : Pixel → Prop) (ut : UpdateTracker) (pixels shown : Pixel → α) :
    Prop where
  inside : ∀ p ∈ ut.copied, screen.Has p ∧ screen.Has (ut.source p)
  outside : ∀ p, screen.Has p → p ∉ ut.changed → p ∉ ut.copied → ¬ cursor p → pixels p = shown p
  moved : ∀ p ∈ ut.copied, p ∉ ut.changed → ¬ cursor (ut.source p) → pixels p = shown (ut.source p)

theorem Tracks.addChanged (h : Tracks screen cursor ut pixels shown) {region : RegionRec}
    (hp : ∀ p, screen.Has p → p ∉ region → pixels' p = pixels p) :
    Tracks screen cursor (ut.addChanged region) pixels' shown := by
  refine ⟨h.inside, ?_, ?_⟩
  · intro p hscreen hchanged hcopied hcursor
    have hchanged' := Finset.notMem_union.mp hchanged
    exact (hp p hscreen hchanged'.2).trans (h.outside p hscreen hchanged'.1 hcopied hcursor)
  · intro p hcopied hchanged hcursor
    have hchanged' := Finset.notMem_union.mp hchanged
    exact (hp p (h.inside p hcopied).1 hchanged'.2).trans (h.moved p hcopied hchanged'.1 hcursor)

theorem Tracks.congr (h : Tracks screen cursor ut pixels shown)
    (hp : ∀ p, screen.Has p → pixels' p = pixels p) : Tracks screen cursor ut pixels' shown :=
  ⟨h.inside, fun p hscreen h₁ h₂ h₃ => (hp p hscreen).trans (h.outside p hscreen h₁ h₂ h₃),
    fun p hcopied h₁ h₂ => (hp p (h.inside p hcopied).1).trans (h.moved p hcopied h₁ h₂)⟩

theorem mem_source {dest : RegionRec} {delta p : Pixel} :
    p.move (-delta.1) (-delta.2) ∈ translate dest (-delta.1) (-delta.2) ↔ p ∈ dest := by
  rw [mem_translate, Pixel.move_move, add_neg_cancel, add_neg_cancel, Pixel.move_zero]

/-- A copy on the screen, which the tracker may chain to the one it has, keep or drop. -/
theorem Tracks.addCopied (h : Tracks screen cursor ut pixels shown) {dest : RegionRec} {delta : Pixel}
    (hdest : ∀ p ∈ dest, screen.Has p ∧ screen.Has (p.move (-delta.1) (-delta.2)))
    (hcopy : ∀ p ∈ dest, pixels' p = pixels (p.move (-delta.1) (-delta.2)))
    (hrest : ∀ p, screen.Has p → p ∉ dest → pixels' p = pixels p) :
    Tracks screen cursor (ut.addCopied dest delta) pixels' shown := by
  unfold UpdateTracker.addCopied
  split
  · exact h.addChanged hrest
  split
  · rename_i hempty
    subst hempty
    exact h.congr fun p hscreen => hrest p hscreen (Finset.notMem_empty p)
  extract_lets overlap invalidSrc invalidSrc' copied
  split
  · rename_i hover
    split
    · exact h.addChanged hrest
    · -- the new copy takes the place of the old one
      refine ⟨hdest, ?_, ?_⟩
      · intro p hscreen hchanged hcopied hcursor
        rw [Finset.notMem_union, Finset.notMem_union] at hchanged
        exact (hrest p hscreen hcopied).trans (h.outside p hscreen hchanged.1.1 hchanged.2 hcursor)
      · intro p hcopied hchanged hcursor
        rw [Finset.notMem_union, Finset.notMem_union] at hchanged
        refine (hcopy p hcopied).trans (h.outside _ (hdest p hcopied).2 ?_ ?_ hcursor)
        · intro hmem
          exact hchanged.1.2 (mem_translate.mpr (Finset.mem_inter.mpr ⟨mem_source.2 hcopied, hmem⟩))
        · intro hmem
          apply Finset.eq_empty_iff_forall_notMem.mp hover
          exact Finset.mem_inter.mpr ⟨mem_source.2 hcopied, hmem⟩
  · -- the new copy goes on from the old one
    have hsource : ∀ p : Pixel, p.move (-(ut.copyDelta.move delta.1 delta.2).1) (-(ut.copyDelta.move delta.1 delta.2).2) =
        ut.source (p.move (-delta.1) (-delta.2)) := by
      intro p
      rw [UpdateTracker.source, Pixel.move_move]
      simp only [Pixel.move, neg_add_rev]
    have hmem : ∀ p ∈ copied, p ∈ dest ∧ p.move (-delta.1) (-delta.2) ∈ ut.copied := by
      intro p hp
      have hp' := Finset.mem_inter.mp (mem_translate.mp hp)
      exact ⟨mem_source.1 hp'.1, hp'.2⟩
    refine ⟨?_, ?_, ?_⟩
    · intro p hp
      refine ⟨(hdest p (hmem p hp).1).1, ?_⟩
      show screen.Has (p.move _ _)
      rw [hsource]
      exact (h.inside _ (hmem p hp).2).2
    · intro p hscreen hchanged hcopied hcursor
      rw [Finset.notMem_union, Finset.notMem_union, Finset.mem_sdiff, not_and_not_right] at hchanged
      have hout := Finset.notMem_union.mp fun hp => hcopied (hchanged.2 hp)
      exact (hrest p hscreen hout.1).trans (h.outside p hscreen hchanged.1.1 hout.2 hcursor)
    · intro p hp hchanged hcursor
      rw [Finset.notMem_union, Finset.notMem_union] at hchanged
      change ¬ cursor (p.move _ _) at hcursor
      show pixels' p = shown (p.move _ _)
      rw [hsource] at hcursor ⊢
      refine (hcopy p (hmem p hp).1).trans (h.moved _ (hmem p hp).2 ?_ hcursor)
      intro hq
      exact hchanged.1.2 (mem_translate.mpr (Finset.mem_inter.mpr ⟨mem_translate.mp hp, hq⟩))

/-- What is copied comes from inside the screen, also when copies are chained. -/
theorem addCopied_inside (h : ∀ p ∈ ut.copied, screen.Has p ∧ screen.Has (ut.source p)) {dest : RegionRec}
    {delta : Pixel} (hdest : ∀ p ∈ dest, screen.Has p ∧ screen.Has (p.move (-delta.1) (-delta.2))) :
    ∀ p ∈ (ut.addCopied dest delta).copied,
      screen.Has p ∧ screen.Has ((ut.addCopied dest delta).source p) := by
  have htracks : Tracks screen (fun _ => False) ut (fun _ => ()) (fun _ => ()) :=
    ⟨h, fun _ _ _ _ _ => rfl, fun _ _ _ _ => rfl⟩
  have hadded : Tracks screen (fun _ => False) (ut.addCopied dest delta) (fun _ => ()) (fun _ => ()) :=
    htracks.addCopied hdest (fun _ _ => rfl) fun _ _ _ => rfl
  exact hadded.inside

theorem mem_addCopied {dest : RegionRec} {delta p : Pixel} :
    p ∈ (ut.addCopied dest delta).changed ∪ (ut.addCopied dest delta).copied ↔
      p ∈ ut.changed ∪ ut.copied ∪ dest := by
  have hsub : ∀ region : RegionRec,
      p ∈ translate (translate dest (-delta.1) (-delta.2) ∩ region) delta.1 delta.2 → p ∈ dest :=
    fun region hp => mem_source.1 (Finset.mem_inter.mp (mem_translate.mp hp)).1
  unfold UpdateTracker.addCopied UpdateTracker.addChanged
  extract_lets overlap invalidSrc invalidSrc' copied
  have hinvalid : p ∈ invalidSrc → p ∈ dest := hsub ut.changed
  have hcopied : p ∈ copied → p ∈ dest := hsub ut.copied
  have hinvalid' : p ∈ invalidSrc' → p ∈ dest := by
    intro hp
    apply hsub ut.copied
    exact mem_translate.mpr (Finset.mem_inter.mp (mem_translate.mp hp)).1
  clear_value overlap invalidSrc invalidSrc' copied
  clear hsub
  split
  · simp only [Finset.mem_union]
    grind
  split
  · rename_i hempty
    simp [hempty]
  split
  · split
    · simp only [Finset.mem_union]
      grind
    · simp only [Finset.mem_union]
      grind
  · simp only [Finset.mem_union, Finset.mem_sdiff]
    grind

theorem subset_addCopied (ut : UpdateTracker) (dest : RegionRec) (delta : Pixel) :
    ut.changed ⊆ (ut.addCopied dest delta).changed := by
  unfold UpdateTracker.addCopied UpdateTracker.addChanged
  split
  · exact Finset.subset_union_left
  split
  · exact Finset.Subset.refl _
  dsimp only
  split
  · split
    · exact Finset.subset_union_left
    · exact Finset.subset_union_left.trans Finset.subset_union_left
  · exact Finset.subset_union_left.trans Finset.subset_union_left

end Colama.Vnc4

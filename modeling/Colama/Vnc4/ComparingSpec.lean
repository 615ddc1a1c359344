import Colama.Vnc4.Comparing

namespace Colama.Vnc4

open Xvnc (Pixel RegionRec BoxRec Untouched)

variable {α : Type*} {data fb picture : Pixel → α} {r screen : BoxRec} {p : Pixel}

theorem exists_mem_blockSteps {lo hi y : Int} :
    (∃ t ∈ blockSteps lo hi, t ≤ y ∧ y < min (t + blockSize) hi) ↔ lo ≤ y ∧ y < hi := by
  simp only [blockSteps, blockSize, List.mem_map, List.mem_range]
  constructor
  · rintro ⟨t, ⟨i, hi, rfl⟩, hle, hlt⟩
    omega
  · rintro ⟨hle, hlt⟩
    refine ⟨_, ⟨((y - lo) / 16).toNat, ?_, rfl⟩, ?_, ?_⟩
    all_goals omega

theorem exists_mem_blocksOf : (∃ b ∈ blocksOf r, b.Has p) ↔ r.Has p := by
  simp only [blocksOf, List.mem_flatMap, List.mem_map]
  constructor
  · rintro ⟨b, ⟨top, htop, left, hleft, rfl⟩, hx₁, hx₂, hy₁, hy₂⟩
    have hy := exists_mem_blockSteps.1 ⟨top, htop, hy₁, hy₂⟩
    have hx := exists_mem_blockSteps.1 ⟨left, hleft, hx₁, hx₂⟩
    exact ⟨hx.1, hx.2, hy.1, hy.2⟩
  · rintro ⟨hx₁, hx₂, hy₁, hy₂⟩
    obtain ⟨top, htop, hy⟩ := exists_mem_blockSteps.2 ⟨hy₁, hy₂⟩
    obtain ⟨left, hleft, hx⟩ := exists_mem_blockSteps.2 ⟨hx₁, hx₂⟩
    exact ⟨_, ⟨top, htop, left, hleft, rfl⟩, hx.1, hx.2, hy.1, hy.2⟩

theorem mem_rowsOf {row : BoxRec} :
    row ∈ rowsOf r ↔ ∃ y, (r.y1 ≤ y ∧ y < r.y2) ∧ row = { r with y1 := y, y2 := y + 1 } := by
  simp only [rowsOf, List.mem_map, List.mem_range]
  constructor
  · rintro ⟨i, hi, rfl⟩
    exact ⟨_, by omega, rfl⟩
  · rintro ⟨y, hy, rfl⟩
    refine ⟨(y - r.y1).toNat, by omega, ?_⟩
    rw [show r.y1 + ((y - r.y1).toNat : Int) = y by omega]

theorem exists_mem_rowsOf : (∃ row ∈ rowsOf r, row.Has p) ↔ r.Has p := by
  constructor
  · rintro ⟨row, hrow, hhas⟩
    obtain ⟨y, hy, rfl⟩ := mem_rowsOf.1 hrow
    have hhas' : (r.x1 ≤ p.1 ∧ p.1 < r.x2 ∧ y ≤ p.2 ∧ p.2 < y + 1) := hhas
    exact ⟨hhas'.1, hhas'.2.1, by omega, by omega⟩
  · rintro ⟨hx₁, hx₂, hy₁, hy₂⟩
    exact ⟨_, mem_rowsOf.2 ⟨p.2, ⟨hy₁, hy₂⟩, rfl⟩, hx₁, hx₂, le_rfl, lt_add_one p.2⟩

theorem rowsOf_pairwise (r : BoxRec) : (rowsOf r).Pairwise fun b c => b.y1 < c.y1 ∧ b.y2 ≤ c.y1 := by
  unfold rowsOf
  rw [List.pairwise_map]
  apply List.pairwise_lt_range.imp
  intro i j hij
  dsimp only
  omega

/-- Row by row, in this order, no pixel is overwritten before it is moved. -/
theorem copyRect_eq (data : Pixel → α) (r : BoxRec) (delta : Pixel) :
    copyRect data r delta = Xvnc.copyRect data r delta.1 delta.2 := by
  funext p
  unfold copyRect
  rw [Xvnc.foldl_copyRect, Xvnc.copyRect]
  · have hiff : (∃ row ∈ if delta.2 ≤ 0 then rowsOf r else (rowsOf r).reverse, row.Has p) ↔ r.Has p := by
      split
      · exact exists_mem_rowsOf
      · simpa only [List.mem_reverse] using exists_mem_rowsOf
    simp only [hiff]
  · split
    · rename_i hy
      exact (rowsOf_pairwise r).imp fun hbc => Xvnc.untouched_above hy hbc.2
    · rename_i hy
      rw [List.pairwise_reverse]
      exact (rowsOf_pairwise r).imp fun hbc => Xvnc.untouched_below (by omega) hbc.2

/-- The old framebuffer after all copies. -/
theorem foldl_copyRect {ut : UpdateTracker} {rects : List BoxRec} (h : RectsOf ut.copied rects)
    (data : Pixel → α) :
    (getRects rects (decide (ut.copyDelta.1 ≤ 0)) (decide (ut.copyDelta.2 ≤ 0))).foldl
      (fun data r => copyRect data r ut.copyDelta) data = moved ut data := by
  funext p
  simp only [copyRect_eq]
  rw [getRects_delta, Xvnc.foldl_copyRect _ _ _ _ (Xvnc.rfbSendCopyRegion_untouched h.banded _ _)]
  simp only [(Xvnc.rfbSendCopyRegion_perm _ _ _ _).mem_iff, ← h.covers]
  rfl

section

variable [DecidableEq α] {oldFb : Pixel → α} {block : BoxRec}

open ComparingUpdateTracker

/-- A block ends up as it is in the framebuffer, and is noted when it was not so before. -/
theorem compareBlock_eq (acc : (Pixel → α) × List BoxRec) :
    compareBlock fb acc block =
      (imageRect acc.1 block fb, acc.2 ++ if ∃ p ∈ rectRegion block, acc.1 p ≠ fb p then [block] else []) := by
  have hrow : ∀ q, block.Has q →
      ∃ row ∈ rowsOf block, row.Has q ∧ ∀ q', row.Has q' → block.Has q' := by
    intro q hq
    obtain ⟨row, hmem, hhas⟩ := exists_mem_rowsOf.2 hq
    exact ⟨row, hmem, hhas, fun q' hq' => exists_mem_rowsOf.1 ⟨row, hmem, hq'⟩⟩
  unfold compareBlock
  split
  · rename_i hnone
    have hsame : ∀ q, block.Has q → acc.1 q = fb q := by
      intro q hq
      obtain ⟨row, hmem, hhas, -⟩ := hrow q hq
      have hrow := List.find?_eq_none.mp hnone row hmem
      simp only [decide_eq_true_eq, not_exists, not_and, not_not] at hrow
      exact hrow q (mem_rectRegion.mpr hhas)
    rw [if_neg, List.append_nil]
    · refine Prod.ext ?_ rfl
      funext q
      dsimp only [imageRect]
      split
      · rename_i hq
        exact hsame q hq
      · rfl
    · rintro ⟨q, hq, hne⟩
      exact hne (hsame q (mem_rectRegion.mp hq))
  · rename_i row hsome
    obtain ⟨hdiff, above, below, hrows, habove⟩ := List.find?_eq_some_iff_append.mp hsome
    obtain ⟨q, hq, hne⟩ := of_decide_eq_true hdiff
    have hmem : row ∈ rowsOf block := hrows ▸ List.mem_append_right above List.mem_cons_self
    obtain ⟨y, hy, rfl⟩ := mem_rowsOf.1 hmem
    rw [if_pos ⟨q, mem_rectRegion.mpr (exists_mem_rowsOf.1 ⟨_, hmem, mem_rectRegion.mp hq⟩), hne⟩]
    refine Prod.ext ?_ rfl
    funext q'
    dsimp only [imageRect]
    by_cases hbelow : ({ block with y1 := y } : BoxRec).Has q'
    · rw [if_pos hbelow, if_pos]
      exact ⟨hbelow.1, hbelow.2.1, hy.1.trans hbelow.2.2.1, hbelow.2.2.2⟩
    · rw [if_neg hbelow]
      split
      · -- the rows above the first that differs
        rename_i hq'
        obtain ⟨row, hrow, hhas, -⟩ := hrow q' hq'
        have hlt : q'.2 < y := by
          by_contra hle
          exact hbelow ⟨hq'.1, hq'.2.1, not_lt.mp hle, hq'.2.2.2⟩
        rw [hrows] at hrow
        have hpair := rowsOf_pairwise block
        rw [hrows, List.pairwise_append, List.pairwise_cons] at hpair
        rcases List.mem_append.mp hrow with hrow | hrow
        · have hsame := habove row hrow
          simp only [Bool.not_eq_true', decide_eq_false_iff_not, not_exists, not_and, not_not] at hsame
          exact hsame q' (mem_rectRegion.mpr hhas)
        · exfalso
          have hle : y ≤ row.y1 := by
            rcases List.mem_cons.mp hrow with rfl | hrow
            · exact le_rfl
            · exact (hpair.2.1.1 row hrow).1.le
          have := hhas.2.2.1
          omega
      · rfl

/-- What comparing blocks does to a picture: it becomes the framebuffer there, and the blocks noted are
those with a pixel that was not the same. -/
structure Compared (fb oldFb : Pixel → α) (blocks : List BoxRec) (acc : (Pixel → α) × List BoxRec) : Prop where
  oldFb_eq : ∀ p, acc.1 p = if ∃ b ∈ blocks, b.Has p then fb p else oldFb p
  differs : ∀ b ∈ acc.2, b ∈ blocks ∧ ∃ p, b.Has p ∧ oldFb p ≠ fb p
  noted : ∀ p, (∃ b ∈ blocks, b.Has p) → oldFb p ≠ fb p → ∃ b ∈ acc.2, b.Has p

theorem Compared.nil (fb oldFb : Pixel → α) : Compared fb oldFb [] (oldFb, []) :=
  ⟨by simp, nofun, by simp⟩

theorem Compared.snoc {blocks : List BoxRec} {acc : (Pixel → α) × List BoxRec}
    (h : Compared fb oldFb blocks acc) (block : BoxRec) :
    Compared fb oldFb (blocks ++ [block]) (compareBlock fb acc block) := by
  have hkept : ∀ q, acc.1 q ≠ fb q → acc.1 q = oldFb q := by
    intro q hne
    have hq := h.oldFb_eq q
    split at hq
    · exact absurd hq hne
    · exact hq
  rw [compareBlock_eq]
  refine ⟨?_, ?_, ?_⟩
  · intro q
    simp only [imageRect, List.mem_append, List.mem_singleton, or_and_right, exists_or, exists_eq_left, h.oldFb_eq q]
    by_cases hq : block.Has q
    · simp only [hq, or_true, if_true]
    · simp only [hq, or_false, if_false]
  · intro b hb
    rcases List.mem_append.mp hb with hb | hb
    · obtain ⟨hmem, hdiff⟩ := h.differs b hb
      exact ⟨List.mem_append_left _ hmem, hdiff⟩
    · split at hb
      · rename_i hdiff
        rw [List.mem_singleton] at hb
        subst hb
        obtain ⟨q, hq, hne⟩ := hdiff
        exact ⟨List.mem_append_right _ (List.mem_singleton_self _), q, mem_rectRegion.mp hq, hkept q hne ▸ hne⟩
      · cases hb
  · rintro q ⟨b, hb, hhas⟩ hne
    by_cases hblocks : ∃ b ∈ blocks, b.Has q
    · obtain ⟨b', hb', hhas'⟩ := h.noted q hblocks hne
      exact ⟨b', List.mem_append_left _ hb', hhas'⟩
    · have hold : acc.1 q = oldFb q := (h.oldFb_eq q).trans (if_neg hblocks)
      have hb' : b = block := by
        rcases List.mem_append.mp hb with hb | hb
        · exact absurd ⟨b, hb, hhas⟩ hblocks
        · exact List.mem_singleton.mp hb
      subst hb'
      refine ⟨b, List.mem_append_right _ ?_, hhas⟩
      rw [if_pos ⟨q, mem_rectRegion.mpr hhas, hold ▸ hne⟩]
      exact List.mem_singleton_self b

theorem Compared.foldl {blocks : List BoxRec} {acc : (Pixel → α) × List BoxRec}
    (h : Compared fb oldFb blocks acc) (blocks' : List BoxRec) :
    Compared fb oldFb (blocks ++ blocks') (blocks'.foldl (compareBlock fb) acc) := by
  induction blocks' generalizing blocks acc with
  | nil => simpa using h
  | cons block blocks' ih => simpa using ih (h.snoc block)

theorem foldl_compareBlock (blocks noted : List BoxRec) (oldFb : Pixel → α) :
    blocks.foldl (compareBlock fb) (oldFb, noted) =
      ((blocks.foldl (compareBlock fb) (oldFb, [])).1,
        noted ++ (blocks.foldl (compareBlock fb) (oldFb, [])).2) := by
  induction blocks generalizing oldFb noted with
  | nil => simp
  | cons block blocks ih =>
    rw [List.foldl_cons, List.foldl_cons, compareBlock_eq, compareBlock_eq, ih, ih ([] ++ _)]
    simp only [List.nil_append, List.append_assoc]

theorem mem_foldl_union {blocks : List BoxRec} {region : RegionRec} :
    p ∈ blocks.foldl (fun region block => region ∪ rectRegion block) region ↔
      p ∈ region ∨ ∃ b ∈ blocks, b.Has p := by
  induction blocks generalizing region with
  | nil => simp
  | cons block blocks ih =>
    rw [List.foldl_cons, ih, Finset.mem_union, mem_rectRegion, List.exists_mem_cons_iff, or_assoc]

/-- The rectangles of the region are compared as one list of blocks. -/
theorem foldl_compareRect {rects : List BoxRec} (henclosed : ∀ r ∈ rects, enclosedBy r screen = true)
    {blocks : List BoxRec} (noted : List BoxRec) {acc : (Pixel → α) × RegionRec}
    (h : Compared fb oldFb blocks (acc.1, noted))
    (hnoted : ∀ p, p ∈ acc.2 ↔ ∃ b ∈ noted, b.Has p) :
    ∃ noted', Compared fb oldFb (blocks ++ rects.flatMap blocksOf)
        ((rects.foldl (compareRect screen fb) acc).1, noted') ∧
      ∀ p, p ∈ (rects.foldl (compareRect screen fb) acc).2 ↔ ∃ b ∈ noted', b.Has p := by
  induction rects generalizing blocks noted acc with
  | nil => exact ⟨noted, by simpa using h, hnoted⟩
  | cons r rects ih =>
    have hfold := h.foldl (blocksOf r)
    rw [foldl_compareBlock] at hfold
    rw [List.foldl_cons, List.flatMap_cons, ← List.append_assoc]
    apply ih (fun r hr => henclosed r (List.mem_cons_of_mem _ hr))
      (noted ++ ((blocksOf r).foldl (compareBlock fb) (acc.1, [])).2)
    · rw [compareRect, if_pos (henclosed r List.mem_cons_self)]
      exact hfold
    · intro p
      rw [compareRect, if_pos (henclosed r List.mem_cons_self)]
      dsimp only
      rw [mem_foldl_union, hnoted]
      simp only [List.mem_append, or_and_right, exists_or]

theorem getRects_topdown (rects : List BoxRec) : (getRects rects true true).Perm rects :=
  getRects_perm rects true true

/-- The rectangles of a region inside the framebuffer are inside it. -/
theorem RectsOf.enclosed {region : RegionRec} {rects : List BoxRec} (h : RectsOf region rects)
    (hin : ∀ p ∈ region, screen.Has p) : ∀ r ∈ rects, enclosedBy r screen = true := by
  intro r hr
  obtain ⟨hx, hy⟩ := h.nonempty r hr
  have hcorner : ∀ q, r.Has q → screen.Has q := fun q hq => hin q ((h.covers q).mpr ⟨r, hr, hq⟩)
  have htl := hcorner (r.x1, r.y1) ⟨le_rfl, by dsimp only; omega, le_rfl, by dsimp only; omega⟩
  have hbr := hcorner (r.x2 - 1, r.y2 - 1)
    ⟨by dsimp only; omega, by dsimp only; omega, by dsimp only; omega, by dsimp only; omega⟩
  obtain ⟨hx₃, -, hy₃, -⟩ := htl
  obtain ⟨-, hx₄, -, hy₄⟩ := hbr
  dsimp only at hx₃ hy₃ hx₄ hy₄
  simp only [enclosedBy, Bool.and_eq_true, decide_eq_true_eq]
  omega

variable {ct : ComparingUpdateTracker α} {copyRects checkRects : List BoxRec}

/-- What `compare` does after the first time. -/
structure Filtered (ct ct' : ComparingUpdateTracker α) (fb : Pixel → α) (checkRects : List BoxRec) : Prop where
  oldFb_eq : ∀ p, ct'.oldFb p = if p ∈ ct.tracker.changed ∪ ct.tracker.copied then fb p else ct.oldFb p
  blocks : ChangedBlocks ct'.tracker.changed checkRects (moved ct.tracker ct.oldFb) fb
  complete : ∀ p ∈ ct.tracker.changed ∪ ct.tracker.copied,
    moved ct.tracker ct.oldFb p ≠ fb p → p ∈ ct'.tracker.changed
  copied : ct'.tracker.copied = ct.tracker.copied \ ct'.tracker.changed
  copyDelta : ct'.tracker.copyDelta = ct.tracker.copyDelta
  firstCompare : ct'.firstCompare = false

theorem compare_filtered (hfirst : ct.firstCompare = false) (hrects : CompareRects ct.tracker copyRects checkRects)
    (hin : ∀ p ∈ ct.tracker.changed ∪ ct.tracker.copied, screen.Has p) :
    Filtered ct (ct.compare screen fb copyRects checkRects) fb checkRects := by
  have henclosed : ∀ r ∈ getRects checkRects true true, enclosedBy r screen = true := fun r hr =>
    hrects.toCheck.enclosed hin r ((getRects_topdown checkRects).mem_iff.mp hr)
  obtain ⟨noted, hcompared, hnoted⟩ := foldl_compareRect henclosed []
    (show Compared fb _ [] ((moved ct.tracker ct.oldFb, (∅ : RegionRec)).1, []) from Compared.nil fb _) (by simp)
  rw [List.nil_append] at hcompared
  have hcovers : ∀ p, (∃ b ∈ (getRects checkRects true true).flatMap blocksOf, b.Has p) ↔
      p ∈ ct.tracker.changed ∪ ct.tracker.copied := by
    intro p
    rw [hrects.toCheck.covers]
    constructor
    · rintro ⟨b, hb, hp⟩
      obtain ⟨r, hr, hb⟩ := List.mem_flatMap.mp hb
      exact ⟨r, (getRects_topdown checkRects).mem_iff.mp hr, exists_mem_blocksOf.mp ⟨b, hb, hp⟩⟩
    · rintro ⟨r, hr, hp⟩
      obtain ⟨b, hb, hp⟩ := exists_mem_blocksOf.mpr hp
      exact ⟨b, List.mem_flatMap.mpr ⟨r, (getRects_topdown checkRects).mem_iff.mpr hr, hb⟩, hp⟩
  have heq : ct.compare screen fb copyRects checkRects =
      { tracker := { ct.tracker with
          copied := ct.tracker.copied \
            ((getRects checkRects true true).foldl (compareRect screen fb) (moved ct.tracker ct.oldFb, ∅)).2
          changed := ((getRects checkRects true true).foldl (compareRect screen fb) (moved ct.tracker ct.oldFb, ∅)).2 }
        oldFb := ((getRects checkRects true true).foldl (compareRect screen fb) (moved ct.tracker ct.oldFb, ∅)).1
        firstCompare := false } := by
    rw [ComparingUpdateTracker.compare, if_neg (by simp [hfirst])]
    dsimp only
    rw [foldl_copyRect hrects.copied]
  rw [heq]
  refine ⟨?_, ?_, ?_, rfl, rfl, rfl⟩
  · intro p
    dsimp only
    rw [hcompared.oldFb_eq p]
    simp only [hcovers p]
    split
    · rfl
    · rename_i hp
      rw [moved, if_neg fun hmem => hp (Finset.mem_union_right _ hmem)]
  · refine ⟨noted, ?_, hnoted⟩
    intro b hb
    obtain ⟨hmem, hdiff⟩ := hcompared.differs b hb
    obtain ⟨r, hr, hb⟩ := List.mem_flatMap.mp hmem
    exact ⟨⟨r, (getRects_topdown checkRects).mem_iff.mp hr, hb⟩, hdiff⟩
  · intro p hp hne
    exact (hnoted p).mpr (hcompared.noted p ((hcovers p).mpr hp) hne)

theorem compare_first (screen : BoxRec) (fb : Pixel → α) (copyRects checkRects : List BoxRec)
    (hfirst : ct.firstCompare = true) :
    (ct.compare screen fb copyRects checkRects).tracker = ct.tracker ∧
      (ct.compare screen fb copyRects checkRects).firstCompare = false ∧
      ∀ p, screen.Has p → (ct.compare screen fb copyRects checkRects).oldFb p = fb p := by
  have hfold : ∀ (ys : List Int) (oldFb : Pixel → α) (p : Pixel),
      ys.foldl (fun oldFb y =>
        imageRect oldFb { screen with y1 := y, y2 := min screen.y2 (y + blockSize) } fb) oldFb p =
      if ∃ y ∈ ys, ({ screen with y1 := y, y2 := min screen.y2 (y + blockSize) } : BoxRec).Has p then fb p
      else oldFb p := by
    intro ys
    induction ys with
    | nil => simp
    | cons y ys ih =>
      intro oldFb p
      rw [List.foldl_cons, ih, imageRect]
      simp only [List.exists_mem_cons_iff]
      by_cases hys : ∃ y ∈ ys, ({ screen with y1 := y, y2 := min screen.y2 (y + blockSize) } : BoxRec).Has p
      · rw [if_pos hys, if_pos (Or.inr hys)]
      · simp only [hys, if_false, or_false]
  rw [ComparingUpdateTracker.compare, if_pos hfirst]
  refine ⟨rfl, rfl, ?_⟩
  rintro p ⟨hx₁, hx₂, hy₁, hy₂⟩
  dsimp only
  rw [hfold, if_pos]
  obtain ⟨y, hy, hle, hlt⟩ := exists_mem_blockSteps.mpr ⟨hy₁, hy₂⟩
  exact ⟨y, hy, hx₁, hx₂, hle, by rwa [min_comm]⟩

/-- What holds between the events of a run. -/
structure Comparing.Inv (screen : BoxRec) (s : Comparing α) : Prop where
  changed : ∀ p ∈ s.comparer.tracker.changed, screen.Has p
  copied : ∀ p ∈ s.comparer.tracker.copied, screen.Has p ∧ screen.Has (s.comparer.tracker.source p)
  reported : ∀ p ∈ s.reported, p ∈ s.comparer.tracker.changed ∪ s.comparer.tracker.copied
  first : s.comparer.firstCompare = true ↔ s.compared = none
  whole : s.compared = none → ∀ p, screen.Has p → p ∈ s.comparer.tracker.changed
  same : ∀ picture, s.compared = some picture → ∀ p, screen.Has p → s.comparer.oldFb p = picture p

variable {s : Comparing α}

theorem Comparing.Inv.toCheck (h : Comparing.Inv screen s) :
    ∀ p ∈ s.comparer.tracker.changed ∪ s.comparer.tracker.copied, screen.Has p := by
  intro p hp
  rcases Finset.mem_union.mp hp with hp | hp
  · exact h.changed p hp
  · exact (h.copied p hp).1

theorem Comparing.Inv.create (screen : BoxRec) (fb oldFb : Pixel → α) :
    Comparing.Inv screen (Comparing.create screen fb oldFb) where
  changed _ hp := mem_rectRegion.mp hp
  copied := nofun
  reported := nofun
  first := ⟨fun _ => rfl, fun _ => rfl⟩
  whole _ _ hp := mem_rectRegion.mpr hp
  same := nofun

theorem Comparing.Inv.addCopied (h : Comparing.Inv screen s) {dest : RegionRec} {delta : Pixel}
    (hdest : ∀ p ∈ dest, screen.Has p ∧ screen.Has (p.move (-delta.1) (-delta.2))) :
    Comparing.Inv screen ((CompareEvent.addCopied dest delta).run screen s) := by
  refine ⟨?_, addCopied_inside h.copied hdest, ?_, h.first, ?_, h.same⟩
  · intro p hp
    have hmem := mem_addCopied.mp (Finset.mem_union_left _ hp)
    rcases Finset.mem_union.mp hmem with hmem | hmem
    · exact h.toCheck p hmem
    · exact (hdest p hmem).1
  · intro p hp
    apply mem_addCopied.mpr
    rcases Finset.mem_union.mp hp with hp | hp
    · exact Finset.mem_union_left _ (h.reported p hp)
    · exact Finset.mem_union_right _ hp
  · intro hnone p hp
    exact subset_addCopied _ dest delta (h.whole hnone p hp)

theorem Comparing.Inv.firstCompare (h : Comparing.Inv screen s) {picture : Pixel → α}
    (hcompared : s.compared = some picture) : s.comparer.firstCompare = false := by
  rw [Bool.eq_false_iff]
  intro htrue
  rw [h.first.mp htrue] at hcompared
  cases hcompared

/-- A compare of a run leaves nothing out, and nothing too much but the first time. -/
theorem Comparing.Inv.exact (h : Comparing.Inv screen s)
    (hvalid : (CompareEvent.compare copyRects checkRects).Valid screen s) :
    Exact screen s ((CompareEvent.compare copyRects checkRects).run screen s) checkRects := by
  obtain ⟨hrects, hreported⟩ := hvalid
  cases hcompared : s.compared with
  | none =>
    obtain ⟨htracker, -, hold⟩ := compare_first screen s.fb copyRects checkRects (h.first.mpr hcompared)
    refine ⟨hold, by simp [hcompared], by simp [hcompared], fun _ => ⟨htracker, fun p hp => ?_⟩⟩
    show p ∈ (s.comparer.compare screen s.fb copyRects checkRects).tracker.changed
    rw [htracker]
    exact h.whole hcompared p hp
  | some picture =>
    have hfiltered : Filtered s.comparer (s.comparer.compare screen s.fb copyRects checkRects) s.fb checkRects :=
      compare_filtered (h.firstCompare hcompared) hrects h.toCheck
    have hmoved : ∀ p, screen.Has p →
        moved s.comparer.tracker s.comparer.oldFb p = moved s.comparer.tracker picture p := by
      intro p hp
      unfold moved
      split
      · rename_i hcopied
        exact h.same picture hcompared _ (h.copied p hcopied).2
      · exact h.same picture hcompared p hp
    have hkept : ∀ p, screen.Has p → p ∉ s.comparer.tracker.changed ∪ s.comparer.tracker.copied →
        picture p = s.fb p := by
      intro p hp hmem
      by_contra hne
      exact hmem (h.reported p (hreported picture hcompared p hp (Ne.symm hne)))
    refine ⟨?_, ?_, ?_, by simp [hcompared]⟩
    · intro p hp
      refine (hfiltered.oldFb_eq p).trans ?_
      split
      · rfl
      · rename_i hmem
        exact (h.same picture hcompared p hp).trans (hkept p hp hmem)
    · intro picture' hpicture' p hp
      cases hcompared.symm.trans hpicture'
      unfold present
      split
      · rfl
      · rename_i hchanged
        have hmoved' : moved (s.comparer.compare screen s.fb copyRects checkRects).tracker picture p =
            moved s.comparer.tracker picture p := by
          simp only [moved, UpdateTracker.source, hfiltered.copied, hfiltered.copyDelta, Finset.mem_sdiff]
          congr 1
          exact propext (and_iff_left hchanged)
        refine hmoved'.trans ?_
        by_cases hmem : p ∈ s.comparer.tracker.changed ∪ s.comparer.tracker.copied
        · rw [← hmoved p hp]
          by_contra hne
          exact hchanged (hfiltered.complete p hmem hne)
        · rw [moved, if_neg fun hcopied => hmem (Finset.mem_union_right _ hcopied)]
          exact hkept p hp hmem
    · intro picture' hpicture'
      cases hcompared.symm.trans hpicture'
      obtain ⟨blocks, hblocks, hmem⟩ := hfiltered.blocks
      refine ⟨blocks, ?_, hmem⟩
      intro b hb
      obtain ⟨⟨r, hr, hin⟩, p, hp, hne⟩ := hblocks b hb
      have hscreen : screen.Has p :=
        h.toCheck p ((hrects.toCheck.covers p).mpr ⟨r, hr, exists_mem_blocksOf.mp ⟨b, hin, hp⟩⟩)
      exact ⟨⟨r, hr, hin⟩, p, hp, hmoved p hscreen ▸ hne⟩

/-- Only what was reported stays reported. -/
theorem compare_subset (fb : Pixel → α) (hrects : CompareRects ct.tracker copyRects checkRects)
    (hin : ∀ p ∈ ct.tracker.changed ∪ ct.tracker.copied, screen.Has p) :
    (∀ p ∈ (ct.compare screen fb copyRects checkRects).tracker.changed,
        p ∈ ct.tracker.changed ∪ ct.tracker.copied) ∧
      (ct.compare screen fb copyRects checkRects).tracker.copied ⊆ ct.tracker.copied ∧
      (ct.compare screen fb copyRects checkRects).tracker.copyDelta = ct.tracker.copyDelta ∧
      (ct.compare screen fb copyRects checkRects).firstCompare = false := by
  cases hfirst : ct.firstCompare with
  | true =>
    obtain ⟨htracker, hfirst', -⟩ := compare_first screen fb copyRects checkRects hfirst
    rw [htracker]
    exact ⟨fun p => Finset.mem_union_left _, Finset.Subset.refl _, rfl, hfirst'⟩
  | false =>
    have hfiltered : Filtered ct (ct.compare screen fb copyRects checkRects) fb checkRects :=
      compare_filtered hfirst hrects hin
    refine ⟨?_, ?_, hfiltered.copyDelta, hfiltered.firstCompare⟩
    · intro p hp
      obtain ⟨blocks, hblocks, hmem⟩ := hfiltered.blocks
      obtain ⟨b, hb, hp⟩ := (hmem p).mp hp
      obtain ⟨⟨r, hr, hin⟩, -⟩ := hblocks b hb
      exact (hrects.toCheck.covers p).mpr ⟨r, hr, exists_mem_blocksOf.mp ⟨b, hin, hp⟩⟩
    · rw [hfiltered.copied]
      exact Finset.sdiff_subset

theorem Comparing.Inv.step (h : Comparing.Inv screen s) {e : CompareEvent α} (hvalid : e.Valid screen s) :
    Comparing.Inv screen (e.run screen s) := by
  cases e with
  | paint fb => exact ⟨h.changed, h.copied, h.reported, h.first, h.whole, h.same⟩
  | addChanged region =>
    refine ⟨?_, h.copied, ?_, h.first, ?_, h.same⟩
    · intro p hp
      rcases Finset.mem_union.mp hp with hp | hp
      · exact h.changed p hp
      · exact hvalid p hp
    · intro p hp
      show p ∈ s.comparer.tracker.changed ∪ region ∪ s.comparer.tracker.copied
      rw [Finset.union_right_comm]
      rcases Finset.mem_union.mp hp with hp | hp
      · exact Finset.mem_union_left _ (h.reported p hp)
      · exact Finset.mem_union_right _ hp
    · intro hnone p hp
      exact Finset.mem_union_left _ (h.whole hnone p hp)
  | addCopied dest delta => exact h.addCopied hvalid
  | compare copyRects checkRects =>
    obtain ⟨hchanged, hcopied, hdelta, hfirst⟩ :=
      compare_subset s.fb hvalid.1 h.toCheck
    refine ⟨?_, ?_, (by rintro _ ⟨⟩), ?_, (by rintro ⟨⟩), ?_⟩
    · intro p hp
      exact h.toCheck p (hchanged p hp)
    · intro p hp
      obtain ⟨hp, hsource⟩ := h.copied p (hcopied hp)
      refine ⟨hp, ?_⟩
      rw [UpdateTracker.source] at hsource ⊢
      exact (congrArg (fun d : Pixel => screen.Has (p.move (-d.1) (-d.2))) hdelta).mpr hsource
    · constructor
      · intro htrue
        cases hfirst.symm.trans htrue
      · intros; contradiction
    · intro picture hpicture p hp
      cases hpicture
      exact (h.exact hvalid).oldFb p hp
  | clear =>
    obtain ⟨hreported, hcompared⟩ := hvalid
    refine ⟨(by rintro _ ⟨⟩), (by rintro _ ⟨⟩), ?_, h.first, fun hnone => absurd hnone hcompared, h.same⟩
    intro p hp
    rw [show (CompareEvent.clear.run screen s).reported = s.reported from rfl, hreported] at hp
    cases hp

/-- In every run each compare is exact. -/
theorem compare_exact {fb oldFb : Pixel → α}
    (h : Lib.Reachable (fun s (e : CompareEvent α) s' => e.run screen s = s') (fun s e => e.Valid screen s)
      (Comparing.create screen fb oldFb) s)
    (hvalid : (CompareEvent.compare copyRects checkRects).Valid screen s) :
    Exact screen s ((CompareEvent.compare copyRects checkRects).run screen s) checkRects := by
  have hinv : Comparing.Inv screen s := by
    apply h.invariant (Comparing.Inv screen) (Comparing.Inv.create screen fb oldFb)
    rintro s e _ hs he rfl
    exact hs.step he
  exact hinv.exact hvalid

/-- Two pixels, of which the second is copied from the first after the first compare. -/
def twoPixels : BoxRec := ⟨0, 0, 2, 1⟩

def firstCompared : Comparing Int :=
  (CompareEvent.compare [] [twoPixels]).run twoPixels (Comparing.create twoPixels (fun p => p.1) fun _ => 7)

def secondCopied : Comparing Int :=
  [CompareEvent.clear, .paint fun _ => 0, .addCopied {(1, 0)} (1, 0)].foldl
    (fun s e => e.run twoPixels s) firstCompared

theorem firstCompare_valid (fb oldFb : Pixel → Int) :
    (CompareEvent.compare [] [twoPixels]).Valid twoPixels (Comparing.create twoPixels fb oldFb) := by
  refine ⟨⟨⟨nofun, List.Pairwise.nil, by simp [Comparing.create, ComparingUpdateTracker.create]⟩,
    ⟨by decide, List.pairwise_singleton _ _, ?_⟩⟩, nofun⟩
  intro p
  simp [Comparing.create, ComparingUpdateTracker.create]

theorem secondCopied_reachable :
    Lib.Reachable (fun s (e : CompareEvent Int) s' => e.run twoPixels s = s') (fun s e => e.Valid twoPixels s)
      (Comparing.create twoPixels (fun p => p.1) fun _ => 7) secondCopied := by
  have hfirst : Lib.Reachable (fun s (e : CompareEvent Int) s' => e.run twoPixels s = s')
      (fun s e => e.Valid twoPixels s) (Comparing.create twoPixels (fun p => p.1) fun _ => 7) firstCompared :=
    .step .init (firstCompare_valid _ _) rfl
  refine .step (.step (.step hfirst (a := .clear) ⟨rfl, nofun⟩ rfl) (a := .paint fun _ => 0) trivial rfl)
    (a := .addCopied {(1, 0)} (1, 0)) ?_ rfl
  intro p hp
  rw [Finset.mem_singleton] at hp
  subst hp
  decide

theorem compare_exact_copied : Exact twoPixels secondCopied
    ((CompareEvent.compare [⟨1, 0, 2, 1⟩] [⟨1, 0, 2, 1⟩]).run twoPixels secondCopied) [⟨1, 0, 2, 1⟩] := by
  apply compare_exact secondCopied_reachable
  have hmem : ∀ p : Pixel, p ∈ ({(1, 0)} : RegionRec) ↔ ∃ r ∈ [(⟨1, 0, 2, 1⟩ : BoxRec)], r.Has p := by
    intro p
    simp only [Finset.mem_singleton, List.mem_singleton, exists_eq_left, Prod.ext_iff, BoxRec.Has]
    omega
  have hregions : secondCopied.comparer.tracker.copied = {(1, 0)} ∧ secondCopied.comparer.tracker.changed = ∅ := by
    decide
  refine ⟨⟨⟨by decide, List.pairwise_singleton _ _, ?_⟩, ⟨by decide, List.pairwise_singleton _ _, ?_⟩⟩, ?_⟩
  · rw [hregions.1]
    exact hmem
  · rw [hregions.1, hregions.2, Finset.empty_union]
    exact hmem
  · intro picture hpicture p hp hne
    cases hpicture
    have hne' : (0 : Int) ≠ p.1 := hne
    have hp' : 0 ≤ p.1 ∧ p.1 < 2 ∧ 0 ≤ p.2 ∧ p.2 < 1 := hp
    apply Finset.mem_union_right
    rw [Finset.mem_singleton]
    ext
    all_goals omega

/-- The first compare leaves pixels that are not different. -/
theorem firstCompare_whole :
    (CompareEvent.compare [] [twoPixels]).Valid twoPixels
        (Comparing.create twoPixels (fun _ => 7) fun _ => (7 : Int)) ∧
      ¬ ChangedBlocks ((CompareEvent.compare [] [twoPixels]).run twoPixels
          (Comparing.create twoPixels (fun _ => 7) fun _ => (7 : Int))).comparer.tracker.changed
        [twoPixels] (fun _ => 7) fun _ => 7 := by
  refine ⟨firstCompare_valid _ _, ?_⟩
  rintro ⟨blocks, hblocks, hmem⟩
  have hpixel : ((0, 0) : Pixel) ∈ rectRegion twoPixels := by decide
  obtain ⟨b, hb, -⟩ := (hmem (0, 0)).mp hpixel
  obtain ⟨-, p, -, hne⟩ := hblocks b hb
  exact hne rfl

end

end Colama.Vnc4

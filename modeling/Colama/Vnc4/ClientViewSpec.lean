import Colama.Vnc4.ClientView
import Colama.Vnc4.ComparingSpec

namespace Colama.Vnc4

open Xvnc (Pixel RegionRec BoxRec)

variable {α : Type*} {screen r : BoxRec} {p : Pixel} {cursor : Pixel → Prop} {ut : UpdateTracker}
  {pixels shown : Pixel → α}

theorem isEmptyRect_of_has (h : r.Has p) : isEmptyRect r = false := by
  obtain ⟨hx₁, hx₂, hy₁, hy₂⟩ := h
  simp only [isEmptyRect, Bool.or_eq_false_iff, decide_eq_false_iff_not]
  omega

theorem intersectRect_has {s : BoxRec} (hr : r.Has p) (hs : s.Has p) : (intersectRect r s).Has p := by
  obtain ⟨hx₁, hx₂, hy₁, hy₂⟩ := hr
  obtain ⟨hx₃, hx₄, hy₃, hy₄⟩ := hs
  exact ⟨max_le hx₁ hx₃, lt_max_of_lt_left (lt_min hx₂ hx₄), max_le hy₁ hy₃, lt_max_of_lt_left (lt_min hy₂ hy₄)⟩

theorem translateRect_has {delta : Pixel} (h : r.Has (p.move (-delta.1) (-delta.2))) :
    (translateRect r delta).Has p := by
  obtain ⟨hx₁, hx₂, hy₁, hy₂⟩ := h
  simp only [Pixel.move] at hx₁ hx₂ hy₁ hy₂
  exact ⟨by dsimp only [translateRect]; omega, by dsimp only [translateRect]; omega,
    by dsimp only [translateRect]; omega, by dsimp only [translateRect]; omega⟩

theorem noRect_has : ¬ noRect.Has p := by
  rintro ⟨hx₁, hx₂, -⟩
  dsimp only [noRect] at hx₁ hx₂
  omega

/-- More may be said to have changed. -/
theorem Tracks.addMore (h : Tracks screen cursor ut pixels shown) (region : RegionRec) :
    Tracks screen cursor (ut.addChanged region) pixels shown :=
  h.addChanged fun _ _ _ => rfl

theorem Tracks.enableCopyrect (h : Tracks screen cursor ut pixels shown) (enable : Bool) :
    Tracks screen cursor (ut.enableCopyrect enable) pixels shown := by
  unfold UpdateTracker.enableCopyrect
  split
  · refine ⟨nofun, ?_, nofun⟩
    intro p hscreen hchanged _ hcursor
    have hchanged' := Finset.notMem_union.mp hchanged
    exact h.outside p hscreen hchanged'.1 hchanged'.2 hcursor
  · exact ⟨h.inside, h.outside, h.moved⟩

/-- What is copied need not be said of what is changed. -/
theorem Tracks.copiedUnchanged (h : Tracks screen cursor ut pixels shown) :
    Tracks screen cursor { ut with copied := ut.copied \ ut.changed } pixels shown := by
  refine ⟨fun p hp => h.inside p (Finset.mem_sdiff.mp hp).1, ?_, fun p hp => h.moved p (Finset.mem_sdiff.mp hp).1⟩
  intro p hscreen hchanged hcopied hcursor
  exact h.outside p hscreen hchanged (fun hp => hcopied (Finset.mem_sdiff.mpr ⟨hp, hchanged⟩)) hcursor

/-- Two trackers one after the other: what the first says of a picture and the second of the next one. -/
theorem Tracks.trans (h : Tracks screen cursor ut pixels shown) {ut' : UpdateTracker} {pixels' : Pixel → α}
    (h' : Tracks screen (fun _ => False) ut' pixels' pixels) :
    Tracks screen cursor ((ut.addCopied ut'.copied ut'.copyDelta).addChanged ut'.changed) pixels' shown := by
  have hcopied : Tracks screen cursor (ut.addCopied ut'.copied ut'.copyDelta) (Vnc4.moved ut' pixels) shown := by
    apply h.addCopied h'.inside
    · exact fun p hp => if_pos hp
    · exact fun p _ hp => if_neg hp
  apply hcopied.addChanged
  intro p hscreen hchanged
  unfold Vnc4.moved
  split
  · rename_i hp
    exact h'.moved p hp hchanged not_false
  · rename_i hp
    exact h'.outside p hscreen hchanged hp not_false

variable [DecidableEq α] {ct : ComparingUpdateTracker α} {fb : Pixel → α} {copyRects checkRects : List BoxRec}

/-- Comparing leaves out only what need not be said. -/
theorem Tracks.compare (h : Tracks screen (fun _ => False) ct.tracker fb shown)
    (hold : ct.firstCompare = false → ∀ p, screen.Has p → ct.oldFb p = shown p)
    (hchanged : ∀ p ∈ ct.tracker.changed, screen.Has p) (hrects : CompareRects ct.tracker copyRects checkRects) :
    Tracks screen (fun _ => False) (ct.compare screen fb copyRects checkRects).tracker fb shown ∧
      ∀ p, screen.Has p → (ct.compare screen fb copyRects checkRects).oldFb p = fb p := by
  cases hfirst : ct.firstCompare with
  | true =>
    obtain ⟨htracker, -, hold'⟩ := compare_first screen fb copyRects checkRects hfirst
    rw [htracker]
    exact ⟨h, hold'⟩
  | false =>
    have hin : ∀ p ∈ ct.tracker.changed ∪ ct.tracker.copied, screen.Has p := by
      intro p hp
      rcases Finset.mem_union.mp hp with hp | hp
      · exact hchanged p hp
      · exact (h.inside p hp).1
    have hfiltered : Filtered ct (ct.compare screen fb copyRects checkRects) fb checkRects :=
      compare_filtered hfirst hrects hin
    have hsource : ∀ p, (ct.compare screen fb copyRects checkRects).tracker.source p = ct.tracker.source p := by
      intro p
      rw [UpdateTracker.source, hfiltered.copyDelta]
      rfl
    have hsame : ∀ p ∈ ct.tracker.changed ∪ ct.tracker.copied,
        p ∉ (ct.compare screen fb copyRects checkRects).tracker.changed → Vnc4.moved ct.tracker ct.oldFb p = fb p :=
      fun p hp hnot => by_contra fun hne => hnot (hfiltered.complete p hp hne)
    refine ⟨⟨?_, ?_, ?_⟩, ?_⟩
    · intro p hp
      rw [hfiltered.copied, Finset.mem_sdiff] at hp
      rw [hsource]
      exact h.inside p hp.1
    · intro p hscreen hnot hnotCopied _
      have hcopied : p ∉ ct.tracker.copied := by
        intro hp
        rw [hfiltered.copied] at hnotCopied
        exact hnotCopied (Finset.mem_sdiff.mpr ⟨hp, hnot⟩)
      by_cases hp : p ∈ ct.tracker.changed
      · rw [← hsame p (Finset.mem_union_left _ hp) hnot, Vnc4.moved, if_neg hcopied]
        exact hold hfirst p hscreen
      · exact h.outside p hscreen hp hcopied not_false
    · intro p hp hnot _
      rw [hfiltered.copied, Finset.mem_sdiff] at hp
      rw [← hsame p (Finset.mem_union_right _ hp.1) hnot, Vnc4.moved, if_pos hp.1, hsource]
      exact hold hfirst _ (h.inside p hp.1).2
    · intro p hscreen
      refine (hfiltered.oldFb_eq p).trans ?_
      split
      · rfl
      · rename_i hp
        have hp' := Finset.notMem_union.mp hp
        exact (hold hfirst p hscreen).trans (h.outside p hscreen hp'.1 hp'.2 not_false).symm

variable {compareFB : Bool} {w : Writing} {s : Session α}

/-- What holds between the events of a run, with what the server showed when updates were last checked. -/
structure Session.Inv (screen : BoxRec) (compareFB : Bool) (s : Session α) : Prop where
  tracks : ∃ checked : Pixel → α,
    Tracks screen (fun _ => False) s.comparer.tracker s.pb checked ∧
    Tracks screen s.renderedCursorRect.Has s.updates checked s.picture ∧
    (compareFB = true → s.comparer.firstCompare = false → ∀ p, screen.Has p → s.comparer.oldFb p = checked p)
  changed : ∀ p ∈ s.comparer.tracker.changed, screen.Has p

/-- What holds once updates have been checked: nothing is pending in the comparer. -/
structure Session.Checked (screen : BoxRec) (compareFB : Bool) (s : Session α) : Prop where
  changed : s.comparer.tracker.changed = ∅
  copied : s.comparer.tracker.copied = ∅
  tracks : Tracks screen s.renderedCursorRect.Has s.updates s.pb s.picture
  oldFb : compareFB = true → s.comparer.firstCompare = false → ∀ p, screen.Has p → s.comparer.oldFb p = s.pb p

theorem Session.Checked.inv (h : Session.Checked screen compareFB s) : Session.Inv screen compareFB s := by
  refine ⟨⟨s.pb, ⟨?_, fun _ _ _ _ _ => rfl, ?_⟩, h.tracks, h.oldFb⟩, ?_⟩
  · rw [h.copied]
    nofun
  · rw [h.copied]
    nofun
  · rw [h.changed]
    nofun

theorem checkUpdate_checked (h : Session.Inv screen compareFB s)
    (hrects : CompareRects s.comparer.tracker w.copyRects w.checkRects) :
    Session.Checked screen compareFB (s.checkUpdate screen compareFB w) := by
  obtain ⟨⟨checked, hpending, hupdates, hold⟩, hchanged⟩ := h
  unfold Session.checkUpdate
  dsimp only
  split
  · rename_i hempty
    have hempty' : s.comparer.tracker.isEmpty = true := (Bool.and_eq_true _ _ ▸ hempty).1
    obtain ⟨hchanged', hcopied'⟩ : s.comparer.tracker.changed = ∅ ∧ s.comparer.tracker.copied = ∅ := by
      simpa [UpdateTracker.isEmpty] using hempty'
    have hsame : ∀ p, screen.Has p → s.pb p = checked p := fun p hp =>
      hpending.outside p hp (by simp [hchanged']) (by simp [hcopied']) not_false
    exact ⟨hchanged', hcopied', hupdates.congr hsame,
      fun hcompare hfirst p hp => (hold hcompare hfirst p hp).trans (hsame p hp).symm⟩
  · cases compareFB with
    | true =>
      obtain ⟨hreport, hold'⟩ := hpending.compare (hold rfl) hchanged hrects
      exact ⟨rfl, rfl, hupdates.trans hreport, fun _ _ => hold'⟩
    | false => exact ⟨rfl, rfl, hupdates.trans hpending, nofun⟩

/-- Nothing is copied from the rendered cursor. -/
def Session.Clean (s : Session α) : Prop :=
  ∀ p ∈ s.updates.copied, p ∉ s.updates.changed → ¬ s.renderedCursorRect.Has (s.updates.source p)

theorem addBogusCopiedCursor_spec (h : Session.Checked screen compareFB s) :
    Session.Checked screen compareFB (s.addBogusCopiedCursor screen) ∧ (s.addBogusCopiedCursor screen).Clean := by
  unfold Session.addBogusCopiedCursor
  have hbogus : ∀ p ∈ s.updates.copied, s.renderedCursorRect.Has (s.updates.source p) →
      p ∈ rectRegion (intersectRect (translateRect s.renderedCursorRect s.updates.copyDelta) screen) := by
    intro p hp hhas
    exact mem_rectRegion.mpr (intersectRect_has (translateRect_has hhas) (h.tracks.inside p hp).1)
  split
  · dsimp only
    split
    · refine ⟨⟨h.changed, h.copied, h.tracks.addMore _, h.oldFb⟩, ?_⟩
      intro p hp hchanged hhas
      exact hchanged (Finset.mem_union_right _ (hbogus p hp hhas))
    · rename_i hdisjoint
      refine ⟨h, fun p hp _ hhas => hdisjoint ?_⟩
      exact Finset.ne_empty_of_mem (Finset.mem_inter.mpr ⟨hp, hbogus p hp hhas⟩)
  · rename_i hnone
    exact ⟨h, fun p hp _ hhas => hnone ⟨Finset.ne_empty_of_mem hp, isEmptyRect_of_has hhas⟩⟩

theorem removeOldCursor_spec (h : Session.Checked screen compareFB s) (hclean : s.Clean) :
    Session.Checked screen compareFB s.removeOldCursor ∧ s.removeOldCursor.Clean := by
  unfold Session.removeOldCursor
  split
  · have htracks := h.tracks.addMore (rectRegion s.renderedCursorRect)
    refine ⟨⟨h.changed, h.copied, ⟨htracks.inside, ?_, ?_⟩, h.oldFb⟩, fun _ _ _ => noRect_has⟩
    · intro p hscreen hchanged hcopied _
      apply htracks.outside p hscreen hchanged hcopied
      exact fun hhas => hchanged (Finset.mem_union_right _ (mem_rectRegion.mpr hhas))
    · intro p hcopied hchanged _
      apply htracks.moved p hcopied hchanged
      exact hclean p hcopied (Finset.notMem_union.mp hchanged).1
  · exact ⟨h, hclean⟩

theorem prepareUpdate_spec (h : Session.Inv screen compareFB s)
    (hrects : CompareRects s.comparer.tracker w.copyRects w.checkRects) :
    Session.Checked screen compareFB (s.prepareUpdate screen compareFB w) ∧
      (s.prepareUpdate screen compareFB w).Clean := by
  obtain ⟨hchecked, hclean⟩ := addBogusCopiedCursor_spec (checkUpdate_checked h hrects)
  exact removeOldCursor_spec hchecked hclean

theorem writeRect_spec (pb : Pixel → α) (acc : (Pixel → α) × RegionRec) (rect : BoxRec × Option BoxRec) :
    (writeRect pb acc rect).1 = imageRect acc.1 (written rect) pb ∧
      (∀ p ∈ (writeRect pb acc rect).2, (written rect).Has p ∨ p ∈ acc.2 ∧ ¬ rect.1.Has p) ∧
      ∀ p ∈ acc.2, ¬ rect.1.Has p → p ∈ (writeRect pb acc rect).2 := by
  obtain ⟨r, actual⟩ := rect
  cases actual with
  | none =>
    refine ⟨rfl, ?_, fun p hp _ => hp⟩
    intro p hp
    exact (em (r.Has p)).imp id fun hnot => ⟨hp, hnot⟩
  | some actual =>
    refine ⟨rfl, ?_, ?_⟩
    · intro p hp
      rcases Finset.mem_union.mp hp with hp | hp
      · obtain ⟨hp, hnot⟩ := Finset.mem_sdiff.mp hp
        exact .inr ⟨hp, fun hhas => hnot (mem_rectRegion.mpr hhas)⟩
      · exact .inl (mem_rectRegion.mp hp)
    · intro p hp hnot
      apply Finset.mem_union_left
      exact Finset.mem_sdiff.mpr ⟨hp, fun hhas => hnot (mem_rectRegion.mp hhas)⟩

theorem foldl_writeRect (pb : Pixel → α) (rects : List (BoxRec × Option BoxRec)) (acc : (Pixel → α) × RegionRec) :
    (∀ p, (rects.foldl (writeRect pb) acc).1 p =
      if ∃ rect ∈ rects, (written rect).Has p then pb p else acc.1 p) ∧
    (∀ p ∈ (rects.foldl (writeRect pb) acc).2,
      (∃ rect ∈ rects, (written rect).Has p) ∨ p ∈ acc.2 ∧ ∀ rect ∈ rects, ¬ rect.1.Has p) ∧
    ∀ p ∈ acc.2, (∀ rect ∈ rects, ¬ rect.1.Has p) → p ∈ (rects.foldl (writeRect pb) acc).2 := by
  induction rects generalizing acc with
  | nil => simp
  | cons rect rects ih =>
    obtain ⟨hpicture, hregion, hkept⟩ := ih (writeRect pb acc rect)
    obtain ⟨hpicture', hregion', hkept'⟩ := writeRect_spec pb acc rect
    rw [List.foldl_cons]
    refine ⟨?_, ?_, ?_⟩
    · intro p
      rw [hpicture, hpicture', imageRect]
      by_cases hrects : ∃ rect ∈ rects, (written rect).Has p
      · rw [if_pos hrects, if_pos ((List.exists_mem_cons_iff ..).mpr (.inr hrects))]
      · simp only [hrects, List.exists_mem_cons_iff, or_false, if_false]
    · intro p hp
      rcases hregion p hp with ⟨rect', hmem, hhas⟩ | ⟨hp, hnot⟩
      · exact .inl ⟨rect', List.mem_cons_of_mem rect hmem, hhas⟩
      · rcases hregion' p hp with hhas | ⟨hp, hnot'⟩
        · exact .inl ⟨rect, List.mem_cons_self, hhas⟩
        · exact .inr ⟨hp, List.forall_mem_cons.mpr ⟨hnot', hnot⟩⟩
    · intro p hp hnot
      obtain ⟨hnot, hnots⟩ := List.forall_mem_cons.mp hnot
      exact hkept p (hkept' p hp hnot) hnots

/-- What an update does to the client's picture, and which pixels it takes as updated. -/
theorem writeRects_spec {update : UpdateTracker} (pb picture : Pixel → α) (hcopied : RectsOf update.copied w.copied)
    (hchanged : RectsOf update.changed (w.changed.map Prod.fst)) (hdisjoint : Disjoint update.copied update.changed) :
    (∀ p, (writeRects w update pb picture).1 p =
      if ∃ rect ∈ w.changed, (written rect).Has p then pb p
      else if p ∈ update.copied then picture (update.source p) else picture p) ∧
    (∀ p ∈ (writeRects w update pb picture).2, w.Sends update p) ∧
    update.copied ⊆ (writeRects w update pb picture).2 := by
  have hrect : ∀ p, p ∈ update.changed ↔ ∃ rect ∈ w.changed, rect.1.Has p := by
    intro p
    rw [hchanged.covers]
    simp only [List.mem_map, exists_exists_and_eq_and]
  unfold writeRects
  obtain ⟨hpicture, hregion, hkept⟩ := foldl_writeRect pb w.changed
    ((getRects w.copied (decide (update.copyDelta.1 ≤ 0)) (decide (update.copyDelta.2 ≤ 0))).foldl
      (fun picture r => Xvnc.copyRect picture r update.copyDelta.1 update.copyDelta.2) picture,
      update.changed ∪ update.copied)
  refine ⟨?_, ?_, ?_⟩
  · intro p
    refine (hpicture p).trans ?_
    have hcopy : (getRects w.copied (decide (update.copyDelta.1 ≤ 0)) (decide (update.copyDelta.2 ≤ 0))).foldl
        (fun picture r => Xvnc.copyRect picture r update.copyDelta.1 update.copyDelta.2) picture =
        moved update picture := by
      simp only [← copyRect_eq]
      exact foldl_copyRect hcopied picture
    rw [hcopy]
    rfl
  · intro p hp
    rcases hregion p hp with hwritten | ⟨hp, hnot⟩
    · exact .inr hwritten
    · rcases Finset.mem_union.mp hp with hp | hp
      · obtain ⟨rect, hmem, hhas⟩ := (hrect p).mp hp
        exact absurd hhas (hnot rect hmem)
      · exact .inl hp
  · intro p hp
    apply hkept p (Finset.mem_union_right _ hp)
    intro rect hmem hhas
    exact Finset.disjoint_left.mp hdisjoint hp ((hrect p).mpr ⟨rect, hmem, hhas⟩)

/-- What `getUpdateInfo` leaves in the tracker. -/
structure Informed (screen : BoxRec) (s : Session α) (updates : UpdateTracker) : Prop where
  tracks : Tracks screen s.renderedCursorRect.Has updates s.pb s.picture
  clean : ∀ p ∈ updates.copied, ¬ s.renderedCursorRect.Has (updates.source p)
  disjoint : Disjoint updates.copied updates.changed
  all : ∀ p ∈ s.updates.changed ∪ s.updates.copied, p ∈ updates.changed ∪ updates.copied
  copyDelta : updates.copyDelta = s.updates.copyDelta

theorem getUpdateInfo_informed (h : Tracks screen s.renderedCursorRect.Has s.updates s.pb s.picture)
    (hclean : s.Clean) : Informed screen s s.getUpdateInfo.1 := by
  have hdelta : (s.updates.enableCopyrect s.useCopyRect).copyDelta = s.updates.copyDelta := by
    unfold UpdateTracker.enableCopyrect
    split
    · rfl
    · rfl
  have hregions : (s.updates.enableCopyrect s.useCopyRect).copied ⊆ s.updates.copied ∧
      s.updates.changed ⊆ (s.updates.enableCopyrect s.useCopyRect).changed ∧
      s.updates.copied ⊆ (s.updates.enableCopyrect s.useCopyRect).changed ∪
        (s.updates.enableCopyrect s.useCopyRect).copied := by
    unfold UpdateTracker.enableCopyrect
    split
    · exact ⟨Finset.empty_subset _, Finset.subset_union_left,
        Finset.subset_union_right.trans Finset.subset_union_left⟩
    · exact ⟨Finset.Subset.refl _, Finset.Subset.refl _, Finset.subset_union_right⟩
  refine ⟨(h.enableCopyrect s.useCopyRect).copiedUnchanged, ?_, Finset.sdiff_disjoint, ?_, hdelta⟩
  · intro p hp
    obtain ⟨hcopied, hchanged⟩ := Finset.mem_sdiff.mp hp
    rw [UpdateTracker.source, Session.getUpdateInfo]
    dsimp only
    rw [hdelta]
    exact hclean p (hregions.1 hcopied) fun hp => hchanged (hregions.2.1 hp)
  · intro p hp
    have hmem : p ∈ (s.updates.enableCopyrect s.useCopyRect).changed ∪
        (s.updates.enableCopyrect s.useCopyRect).copied := by
      rcases Finset.mem_union.mp hp with hp | hp
      · exact Finset.mem_union_left _ (hregions.2.1 hp)
      · exact hregions.2.2 hp
    show p ∈ (s.updates.enableCopyrect s.useCopyRect).changed ∪
      (s.updates.enableCopyrect s.useCopyRect).copied \ (s.updates.enableCopyrect s.useCopyRect).changed
    rwa [Finset.union_sdiff_self_eq_union]

theorem placeCursor_info (w : Writing) (s : Session α) :
    (s.placeCursor w).getUpdateInfo = s.getUpdateInfo ∧ (s.placeCursor w).pb = s.pb ∧
      (s.placeCursor w).picture = s.picture ∧ (s.placeCursor w).comparer = s.comparer := by
  unfold Session.placeCursor
  split
  · exact ⟨rfl, rfl, rfl, rfl⟩
  · exact ⟨rfl, rfl, rfl, rfl⟩

/-- The cursor rectangle is replaced, and what it no longer holds is to be sent or right already. -/
theorem Informed.tracks_placed {updates : UpdateTracker} (h : Informed screen s updates) (hkeeps : w.Keeps screen s) :
    Tracks screen (s.placeCursor w).renderedCursorRect.Has updates s.pb s.picture := by
  refine ⟨h.tracks.inside, ?_, ?_⟩
  · intro p hscreen hchanged hcopied hplaced
    by_cases hcursor : s.renderedCursorRect.Has p
    · rcases hkeeps.cursor p hscreen hcursor hplaced with hmem | hsame
      · rcases Finset.mem_union.mp (h.all p hmem) with hp | hp
        · exact absurd hp hchanged
        · exact absurd hp hcopied
      · exact hsame.symm
    · exact h.tracks.outside p hscreen hchanged hcopied hcursor
  · intro p hcopied hchanged _
    exact h.tracks.moved p hcopied hchanged (h.clean p hcopied)

/-- After an update has been sent. -/
theorem Informed.tracks_sent {region : RegionRec} {picture : Pixel → α} (h : Informed screen s s.getUpdateInfo.1)
    (hkeeps : w.Keeps screen s) (hregion : ∀ p ∈ region, w.Sends s.getUpdateInfo.2 p)
    (hcopied : s.getUpdateInfo.2.copied ⊆ region)
    (hpicture : ∀ p, ¬ (s.placeCursor w).renderedCursorRect.Has p → picture p =
      if ∃ rect ∈ w.changed, (written rect).Has p then s.pb p
      else if p ∈ s.getUpdateInfo.2.copied then s.picture (s.getUpdateInfo.2.source p) else s.picture p) :
    Tracks screen (s.placeCursor w).renderedCursorRect.Has (s.getUpdateInfo.1.subtract region) s.pb picture := by
  have hsource : s.getUpdateInfo.1.source = s.updates.source := by
    funext p
    rw [UpdateTracker.source, h.copyDelta]
    rfl
  have hmoved : ∀ p ∈ s.getUpdateInfo.1.copied, s.pb p = s.picture (s.getUpdateInfo.1.source p) := fun p hp =>
    h.tracks.moved p hp (Finset.disjoint_left.mp h.disjoint hp) (h.clean p hp)
  have hsent : ∀ p, w.Sends s.getUpdateInfo.2 p → ¬ (s.placeCursor w).renderedCursorRect.Has p →
      picture p = s.pb p := by
    intro p hsends hplaced
    rw [hpicture p hplaced]
    split
    · rfl
    · rename_i hwritten
      have hp := hsends.resolve_right hwritten
      rw [if_pos hp]
      exact (hmoved p (Finset.mem_inter.mp hp).1).symm
  have hleft : ∀ p, ¬ w.Sends s.getUpdateInfo.2 p → ¬ (s.placeCursor w).renderedCursorRect.Has p →
      picture p = s.picture p := by
    intro p hsends hplaced
    have hsends' := not_or.mp hsends
    rw [hpicture p hplaced, if_neg hsends'.2, if_neg hsends'.1]
  refine ⟨fun p hp => h.tracks.inside p (Finset.mem_sdiff.mp hp).1, ?_, ?_⟩
  · intro p hscreen hnotChanged hnotCopied hplaced
    by_cases hsends : w.Sends s.getUpdateInfo.2 p
    · exact (hsent p hsends hplaced).symm
    · have hnot : p ∉ region := fun hp => hsends (hregion p hp)
      rw [hleft p hsends hplaced]
      apply (h.tracks_placed hkeeps).outside p hscreen _ _ hplaced
      · exact fun hp => hnotChanged (Finset.mem_sdiff.mpr ⟨hp, hnot⟩)
      · exact fun hp => hnotCopied (Finset.mem_sdiff.mpr ⟨hp, hnot⟩)
  · intro p hp _ hplaced
    obtain ⟨hp, hnot⟩ := Finset.mem_sdiff.mp hp
    have hrequested : p ∉ s.requested := fun hreq => hnot (hcopied (Finset.mem_inter.mpr ⟨hp, hreq⟩))
    change ¬ (s.placeCursor w).renderedCursorRect.Has (s.getUpdateInfo.1.source p) at hplaced
    show s.pb p = picture (s.getUpdateInfo.1.source p)
    by_cases hsends : w.Sends s.getUpdateInfo.2 (s.getUpdateInfo.1.source p)
    · rw [hsent _ hsends hplaced]
      rw [hsource] at hsends hplaced ⊢
      exact hkeeps.copied p hp hrequested hsends hplaced
    · rw [hleft _ hsends hplaced]
      exact hmoved p hp

theorem sendUpdate_checked (h : Session.Checked screen compareFB s) (hclean : s.Clean)
    (hcopied : RectsOf s.getUpdateInfo.2.copied w.copied)
    (hchanged : RectsOf s.getUpdateInfo.2.changed (w.changed.map Prod.fst)) (hkeeps : w.Keeps screen s) :
    Session.Checked screen compareFB (s.sendUpdate w) := by
  have hinformed := getUpdateInfo_informed h.tracks hclean
  obtain ⟨hinfo, hpb, hpicture, hcomparer⟩ := placeCursor_info w s
  unfold Session.sendUpdate
  dsimp only
  rw [hinfo, hpb, hpicture]
  split
  · refine ⟨?_, ?_, ?_, ?_⟩
    · exact hcomparer ▸ h.changed
    · exact hcomparer ▸ h.copied
    · exact hinformed.tracks_placed hkeeps
    · exact hcomparer ▸ h.oldFb
  · have hdisjoint : Disjoint s.getUpdateInfo.2.copied s.getUpdateInfo.2.changed :=
      hinformed.disjoint.mono Finset.inter_subset_left Finset.inter_subset_left
    obtain ⟨hshown, hregion, hsub⟩ := writeRects_spec s.pb s.picture hcopied hchanged hdisjoint
    refine ⟨?_, ?_, ?_, ?_⟩
    · exact hcomparer ▸ h.changed
    · exact hcomparer ▸ h.copied
    · apply hinformed.tracks_sent hkeeps hregion hsub
      intro p hplaced
      refine Eq.trans ?_ (hshown p)
      split
      · exact if_neg hplaced
      · rfl
    · exact hcomparer ▸ h.oldFb

theorem writeFramebufferUpdate_inv (h : Session.Inv screen compareFB s) (hvalid : w.Valid screen compareFB s)
    (hkeeps : s.requested ≠ ∅ →
      ((s.prepareUpdate screen compareFB w).updates.isEmpty && !w.needFakeUpdate &&
        !(s.prepareUpdate screen compareFB w).drawRenderedCursor) = false →
      w.Keeps screen (s.prepareUpdate screen compareFB w)) :
    Session.Inv screen compareFB (s.writeFramebufferUpdate screen compareFB w) := by
  unfold Session.writeFramebufferUpdate
  split
  · exact h
  rename_i hrequested
  obtain ⟨hchecked, hclean⟩ := prepareUpdate_spec h hvalid.compare
  dsimp only
  split
  · exact hchecked.inv
  · rename_i hsend
    have hkeeps' := hkeeps hrequested (Bool.eq_false_iff.mpr hsend)
    exact (sendUpdate_checked hchecked hclean hvalid.copied hvalid.changed hkeeps').inv

theorem Session.Inv.agrees (h : Session.Inv screen compareFB s) : ClientAgrees screen s := by
  obtain ⟨⟨checked, hpending, hupdates, -⟩, -⟩ := h
  constructor
  · intro p hscreen hchanged hcopied hcursor hnot
    have hnot' := Finset.notMem_union.mp hnot
    rw [hpending.outside p hscreen hnot'.1 hnot'.2 not_false]
    exact (hupdates.outside p hscreen hchanged hcopied hcursor).symm
  · intro p hcopied hchanged hcursor hnot
    have hnot' := Finset.notMem_union.mp hnot
    rw [hpending.outside p (hupdates.inside p hcopied).1 hnot'.1 hnot'.2 not_false]
    exact hupdates.moved p hcopied hchanged hcursor

theorem NewSession.inv (h : NewSession screen s) : Session.Inv screen compareFB s := by
  obtain ⟨oldFb, hcomparer⟩ := h.comparer
  refine ⟨⟨s.pb, ⟨?_, fun _ _ _ _ _ => rfl, ?_⟩, ⟨?_, ?_, ?_⟩, ?_⟩, ?_⟩
  · rw [hcomparer]
    nofun
  · rw [hcomparer]
    nofun
  · rw [h.copied]
    nofun
  · intro p hscreen hchanged
    rw [h.changed] at hchanged
    exact absurd (mem_rectRegion.mpr hscreen) hchanged
  · rw [h.copied]
    nofun
  · rw [hcomparer]
    nofun
  · rw [hcomparer]
    exact fun p hp => mem_rectRegion.mp hp

/-- The cursor alone changes nothing of what is tracked. -/
theorem Session.Inv.of_frame {s' : Session α} (h : Session.Inv screen compareFB s) (hpb : s'.pb = s.pb)
    (hcomparer : s'.comparer = s.comparer) (hupdates : s'.updates = s.updates)
    (hcursor : s'.renderedCursorRect = s.renderedCursorRect) (hpicture : s'.picture = s.picture) :
    Session.Inv screen compareFB s' := by
  obtain ⟨htracks, hchanged⟩ := h
  refine ⟨?_, ?_⟩
  · rw [hpb, hcomparer, hupdates, hcursor, hpicture]
    exact htracks
  · rw [hcomparer]
    exact hchanged

theorem Session.Inv.addRequest (h : Session.Inv screen compareFB s) {incremental : Bool}
    (hinside : incremental = false → ∀ p, r.Has p → screen.Has p) :
    Session.Inv screen compareFB (s.addRequest r incremental) := by
  obtain ⟨⟨checked, hpending, hupdates, hold⟩, hchanged⟩ := h
  cases incremental with
  | true => exact ⟨⟨checked, hpending, hupdates, hold⟩, hchanged⟩
  | false =>
    refine ⟨⟨checked, hpending.addMore _, hupdates.addMore _, hold⟩, ?_⟩
    intro p hp
    rcases Finset.mem_union.mp hp with hp | hp
    · exact hchanged p hp
    · exact hinside rfl p (mem_rectRegion.mp hp)

theorem Session.Inv.step (h : Session.Inv screen compareFB s) {e : ViewEvent α}
    (hvalid : e.Valid screen compareFB s) (hkeeps : e.Keeps screen compareFB s) :
    Session.Inv screen compareFB (e.run screen compareFB s) := by
  obtain ⟨hwriting, hvalid⟩ := hvalid
  obtain ⟨hwrites, hkeeps⟩ := hkeeps
  cases e with
  | addChanged region pb =>
    obtain ⟨⟨checked, hpending, hupdates, hold⟩, hchanged⟩ := h
    refine ⟨⟨checked, hpending.addChanged fun p _ hp => (hvalid p).2 hp, hupdates, hold⟩, ?_⟩
    intro p hp
    rcases Finset.mem_union.mp hp with hp | hp
    · exact hchanged p hp
    · exact (hvalid p).1 hp
  | addCopied dest delta pb =>
    obtain ⟨⟨checked, hpending, hupdates, hold⟩, hchanged⟩ := h
    have hin : ∀ p ∈ dest, screen.Has p ∧ screen.Has (p.move (-delta.1) (-delta.2)) := fun p hp =>
      ⟨(hvalid.1 p hp).1, (hvalid.1 p hp).2.1⟩
    refine ⟨⟨checked, hpending.addCopied hin (fun p hp => (hvalid.1 p hp).2.2) fun p _ hp => hvalid.2 p hp,
      hupdates, hold⟩, ?_⟩
    intro p hp
    have hmem := mem_addCopied.mp (Finset.mem_union_left _ hp)
    simp only [Finset.mem_union] at hmem
    rcases hmem with (hmem | hmem) | hmem
    · exact hchanged p hmem
    · exact (hpending.inside p hmem).1
    · exact (hin p hmem).1
  | setCursor cursor late => exact h.of_frame rfl rfl rfl rfl rfl
  | setCursorPos pos late =>
    show Session.Inv screen compareFB (s.setCursorPos pos late)
    unfold Session.setCursorPos
    split
    · exact h
    · exact h.of_frame rfl rfl rfl rfl rfl
  | pointerEvent pos => exact h.of_frame rfl rfl rfl rfl rfl
  | setSupportsLocalCursor supports =>
    cases supports with
    | true => exact h.of_frame rfl rfl rfl rfl rfl
    | false => exact h.of_frame rfl rfl rfl rfl rfl
  | request r incremental w =>
    exact writeFramebufferUpdate_inv (h.addRequest hkeeps.1) (hwriting _ w rfl) (hwrites _ w rfl)
  | writeFramebufferUpdate w => exact writeFramebufferUpdate_inv h (hwriting _ w rfl) (hwrites _ w rfl)

/-- In every run whose updates keep track of the cursor and of the copy, the client shows what the server
believes it shows. -/
theorem session_agrees {s₀ : Session α} (hnew : NewSession screen s₀)
    (h : Lib.Reachable (fun s (e : ViewEvent α) s' => e.run screen compareFB s = s')
      (fun s e => e.Valid screen compareFB s ∧ e.Keeps screen compareFB s) s₀ s) : ClientAgrees screen s := by
  have hinv : Session.Inv screen compareFB s := by
    apply h.invariant (Session.Inv screen compareFB) hnew.inv
    rintro s e _ hs ⟨hvalid, hkeeps⟩ rfl
    exact hs.step hvalid hkeeps
  exact hinv.agrees

theorem RectsOf.of_union {region : RegionRec} {rects : List BoxRec}
    (hnonempty : ∀ r ∈ rects, r.x1 < r.x2 ∧ r.y1 < r.y2) (hbanded : Xvnc.Banded rects)
    (hunion : region = rects.foldl (fun region r => region ∪ rectRegion r) ∅) : RectsOf region rects := by
  refine ⟨hnonempty, hbanded, fun p => ?_⟩
  rw [hunion, mem_foldl_union]
  simp

/-- Three pixels in a row, and a client that draws the cursor itself. -/
def threePixels : BoxRec := ⟨0, 0, 3, 1⟩

def newSession : Session Int where
  pb p := p.1
  comparer := ComparingUpdateTracker.create threePixels fun _ => 7
  cursor := { width := 0, height := 0, hotspot := (0, 0), image := fun _ => none }
  cursorPos := (0, 0)
  renderedCursorInvalid := false
  renderedCursorArea := noRect
  renderedCursor _ := 0
  updates := { changed := rectRegion threePixels, copied := ∅, copyDelta := (0, 0), copyEnabled := false }
  requested := ∅
  drawRenderedCursor := false
  removeRenderedCursor := false
  renderedCursorRect := noRect
  pointerEventPos := (0, 0)
  supportsLocalCursor := true
  useCopyRect := true
  picture _ := 9

/-- What is written when the encoder writes all of the changed rectangles. -/
def writing (copyRects checkRects copied changed : List BoxRec) : Writing where
  lateInCheck := false
  late := false
  needFakeUpdate := false
  copyRects
  checkRects
  copied
  changed := changed.map fun r => (r, none)

def requestAll : ViewEvent Int := .request threePixels true (writing [] [threePixels] [] [threePixels])

theorem writing_valid {compareFB : Bool} {s : Session Int} {copyRects checkRects copied changed : List BoxRec}
    (hcopy : RectsOf s.comparer.tracker.copied copyRects)
    (hcheck : RectsOf (s.comparer.tracker.changed ∪ s.comparer.tracker.copied) checkRects)
    (hcopied : RectsOf (s.prepareUpdate screen compareFB
      (writing copyRects checkRects copied changed)).getUpdateInfo.2.copied copied)
    (hchanged : RectsOf (s.prepareUpdate screen compareFB
      (writing copyRects checkRects copied changed)).getUpdateInfo.2.changed changed) :
    (writing copyRects checkRects copied changed).Valid screen compareFB s := by
  refine ⟨⟨hcopy, hcheck⟩, hcopied, ?_, ?_⟩
  · simpa [writing, Function.comp_def] using hchanged
  · intro rect hrect actual hactual
    obtain ⟨r, -, rfl⟩ := List.mem_map.mp hrect
    cases hactual

/-- Without a cursor on the screen, and with nothing left to be copied. -/
theorem keeps_of_requested {s : Session Int} {w : Writing} (hcursor : isEmptyRect s.renderedCursorRect = true)
    (hcopied : s.getUpdateInfo.1.copied ⊆ s.requested) : w.Keeps screen s := by
  constructor
  · intro p _ hhas
    cases hcursor.symm.trans (isEmptyRect_of_has hhas)
  · intro p hp hrequested
    exact absurd (hcopied hp) hrequested

/-- The first pixel is copied to the third. -/
def copyFirst (s : Session Int) : ViewEvent Int :=
  .addCopied {(2, 0)} (2, 0) fun p => if p = (2, 0) then s.pb (0, 0) else s.pb p

def sessionShown : Session Int := requestAll.run threePixels true newSession

def sessionCopied : Session Int := (copyFirst sessionShown).run threePixels true sessionShown

def requestCopied : ViewEvent Int :=
  .request threePixels true (writing [⟨2, 0, 3, 1⟩] [⟨2, 0, 3, 1⟩] [⟨2, 0, 3, 1⟩] [])

theorem newSession_new : NewSession threePixels newSession := ⟨⟨_, rfl⟩, rfl, rfl, rfl⟩

theorem requestAll_valid : requestAll.Valid threePixels true newSession := by
  refine ⟨?_, trivial⟩
  rintro s' w ⟨⟩
  apply writing_valid
  · exact .of_union (by decide) List.Pairwise.nil (by decide)
  · exact .of_union (by decide) (List.pairwise_singleton _ _) (by decide)
  · exact .of_union (by decide) List.Pairwise.nil (by decide)
  · exact .of_union (by decide) (List.pairwise_singleton _ _) (by decide)

theorem requestAll_keeps : requestAll.Keeps threePixels true newSession := by
  refine ⟨?_, nofun, by decide, by decide⟩
  rintro s' w ⟨⟩ - -
  exact keeps_of_requested (by decide) (by decide)

theorem copyFirst_valid (s : Session Int) : (copyFirst s).Valid threePixels true s := by
  constructor
  · intro s' w hwrite
    cases hwrite
  · constructor
    · intro p hp
      rw [Finset.mem_singleton] at hp
      subst hp
      have hmove : Pixel.move (2, 0) (-2) (-0) = (0, 0) := by decide
      refine ⟨by decide, by decide, ?_⟩
      show (if ((2, 0) : Pixel) = (2, 0) then s.pb (0, 0) else s.pb (2, 0)) = s.pb (Pixel.move (2, 0) (-2) (-0))
      rw [if_pos rfl, hmove]
    · intro p hp
      exact if_neg fun heq => hp (Finset.mem_singleton.mpr heq)

theorem copyFirst_keeps (s : Session Int) : (copyFirst s).Keeps threePixels true s := by
  constructor
  · intro s' w hwrite
    cases hwrite
  · trivial

theorem sessionCopied_reachable :
    Lib.Reachable (fun s (e : ViewEvent Int) s' => e.run threePixels true s = s')
      (fun s e => e.Valid threePixels true s ∧ e.Keeps threePixels true s) newSession sessionCopied :=
  .step (.step .init ⟨requestAll_valid, requestAll_keeps⟩ rfl) ⟨copyFirst_valid _, copyFirst_keeps _⟩ rfl

theorem session_agrees_copied :
    (requestCopied.run threePixels true sessionCopied).picture (2, 0) = 0 ∧
      ClientAgrees threePixels (requestCopied.run threePixels true sessionCopied) := by
  refine ⟨by with_unfolding_all decide, ?_⟩
  apply @session_agrees _ _ _ true _ _ newSession_new
  refine .step sessionCopied_reachable (a := requestCopied) ⟨⟨?_, trivial⟩, ?_, nofun, by decide, by decide⟩ rfl
  · rintro s' w ⟨⟩
    apply writing_valid
    · exact .of_union (by decide) (List.pairwise_singleton _ _) (by decide)
    · exact .of_union (by decide) (List.pairwise_singleton _ _) (by decide)
    · exact .of_union (by decide) (List.pairwise_singleton _ _) (by with_unfolding_all decide)
    · exact .of_union (by decide) List.Pairwise.nil (by with_unfolding_all decide)
  · rintro s' w ⟨⟩ - -
    exact keeps_of_requested (by with_unfolding_all decide) (by with_unfolding_all decide)

/-- Then the first pixel changes, and the client asks for it alone. -/
def changeFirst : ViewEvent Int := .addChanged {(0, 0)} fun p => if p = (0, 0) then 5 else sessionCopied.pb p

def requestFirst : ViewEvent Int :=
  .request ⟨0, 0, 1, 1⟩ true (writing [⟨2, 0, 3, 1⟩] [⟨0, 0, 1, 1⟩, ⟨2, 0, 3, 1⟩] [] [⟨0, 0, 1, 1⟩])

def sessionStale : Session Int :=
  requestFirst.run threePixels true (changeFirst.run threePixels true sessionCopied)

theorem sessionStale_reachable :
    Lib.Reachable (fun s (e : ViewEvent Int) s' => e.run threePixels true s = s')
      (fun s e => e.Valid threePixels true s) newSession sessionStale := by
  refine .step (.step (sessionCopied_reachable.mono fun _ _ h => h.1) (a := changeFirst) ⟨?_, ?_⟩ rfl)
    (a := requestFirst) ⟨?_, trivial⟩ rfl
  · intro s' w hwrite
    cases hwrite
  · intro p
    rw [Finset.mem_singleton]
    exact ⟨fun hp => hp ▸ by decide, fun hp => if_neg hp⟩
  · rintro s' w ⟨⟩
    apply writing_valid
    · exact .of_union (by decide) (List.pairwise_singleton _ _) (by decide)
    · exact .of_union (by decide) (by simp [Xvnc.Banded]) (by decide)
    · exact .of_union (by decide) List.Pairwise.nil (by with_unfolding_all decide)
    · exact .of_union (by decide) (List.pairwise_singleton _ _) (by with_unfolding_all decide)

/-- The copy that is left would take what the first pixel is now. -/
theorem session_stale :
    ∃ s, Lib.Reachable (fun s (e : ViewEvent Int) s' => e.run threePixels true s = s')
      (fun s e => e.Valid threePixels true s) newSession s ∧ ¬ ClientAgrees threePixels s := by
  refine ⟨sessionStale, sessionStale_reachable, fun hagrees => ?_⟩
  refine absurd (hagrees.copied (2, 0) ?_ ?_ ?_ ?_) (by with_unfolding_all decide)
  all_goals with_unfolding_all decide

end Colama.Vnc4

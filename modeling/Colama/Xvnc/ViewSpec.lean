import Colama.Xvnc.View
import Colama.Lib.Runs

namespace Colama.Xvnc

variable {α : Type*} {s : System α}

theorem Pixel.move_move (p : Pixel) (dx dy dx' dy' : Int) :
    (p.move dx dy).move dx' dy' = p.move (dx + dx') (dy + dy') := by
  simp only [Pixel.move, add_assoc]

theorem Pixel.move_zero (p : Pixel) : p.move 0 0 = p := by
  simp only [Pixel.move, add_zero]

theorem mem_translate {region : RegionRec} {dx dy : Int} {p : Pixel} :
    p ∈ translate region dx dy ↔ p.move (-dx) (-dy) ∈ region := by
  rw [translate, Finset.mem_image]
  constructor
  · rintro ⟨q, hq, rfl⟩
    rwa [Pixel.move_move, add_neg_cancel, add_neg_cancel, Pixel.move_zero]
  · intro h
    exact ⟨_, h, by rw [Pixel.move_move, neg_add_cancel, neg_add_cancel, Pixel.move_zero]⟩

/-- What is known of the client's picture, whatever the delta of an empty region. -/
structure Known (s : System α) : Prop where
  outside : ∀ p, p ∉ s.regions.modifiedRegion → p ∉ s.regions.copyRegion → s.client p = s.server p
  copied : ∀ p ∈ s.regions.copyRegion, p ∉ s.regions.modifiedRegion →
    s.server p = s.client (p.move (-s.regions.copyDX) (-s.regions.copyDY))

def ZeroDelta (regions : ClientRegions) : Prop :=
  regions.copyRegion = ∅ → regions.copyDX = 0 ∧ regions.copyDY = 0

theorem Consistent.known (h : Consistent s) : Known s := ⟨h.outside, h.copied⟩

theorem Known.consistent (h : Known s) (hdelta : ZeroDelta s.regions) : Consistent s := by
  refine ⟨h.outside, h.copied, hdelta, fun hmod hcopy => ?_⟩
  funext p
  exact h.outside p (by simp [hmod]) (by simp [hcopy])

theorem Known.draw (h : Known s) {region : RegionRec} {pixels : Pixel → α}
    (hp : ∀ p ∉ region, pixels p = s.server p) : Known (Xvnc.draw s region pixels) := by
  constructor
  · intro p hmod hcopy
    have hmod' := Finset.notMem_union.mp hmod
    exact (h.outside p hmod'.1 hcopy).trans (hp p hmod'.2).symm
  · intro p hcopy hmod
    have hmod' := Finset.notMem_union.mp hmod
    exact (hp p hmod'.2).trans (h.copied p hcopy hmod'.1)

theorem Known.addRequest (h : Known s) (incremental : Bool) (region : RegionRec) :
    Known { s with regions := Xvnc.addRequest s.regions incremental region } := by
  cases incremental with
  | true => exact ⟨h.outside, h.copied⟩
  | false =>
    constructor
    · intro p hmod hcopy
      have hmod' := Finset.notMem_union.mp hmod
      apply h.outside p hmod'.1
      exact fun hmem => hcopy (Finset.mem_sdiff.mpr ⟨hmem, hmod'.2⟩)
    · intro p hcopy hmod
      exact h.copied p (Finset.mem_sdiff.mp hcopy).1 (Finset.notMem_union.mp hmod).1

/-- The end of `rfbCopyRegion`, where the copy goes on from pixels that are known to be on the client. -/
def combineCopy (cl : ClientRegions) (src dst : RegionRec) (dx dy : Int) : ClientRegions :=
  { cl with
    modifiedRegion := (cl.modifiedRegion ∪ dst ∪ cl.copyRegion) \ (translate src dx dy ∩ dst)
    copyRegion := translate src dx dy ∩ dst
    copyDX := if (translate src dx dy ∩ dst).Nonempty then cl.copyDX + dx else 0
    copyDY := if (translate src dx dy ∩ dst).Nonempty then cl.copyDY + dy else 0 }

theorem combineCopy_zeroDelta (cl : ClientRegions) (src dst : RegionRec) (dx dy : Int) :
    ZeroDelta (combineCopy cl src dst dx dy) := by
  intro hempty
  have hnot : ¬ (translate src dx dy ∩ dst).Nonempty := Finset.not_nonempty_iff_eq_empty.mpr hempty
  exact ⟨if_neg hnot, if_neg hnot⟩

theorem combineCopy_known {cl : ClientRegions} {src dst : RegionRec} {dx dy : Int} {pixels : Pixel → α}
    (houtside : ∀ p, p ∉ cl.modifiedRegion → p ∉ cl.copyRegion → s.client p = s.server p)
    (hsrc : ∀ q ∈ src, s.server q = s.client (q.move (-cl.copyDX) (-cl.copyDY)))
    (hdst : ∀ p ∉ dst, pixels p = s.server p)
    (hcopy : ∀ p ∈ dst, p.move (-dx) (-dy) ∈ src → pixels p = s.server (p.move (-dx) (-dy))) :
    Known { s with server := pixels, regions := combineCopy cl src dst dx dy } := by
  constructor
  · intro p hmod hcp
    have hmem : p ∉ cl.modifiedRegion ∪ dst ∪ cl.copyRegion := fun hmem =>
      hmod (Finset.mem_sdiff.mpr ⟨hmem, hcp⟩)
    rw [Finset.notMem_union, Finset.notMem_union] at hmem
    exact (houtside p hmem.1.1 hmem.2).trans (hdst p hmem.1.2).symm
  · intro p hcp _
    have hne : (translate src dx dy ∩ dst).Nonempty := ⟨p, hcp⟩
    have hp := Finset.mem_inter.mp hcp
    have hq := mem_translate.1 hp.1
    show pixels p = s.client (p.move (-(combineCopy cl src dst dx dy).copyDX) (-(combineCopy cl src dst dx dy).copyDY))
    rw [combineCopy, if_pos hne, if_pos hne, hcopy p hp.2 hq, hsrc _ hq, Pixel.move_move]
    congr 1
    ring_nf

theorem copy_consistent (h : Consistent s) {src dst : RegionRec} {dx dy : Int} {pixels : Pixel → α}
    (hdst : ∀ p ∉ dst, pixels p = s.server p)
    (hcopy : ∀ p ∈ dst, p.move (-dx) (-dy) ∈ src → pixels p = s.server (p.move (-dx) (-dy))) :
    Consistent { s with server := pixels, regions := rfbCopyRegion s.regions src dst dx dy } := by
  have hsub : ∀ src' ⊆ src, ∀ p ∈ dst, p.move (-dx) (-dy) ∈ src' →
      pixels p = s.server (p.move (-dx) (-dy)) := fun src' hs p hp hq => hcopy p hp (hs hq)
  have hfresh : ∀ q ∈ src \ s.regions.modifiedRegion, q ∉ s.regions.copyRegion →
      s.server q = s.client q := fun q hq hq' => (h.outside q (Finset.mem_sdiff.mp hq).2 hq').symm
  unfold rfbCopyRegion
  extract_lets src' combine tmp copyRegion
  split
  · rename_i hne
    split
    · -- the copies are combined
      apply Known.consistent _ (combineCopy_zeroDelta s.regions tmp dst dx dy)
      apply combineCopy_known h.outside _ hdst
      · exact hsub tmp (Finset.inter_subset_left.trans Finset.sdiff_subset)
      · intro q hq
        have hq' := Finset.mem_inter.mp hq
        exact h.copied q hq'.2 (Finset.mem_sdiff.mp hq'.1).2
    · rename_i htmp
      split
      · -- the old copy is kept
        apply Known.consistent
        · constructor
          · intro p hmod hcp
            have hmod' := Finset.notMem_union.mp hmod
            show s.client p = pixels p
            rw [hdst p hmod'.2]
            apply h.outside p hmod'.1
            exact fun hmem => hcp (Finset.mem_sdiff.mpr ⟨hmem, hmod'.2⟩)
          · intro p hcp hmod
            have hmod' := Finset.notMem_union.mp hmod
            have hne' : copyRegion.Nonempty := ⟨p, hcp⟩
            show pixels p = s.client (p.move (-if copyRegion.Nonempty then s.regions.copyDX else 0)
              (-if copyRegion.Nonempty then s.regions.copyDY else 0))
            rw [if_pos hne', if_pos hne', hdst p hmod'.2]
            exact h.copied p (Finset.mem_sdiff.mp hcp).1 hmod'.1
        · intro hempty
          have hnot : ¬ copyRegion.Nonempty := Finset.not_nonempty_iff_eq_empty.mpr hempty
          exact ⟨if_neg hnot, if_neg hnot⟩
      · -- the new copy takes the place of the old one
        apply Known.consistent _ (combineCopy_zeroDelta _ src' dst dx dy)
        apply combineCopy_known _ _ hdst
        · exact hsub src' Finset.sdiff_subset
        · intro p hmod hcp
          have hmod' := Finset.notMem_union.mp hmod
          exact h.outside p hmod'.1 hmod'.2
        · intro q hq
          rw [neg_zero, Pixel.move_zero]
          apply hfresh q hq
          intro hq'
          exact htmp ⟨q, Finset.mem_inter.mpr ⟨hq, hq'⟩⟩
  · rename_i hne
    have hempty : s.regions.copyRegion = ∅ := Finset.not_nonempty_iff_eq_empty.mp hne
    obtain ⟨hdx, hdy⟩ := h.delta hempty
    apply Known.consistent _ (combineCopy_zeroDelta s.regions src' dst dx dy)
    apply combineCopy_known h.outside _ hdst
    · exact hsub src' Finset.sdiff_subset
    · intro q hq
      rw [hdx, hdy, neg_zero, Pixel.move_zero]
      exact hfresh q hq (by simp [hempty])

/-- Where `c` takes its pixels nothing of `b` has been put. -/
def Untouched (dx dy : Int) (b c : BoxRec) : Prop := ∀ p, c.Has p → ¬ b.Has (p.move (-dx) (-dy))

/-- Copies one after the other are one copy of all, if none spoils the source of a later one. -/
theorem foldl_copyRect (client : Pixel → α) (boxes : List BoxRec) (dx dy : Int)
    (h : boxes.Pairwise (Untouched dx dy)) : ∀ p,
    boxes.foldl (fun client box => copyRect client box dx dy) client p =
      if ∃ box ∈ boxes, box.Has p then client (p.move (-dx) (-dy)) else client p := by
  induction boxes using List.reverseRecOn with
  | nil => simp
  | append_singleton boxes box ih =>
    intro p
    have hsplit := List.pairwise_append.mp h
    rw [List.foldl_append, List.foldl_cons, List.foldl_nil, copyRect]
    by_cases hp : box.Has p
    · have hnone : ¬ ∃ b ∈ boxes, b.Has (p.move (-dx) (-dy)) := by
        rintro ⟨b, hb, hhas⟩
        exact hsplit.2.2 b hb box (List.mem_singleton_self box) p hp hhas
      rw [if_pos hp, ih hsplit.1, if_neg hnone, if_pos ⟨box, by simp, hp⟩]
    · rw [if_neg hp, ih hsplit.1]
      simp [or_and_right, exists_or, hp]

theorem untouched_above {dx dy : Int} {b c : BoxRec} (hdy : dy ≤ 0) (h : b.y2 ≤ c.y1) : Untouched dx dy b c := by
  rintro p ⟨-, -, hy, -⟩ ⟨-, -, -, hy'⟩
  simp only [Pixel.move] at hy'
  omega

theorem untouched_below {dx dy : Int} {b c : BoxRec} (hdy : 0 < dy) (h : c.y2 ≤ b.y1) : Untouched dx dy b c := by
  rintro p ⟨-, -, -, hy⟩ ⟨-, -, hy', -⟩
  simp only [Pixel.move] at hy'
  omega

theorem untouched_left {dx dy : Int} {b c : BoxRec} (hdx : dx ≤ 0) (h : b.x2 ≤ c.x1) : Untouched dx dy b c := by
  rintro p ⟨hx, -⟩ ⟨-, hx', -⟩
  simp only [Pixel.move] at hx'
  omega

theorem untouched_right {dx dy : Int} {b c : BoxRec} (hdx : 0 < dx) (h : c.x2 ≤ b.x1) : Untouched dx dy b c := by
  rintro p ⟨-, hx, -⟩ ⟨hx', -⟩
  simp only [Pixel.move] at hx'
  omega

/-- The order of the copies keeps every source until it is needed. -/
theorem rfbSendCopyRegion_untouched {boxes : List BoxRec} (h : Banded boxes) (dx dy : Int) :
    (rfbSendCopyRegion BoxRec.y1 boxes dx dy).Pairwise (Untouched dx dy) := by
  unfold rfbSendCopyRegion
  by_cases hdy : dy ≤ 0
  · rw [if_pos hdy]
    apply copyOrder_pairwise BoxRec.y1 _ 1 (by decide)
    · exact h.imp fun hbc => by omega
    · exact h.imp fun hbc hne => untouched_above hdy (by omega)
    · apply h.imp
      intro b c hbc heq
      by_cases hdx : dx ≤ 0
      · simp only [hdx, hdy, decide_true, BEq.rfl, if_true]
        exact untouched_left hdx (by omega)
      · simp only [hdx, hdy, decide_true, decide_false, Bool.false_beq, Bool.not_true, Bool.false_eq_true, if_false]
        exact untouched_right (by omega) (by omega)
  · rw [if_neg hdy]
    apply copyOrder_pairwise BoxRec.y1 _ (-1) (by decide)
    · exact List.pairwise_reverse.mpr (h.imp fun hbc => by omega)
    · exact List.pairwise_reverse.mpr (h.imp fun hbc hne => untouched_below (by omega) (by omega))
    · apply List.pairwise_reverse.mpr
      apply h.imp
      intro c b hbc heq
      by_cases hdx : dx ≤ 0
      · simp only [hdx, hdy, decide_true, decide_false, Bool.true_beq, Bool.false_eq_true, if_false]
        exact untouched_left hdx (by omega)
      · simp only [hdx, hdy, decide_false, BEq.rfl, if_true]
        exact untouched_right (by omega) (by omega)

theorem applyUpdate_eq {update : Update} {boxes : List BoxRec} (hband : Banded boxes)
    (hboxes : ∀ p, p ∈ update.updateCopyRegion ↔ ∃ box ∈ boxes, box.Has p) (p : Pixel) :
    applyUpdate s update boxes p =
      if p ∈ update.updateRegion then s.server p
      else if p ∈ update.updateCopyRegion then s.client (p.move (-update.dx) (-update.dy))
      else s.client p := by
  have hmem : (∃ box ∈ rfbSendCopyRegion BoxRec.y1 boxes update.dx update.dy, box.Has p) ↔
      p ∈ update.updateCopyRegion := by
    simp only [(rfbSendCopyRegion_perm BoxRec.y1 boxes update.dx update.dy).mem_iff, hboxes]
  simp only [applyUpdate, foldl_copyRect s.client _ _ _ (rfbSendCopyRegion_untouched hband _ _) p, hmem]

theorem takeUpdate_none {cl : ClientRegions} {sendCursor : Bool} (h : (takeUpdate cl sendCursor).2 = none) :
    (takeUpdate cl sendCursor).1 = { cl with copyRegion := cl.copyRegion \ cl.modifiedRegion } ∧
      Disjoint cl.requestedRegion cl.modifiedRegion ∧ sendCursor = false := by
  unfold takeUpdate at h ⊢
  extract_lets copyRegion updateRegion updateCopyRegion sent at h ⊢
  by_cases hcond : ¬ updateRegion.Nonempty ∧ sendCursor = false
  · rw [if_pos hcond]
    refine ⟨rfl, ?_, hcond.2⟩
    rw [Finset.disjoint_left]
    intro p hp hp'
    exact hcond.1 ⟨p, Finset.mem_inter.mpr ⟨hp, Finset.mem_union_right _ hp'⟩⟩
  · rw [if_neg hcond] at h
    cases h

theorem takeUpdate_some {cl : ClientRegions} {sendCursor : Bool} {update : Update}
    (h : (takeUpdate cl sendCursor).2 = some update) :
    (takeUpdate cl sendCursor).1.copyRegion = ∅ ∧ (takeUpdate cl sendCursor).1.copyDX = 0 ∧
      (takeUpdate cl sendCursor).1.copyDY = 0 ∧ update.dx = cl.copyDX ∧ update.dy = cl.copyDY ∧
      update.updateCopyRegion ⊆ cl.copyRegion \ cl.modifiedRegion ∧
      update.updateRegion ⊆ cl.copyRegion ∪ cl.modifiedRegion ∧
      ∀ p, p ∉ (takeUpdate cl sendCursor).1.modifiedRegion → p ∉ update.updateRegion →
        p ∉ update.updateCopyRegion → p ∉ cl.modifiedRegion ∧ p ∉ cl.copyRegion := by
  unfold takeUpdate at h ⊢
  extract_lets copyRegion updateRegion updateCopyRegion sent at h ⊢
  by_cases hcond : ¬ updateRegion.Nonempty ∧ sendCursor = false
  · rw [if_pos hcond] at h
    cases h
  · rw [if_neg hcond] at h ⊢
    cases h
    refine ⟨rfl, rfl, rfl, rfl, rfl, ?_, ?_, ?_⟩
    · exact Finset.inter_subset_left.trans Finset.inter_subset_left
    · refine Finset.sdiff_subset.trans (Finset.inter_subset_right.trans ?_)
      exact Finset.union_subset_union_left Finset.sdiff_subset
    · intro p hmod hup hcp
      have hmem : p ∉ cl.modifiedRegion ∪ copyRegion := fun hmem =>
        hmod (Finset.mem_sdiff.mpr ⟨Finset.mem_sdiff.mpr ⟨hmem, hup⟩, hcp⟩)
      have hmem' := Finset.notMem_union.mp hmem
      exact ⟨hmem'.1, fun hc => hmem'.2 (Finset.mem_sdiff.mpr ⟨hc, hmem'.1⟩)⟩

theorem sendUpdate_consistent (h : Known s) {cursor : CursorUpdate α} {boxes : List BoxRec}
    (hboxes : BoxesOf s.regions cursor.sends boxes) (hfits : cursor.sendShape = true → cursor.shapeFits = true)
    (hdelta : ZeroDelta s.regions ∨ ¬ Disjoint s.regions.requestedRegion s.regions.modifiedRegion)
    (hloses : ¬ LosesCopy s.regions cursor.sends) : Consistent (sendUpdate s cursor boxes) := by
  have hshape : ¬ (cursor.sendShape && !cursor.shapeFits) = true := by
    intro hboth
    rw [Bool.and_eq_true, Bool.not_eq_true'] at hboth
    rw [hfits hboth.1] at hboth
    exact absurd hboth.2 (by decide)
  unfold sendUpdate
  split
  · rename_i regions htake
    obtain ⟨hregions, hdisj, hnocursor⟩ := takeUpdate_none (congrArg Prod.snd htake)
    rw [htake] at hregions
    subst hregions
    apply Known.consistent
    · constructor
      · intro p hmod hcp
        apply h.outside p hmod
        exact fun hc => hcp (Finset.mem_sdiff.mpr ⟨hc, hmod⟩)
      · intro p hcp hmod
        exact h.copied p (Finset.mem_sdiff.mp hcp).1 hmod
    · intro hempty
      have hsub : s.regions.copyRegion ⊆ s.regions.modifiedRegion := Finset.sdiff_eq_empty_iff_subset.mp hempty
      have hzero := hdelta.resolve_right (not_not.mpr hdisj)
      by_cases hc : s.regions.copyRegion = ∅
      · exact hzero hc
      · by_contra hne
        apply hloses
        refine ⟨Finset.nonempty_iff_ne_empty.mpr hc, hsub, ?_, hdisj, hnocursor⟩
        by_contra hboth
        rw [not_or, not_not, not_not] at hboth
        exact hne hboth
  · rename_i regions update htake
    have hsome : (takeUpdate s.regions cursor.sends).2 = some update := congrArg Prod.snd htake
    obtain ⟨hcopy, hdx, hdy, hux, huy, hucopy, -, hrest⟩ := takeUpdate_some hsome
    obtain ⟨hband, hrects⟩ := hboxes update hsome
    rw [htake] at hcopy hdx hdy hrest
    rw [if_neg hshape]
    apply Known.consistent
    · constructor
      · intro p hmod _
        show applyUpdate s update boxes p = s.server p
        rw [applyUpdate_eq hband hrects]
        split_ifs with hup hcp
        · rfl
        · have hcp' := Finset.mem_sdiff.mp (hucopy hcp)
          rw [hux, huy, h.copied p hcp'.1 hcp'.2]
        · have hout := hrest p hmod hup hcp
          exact h.outside p hout.1 hout.2
      · intro p hcp
        exact absurd (hcopy ▸ hcp) (Finset.notMem_empty p)
    · exact fun _ => ⟨hdx, hdy⟩

theorem request_zeroDelta (h : ZeroDelta s.regions) (incremental : Bool) (region : RegionRec) :
    ZeroDelta (addRequest s.regions incremental region) ∨
      ¬ Disjoint (addRequest s.regions incremental region).requestedRegion
        (addRequest s.regions incremental region).modifiedRegion := by
  cases incremental with
  | true => exact .inl h
  | false =>
    rcases Finset.eq_empty_or_nonempty region with rfl | ⟨p, hp⟩
    · apply Or.inl
      intro hempty
      apply h
      simpa [addRequest] using hempty
    · apply Or.inr
      rw [Finset.not_disjoint_iff]
      exact ⟨p, Finset.mem_union_right _ hp, Finset.mem_union_right _ hp⟩

theorem Known.sendUpdate (h : Known s) {cursor : CursorUpdate α} {boxes : List BoxRec}
    (hpixels : ∀ p ∉ cursor.sprite, cursor.pixels p = s.server p)
    (hboxes : BoxesOf (Xvnc.draw s cursor.sprite cursor.pixels).regions cursor.sends boxes)
    (hfits : cursor.sendShape = true → cursor.shapeFits = true)
    (hdelta : ZeroDelta s.regions ∨ ¬ Disjoint s.regions.requestedRegion s.regions.modifiedRegion)
    (hloses : ¬ LosesCopy (Xvnc.draw s cursor.sprite cursor.pixels).regions cursor.sends) :
    Consistent (Xvnc.sendUpdate (Xvnc.draw s cursor.sprite cursor.pixels) cursor boxes) := by
  apply sendUpdate_consistent (h.draw hpixels) hboxes hfits _ hloses
  apply hdelta.imp_right
  intro hmeet hdisj
  exact hmeet (hdisj.mono_right Finset.subset_union_left)

theorem updatePending_false {cl : ClientRegions} {cursorPending : Bool}
    (h : ¬ updatePending cl cursorPending = true) : cl.copyRegion = ∅ ∧ cl.modifiedRegion = ∅ := by
  simp only [updatePending, Bool.or_eq_true, decide_eq_true_eq, not_or, Finset.not_nonempty_iff_eq_empty] at h
  exact ⟨h.1.2, h.2⟩

theorem run_consistent (h : Consistent s) {e : Event α} (hvalid : e.Valid s) (hkeeps : e.Keeps s) :
    Consistent (e.run s) := by
  cases e with
  | draw region pixels => exact (h.known.draw hvalid.2).consistent h.delta
  | copy src dst dx dy pixels => exact copy_consistent h hvalid.2.1 hvalid.2.2
  | request incremental region cursorPending cursor boxes =>
    have hknown := h.known.addRequest incremental region
    have hdelta := request_zeroDelta h.delta incremental region
    by_cases hpending : updatePending (addRequest s.regions incremental region) cursorPending = true
    · have hsend : Event.atSend s (.request incremental region cursorPending cursor boxes) =
          some (Xvnc.draw { s with regions := addRequest s.regions incremental region } cursor.sprite cursor.pixels,
            cursor, boxes) := if_pos hpending
      have hcursor := hvalid.1 _ _ _ hsend
      have hkeep := hkeeps _ _ _ hsend
      rw [Event.run, hsend]
      exact hknown.sendUpdate hcursor.1 hcursor.2 hkeep.2 hdelta hkeep.1
    · have hsend : Event.atSend s (.request incremental region cursorPending cursor boxes) = none := if_neg hpending
      have hempty := updatePending_false hpending
      rw [Event.run, hsend]
      apply hknown.consistent
      apply hdelta.resolve_right
      intro hmeet
      exact hmeet (by rw [hempty.2]; exact Finset.disjoint_empty_right _)
  | update cursor boxes =>
    have hcursor := hvalid.1 _ _ _ rfl
    have hkeep := hkeeps _ _ _ rfl
    exact h.known.sendUpdate hcursor.1 hcursor.2 hkeep.2 (.inl h.delta) hkeep.1

theorem NewClient.consistent (h : NewClient s) : Consistent s := by
  apply Known.consistent
  · constructor
    · exact fun p hp _ => h.screen p hp
    · intro p hp
      exact absurd (h.copyRegion ▸ hp) (Finset.notMem_empty p)
  · exact fun _ => ⟨h.copyDX, h.copyDY⟩

theorem view_consistent {s₀ : System α} (hnew : NewClient s₀)
    (h : Lib.Reachable (fun s e s' => Event.Valid s e ∧ s' = e.run s) (fun s e => Event.Keeps s e) s₀ s) :
    Consistent s := by
  apply h.invariant Consistent hnew.consistent
  rintro s e - hs hkeeps ⟨hvalid, rfl⟩
  exact run_consistent hs hvalid hkeeps

/-- An event that fills `region` with one value. -/
def fill (s : System α) (region : RegionRec) (a : α) : Event α :=
  .draw region fun p => if p ∈ region then a else s.server p

/-- A copy of all that comes from `src`, and nothing else. -/
def copyOf (s : System α) (src : RegionRec) (dx dy : Int) : Event α :=
  .copy src (translate src dx dy) dx dy fun p =>
    if p ∈ translate src dx dy then s.server (p.move (-dx) (-dy)) else s.server p

/-- A request of a client without a cursor. -/
def requestOf (s : System α) (incremental : Bool) (region : RegionRec) (boxes : List BoxRec) : Event α :=
  .request incremental region false
    { sprite := ∅, pixels := s.server, sendShape := false, shapeFits := true, sendPos := false } boxes

theorem fill_valid (s : System α) (region : RegionRec) (a : α) : (fill s region a).Valid s :=
  ⟨nofun, fun _ hp => if_neg hp⟩

theorem copyOf_valid (s : System α) (src : RegionRec) (dx dy : Int) : (copyOf s src dx dy).Valid s :=
  ⟨nofun, fun _ hp => if_neg hp, fun _ hp _ => if_pos hp⟩

/-- The state in which a request without a cursor is answered. -/
def answered (s : System α) (incremental : Bool) (region : RegionRec) : ClientRegions :=
  (draw { s with regions := addRequest s.regions incremental region } ∅ s.server).regions

theorem requestOf_atSend {incremental : Bool} {region : RegionRec} {boxes boxes' : List BoxRec} {s' : System α}
    {cursor : CursorUpdate α} (h : (requestOf s incremental region boxes).atSend s = some (s', cursor, boxes')) :
    s'.regions = answered s incremental region ∧ boxes' = boxes ∧
      cursor = { sprite := ∅, pixels := s.server, sendShape := false, shapeFits := true, sendPos := false } := by
  simp only [requestOf, Event.atSend] at h
  split at h
  · cases h
    exact ⟨rfl, rfl, rfl⟩
  · cases h

theorem requestOf_valid {incremental : Bool} {region : RegionRec} {boxes : List BoxRec} (copied : RegionRec)
    (htake : ∀ update ∈ (takeUpdate (answered s incremental region) false).2, update.updateCopyRegion = copied)
    (hband : Banded boxes) (hboxes : ∀ p, p ∈ copied ↔ ∃ box ∈ boxes, box.Has p) :
    (requestOf s incremental region boxes).Valid s := by
  refine ⟨?_, trivial⟩
  intro s' cursor boxes' hsend
  obtain ⟨hregions, rfl, rfl⟩ := requestOf_atSend hsend
  refine ⟨fun _ _ => rfl, ?_⟩
  intro update hupdate
  rw [hregions] at hupdate
  rw [htake update hupdate]
  exact ⟨hband, hboxes⟩

theorem requestOf_keeps {incremental : Bool} {region : RegionRec} {boxes : List BoxRec}
    (h : ¬ LosesCopy (answered s incremental region) false) : (requestOf s incremental region boxes).Keeps s := by
  intro s' cursor boxes' hsend
  obtain ⟨hregions, rfl, rfl⟩ := requestOf_atSend hsend
  rw [hregions]
  exact ⟨h, nofun⟩

instance (regions : ClientRegions) (sendCursor : Bool) : Decidable (LosesCopy regions sendCursor) := by
  unfold LosesCopy
  infer_instance

/-- Four pixels of different values, that are new to the client. -/
def fourPixels : System Int where
  server := Prod.fst
  client := fun p => if p ∈ ({(0, 0), (1, 0), (2, 0), (3, 0)} : RegionRec) then 9 else p.1
  regions :=
    { modifiedRegion := {(0, 0), (1, 0), (2, 0), (3, 0)}, copyRegion := ∅, copyDX := 0, copyDY := 0
      requestedRegion := ∅ }

def screen : RegionRec := fourPixels.regions.modifiedRegion

def firstUpdate : System Int := (requestOf fourPixels false screen []).run fourPixels

/-- The first pixel is copied over the second. -/
def copied : System Int := (copyOf firstUpdate {(0, 0)} 1 0).run firstUpdate

theorem fourPixels_new : NewClient fourPixels := by
  refine ⟨rfl, rfl, rfl, rfl, ?_⟩
  intro p hp
  exact if_neg hp

theorem firstUpdate_valid : (requestOf fourPixels false screen []).Valid fourPixels := by
  apply requestOf_valid ∅ (by decide) List.Pairwise.nil
  simp

theorem view_consistent_copied :
    Consistent ((requestOf copied true screen [⟨1, 0, 2, 1⟩]).run copied) := by
  apply view_consistent fourPixels_new
  refine (((Lib.Reachable.init.step ?_ ⟨firstUpdate_valid, rfl⟩).step ?_
    ⟨copyOf_valid firstUpdate {(0, 0)} 1 0, rfl⟩).step ?_ ⟨?_, rfl⟩)
  · exact requestOf_keeps (by decide)
  · nofun
  · exact requestOf_keeps (by decide)
  · apply requestOf_valid {(1, 0)} (by decide) (List.pairwise_singleton _ _)
    rintro ⟨x, y⟩
    simp only [Finset.mem_singleton, Prod.mk.injEq, List.mem_singleton, exists_eq_left, BoxRec.Has]
    omega

/-- The pixel that was copied is drawn over, and another part of the screen is asked for. -/
def drawnOver : System Int := (fill copied {(1, 0)} 5).run copied

def lost : System Int := (requestOf drawnOver true {(3, 0)} []).run drawnOver

def copiedAgain : System Int := (copyOf lost {(2, 0)} 1 0).run lost

def shown : System Int := (requestOf copiedAgain true screen [⟨3, 0, 4, 1⟩]).run copiedAgain

theorem view_inconsistent :
    ¬ ∀ s₀ s : System Int, NewClient s₀ →
      Lib.Reachable (fun s e s' => Event.Valid s e ∧ s' = e.run s) (fun _ _ => True) s₀ s → Consistent s := by
  intro h
  have hshown : Consistent shown := by
    apply h fourPixels shown fourPixels_new
    refine ((((((Lib.Reachable.init.step trivial ⟨firstUpdate_valid, rfl⟩).step trivial
      ⟨copyOf_valid firstUpdate {(0, 0)} 1 0, rfl⟩).step trivial ⟨fill_valid copied {(1, 0)} 5, rfl⟩).step trivial
      ⟨?_, rfl⟩).step trivial ⟨copyOf_valid lost {(2, 0)} 1 0, rfl⟩).step trivial ⟨?_, rfl⟩)
    · apply requestOf_valid {(3, 0)} (by decide) (List.pairwise_singleton _ _)
      rintro ⟨x, y⟩
      simp only [Finset.mem_singleton, Prod.mk.injEq, List.mem_singleton, exists_eq_left, BoxRec.Has]
      omega
    · apply requestOf_valid ∅ (by decide) List.Pairwise.nil
      simp
  have hsame : shown.client (3, 0) = shown.server (3, 0) := by
    rw [hshown.same (by decide) (by decide)]
  exact absurd hsame (by with_unfolding_all decide)

end Colama.Xvnc

import Mathlib.Data.Finset.Card
import Mathlib.Data.Finset.SDiff
import Mathlib.Data.Finset.Image

namespace Colama.Lib.PackedFlags

variable {ι κ : Type*} [DecidableEq ι] [DecidableEq κ] (cell : ι → κ) (dev : Finset ι)

/-- No other member of the device is kept in the cell of `c`. -/
def Alone (c : ι) : Prop := ∀ c' ∈ dev, cell c' = cell c → c' = c

/-- The cells that are set tell the marked members from the rest, and are as many. -/
def Tells (set : Finset κ) (marked : Finset ι) : Prop :=
  (∀ c ∈ dev, cell c ∈ set ↔ c ∈ marked) ∧ set.card = marked.card

variable {cell dev} {set : Finset κ} {marked touched covered : Finset ι}

theorem Tells.empty : Tells cell dev ∅ ∅ := ⟨fun _ _ => by simp, rfl⟩

theorem Tells.eq_image (h : Tells cell dev set marked) (hset : set ⊆ dev.image cell)
    (hm : marked ⊆ dev) : set = marked.image cell := by
  ext k
  rw [Finset.mem_image]
  constructor
  · intro hk
    obtain ⟨c, hc, rfl⟩ := Finset.mem_image.mp (hset hk)
    exact ⟨c, (h.1 c hc).mp hk, rfl⟩
  · rintro ⟨c, hc, rfl⟩
    exact (h.1 c (hm hc)).mpr hc

theorem Tells.alone (h : Tells cell dev set marked) (hset : set ⊆ dev.image cell)
    (hm : marked ⊆ dev) : ∀ c ∈ marked, Alone cell dev c := by
  have himage := h.eq_image hset hm
  have hinj : Set.InjOn cell (marked : Set ι) := by
    apply Finset.card_image_iff.mp
    rw [← himage, h.2]
  intro c hc c' hc' heq
  have hset' : cell c' ∈ set := heq ▸ (h.1 c (hm hc)).mpr hc
  exact hinj ((h.1 c' hc').mp hset') hc heq

theorem tells_image (hm : marked ⊆ dev) (h : ∀ c ∈ marked, Alone cell dev c) :
    Tells cell dev (marked.image cell) marked := by
  constructor
  · intro c hc
    rw [Finset.mem_image]
    constructor
    · rintro ⟨c', hc', heq⟩
      rwa [h c' hc' c hc heq.symm]
    · exact fun h => ⟨c, h, rfl⟩
  · apply Finset.card_image_of_injOn
    intro c hc c' hc' heq
    exact h c' hc' c (hm hc) heq

/-- Setting the cells of `touched` keeps the account exactly when nothing else shares them and
each was to be marked. -/
theorem Tells.union_iff (h : Tells cell dev set marked) (hset : set ⊆ dev.image cell)
    (hm : marked ⊆ dev) (ht : touched ⊆ dev) (hc : covered ⊆ touched) :
    Tells cell dev (set ∪ touched.image cell) (marked ∪ covered) ↔
      ∀ c ∈ touched, (c ∈ covered ∨ c ∈ marked) ∧ Alone cell dev c := by
  have hm' : marked ∪ covered ⊆ dev := Finset.union_subset hm (hc.trans ht)
  have hset' : set ∪ touched.image cell ⊆ dev.image cell :=
    Finset.union_subset hset (Finset.image_subset_image ht)
  constructor
  · intro h' c hct
    have hmem : c ∈ marked ∪ covered :=
      (h'.1 c (ht hct)).mp (Finset.mem_union_right _ (Finset.mem_image_of_mem _ hct))
    refine ⟨?_, h'.alone hset' hm' c hmem⟩
    rw [Finset.mem_union] at hmem
    exact hmem.symm
  · intro h'
    have himage : set ∪ touched.image cell = (marked ∪ covered).image cell := by
      rw [h.eq_image hset hm, ← Finset.image_union]
      apply congrArg (Finset.image cell)
      apply Finset.Subset.antisymm
      · apply Finset.union_subset Finset.subset_union_left
        intro c hct
        rw [Finset.mem_union]
        exact (h' c hct).1.symm
      · exact Finset.union_subset_union_right hc
    rw [himage]
    apply tells_image hm'
    intro c hc'
    rcases Finset.mem_union.mp hc' with hmem | hmem
    · exact h.alone hset hm c hmem
    · exact (h' c (hc hmem)).2

/-- Clearing the cells of `touched` keeps the account exactly when no mark is lost that was to stay. -/
theorem Tells.sdiff_iff (h : Tells cell dev set marked) (hset : set ⊆ dev.image cell)
    (hm : marked ⊆ dev) (ht : touched ⊆ dev) (hc : covered ⊆ touched) :
    Tells cell dev (set \ touched.image cell) (marked \ covered) ↔
      ∀ c ∈ touched, c ∈ marked → c ∈ covered := by
  constructor
  · intro h' c hct hcm
    by_contra hcov
    have hmem := (h'.1 c (ht hct)).mpr (Finset.mem_sdiff.mpr ⟨hcm, hcov⟩)
    exact (Finset.mem_sdiff.mp hmem).2 (Finset.mem_image_of_mem _ hct)
  · intro h'
    have hal := h.alone hset hm
    have himage : set \ touched.image cell = (marked \ covered).image cell := by
      rw [h.eq_image hset hm]
      ext k
      simp only [Finset.mem_sdiff, Finset.mem_image]
      constructor
      · rintro ⟨⟨c, hcm, rfl⟩, hk⟩
        exact ⟨c, ⟨hcm, fun hcov => hk ⟨c, hc hcov, rfl⟩⟩, rfl⟩
      · rintro ⟨c, ⟨hcm, hcov⟩, rfl⟩
        refine ⟨⟨c, hcm, rfl⟩, ?_⟩
        rintro ⟨t, htt, heq⟩
        apply hcov
        have hct := hal c hcm t (ht htt) heq
        subst hct
        exact h' t htt hcm
    rw [himage]
    apply tells_image (Finset.sdiff_subset.trans hm)
    intro c hcm
    exact hal c (Finset.mem_sdiff.mp hcm).1

end Colama.Lib.PackedFlags

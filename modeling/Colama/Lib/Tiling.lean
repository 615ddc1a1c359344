import Mathlib

namespace Colama.Lib

variable {ι κ P Q : Type*} {area : ι → Set P} {l l' : List ι} {S T : Set P}

/-- The areas of the members of a list are disjoint, and make up a set. -/
structure Tiles (area : ι → Set P) (l : List ι) (S : Set P) : Prop where
  disjoint : l.Pairwise fun i j => Disjoint (area i) (area j)
  mem_iff : ∀ p, p ∈ S ↔ ∃ i ∈ l, p ∈ area i

theorem Tiles.nil : Tiles area [] ∅ := ⟨List.Pairwise.nil, by simp⟩

theorem Tiles.singleton (i : ι) : Tiles area [i] (area i) := ⟨List.pairwise_singleton _ _, by simp⟩

theorem Tiles.subset (h : Tiles area l S) {i : ι} (hi : i ∈ l) : area i ⊆ S :=
  fun p hp => (h.mem_iff p).mpr ⟨i, hi, hp⟩

theorem Tiles.append (h : Tiles area l S) (h' : Tiles area l' T) (hdisj : Disjoint S T) :
    Tiles area (l ++ l') (S ∪ T) := by
  constructor
  · rw [List.pairwise_append]
    refine ⟨h.disjoint, h'.disjoint, ?_⟩
    intro i hi j hj
    exact hdisj.mono (h.subset hi) (h'.subset hj)
  · intro p
    rw [Set.mem_union, h.mem_iff, h'.mem_iff]
    simp only [List.mem_append, or_and_right, exists_or]

/-- Each member of a tiling is itself tiled. -/
theorem Tiles.flatMap {big : κ → Set P} {f : κ → List ι} {ks : List κ} (h : Tiles big ks S)
    (hf : ∀ k ∈ ks, Tiles area (f k) (big k)) : Tiles area (ks.flatMap f) S := by
  constructor
  · rw [List.pairwise_flatMap]
    refine ⟨fun k hk => (hf k hk).disjoint, ?_⟩
    apply h.disjoint.imp_of_mem
    intro k k' hk hk' hdisj i hi j hj
    exact hdisj.mono ((hf k hk).subset hi) ((hf k' hk').subset hj)
  · intro p
    rw [h.mem_iff]
    constructor
    · rintro ⟨k, hk, hp⟩
      obtain ⟨i, hi, hp⟩ := ((hf k hk).mem_iff p).mp hp
      exact ⟨i, List.mem_flatMap.mpr ⟨k, hk, hi⟩, hp⟩
    · rintro ⟨i, hi, hp⟩
      obtain ⟨k, hk, hi⟩ := List.mem_flatMap.mp hi
      exact ⟨k, hk, (hf k hk).subset hi hp⟩

theorem Tiles.preimage (h : Tiles area l S) (f : Q → P) :
    Tiles (fun i => Set.preimage f (area i)) l (Set.preimage f S) where
  disjoint := h.disjoint.imp fun hdisj => hdisj.preimage f
  mem_iff p := h.mem_iff (f p)

theorem Tiles.inter (h : Tiles area l S) (T : Set P) : Tiles (fun i => area i ∩ T) l (S ∩ T) where
  disjoint := h.disjoint.imp fun hdisj => hdisj.mono Set.inter_subset_left Set.inter_subset_left
  mem_iff p := by
    rw [Set.mem_inter_iff, h.mem_iff]
    constructor
    · rintro ⟨⟨i, hi, hp⟩, hT⟩
      exact ⟨i, hi, hp, hT⟩
    · rintro ⟨i, hi, hp, hT⟩
      exact ⟨⟨i, hi, hp⟩, hT⟩

theorem Tiles.congr {area' : ι → Set P} (h : Tiles area l S) (harea : ∀ i ∈ l, area' i = area i) (hS : T = S) :
    Tiles area' l T := by
  subst hS
  constructor
  · apply h.disjoint.imp_of_mem
    intro i j hi hj hdisj
    rwa [harea i hi, harea j hj]
  · intro p
    rw [h.mem_iff]
    exact exists_congr fun i => and_congr_right fun hi => by rw [harea i hi]

theorem Tiles.map {g : κ → ι} {ks : List κ} : Tiles area (ks.map g) S ↔ Tiles (fun k => area (g k)) ks S := by
  constructor
  · rintro ⟨hdisj, hmem⟩
    rw [List.pairwise_map] at hdisj
    exact ⟨hdisj, fun p => (hmem p).trans (by simp)⟩
  · rintro ⟨hdisj, hmem⟩
    refine ⟨?_, fun p => (hmem p).trans (by simp)⟩
    rw [List.pairwise_map]
    exact hdisj

end Colama.Lib

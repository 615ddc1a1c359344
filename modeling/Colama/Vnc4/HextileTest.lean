import Colama.Vnc4.Hextile
import Colama.Xvnc.HextileSpec
import Mathlib.Data.Finset.Card

namespace Colama.Vnc4.Hextile

open Xvnc (Bpp Card TileData tileList)

variable {bpp : Bpp}

/-- The two candidates are never the same pixel, so that the second one is not counted: the loop ends at the first
pixel that is not like the first. -/
theorem testTileTypeLoop_eq (pix1 : Card bpp) (rest : List (Card bpp)) (count1 : Nat) :
    (testTileTypeLoop pix1 pix1 rest 0 0 count1 0).bg = pix1 ∧
      (testTileTypeLoop pix1 pix1 rest 0 0 count1 0).tileType =
        if ∀ p ∈ rest, p = pix1 then 0 else hextileAnySubrects ||| hextileSubrectsColoured := by
  induction rest generalizing count1 with
  | nil =>
    rw [if_pos (by simp)]
    exact ⟨rfl, rfl⟩
  | cons p rest ih =>
    rw [testTileTypeLoop]
    by_cases hp : p = pix1
    · rw [if_pos hp]
      obtain ⟨hbg, htype⟩ := ih (count1 + 1)
      refine ⟨hbg, htype.trans ?_⟩
      simp only [List.forall_mem_cons, hp, true_and]
    · have hne : ¬pix1 = p := fun h => hp h.symm
      rw [if_neg hp]
      simp only [if_true, if_neg hne]
      refine ⟨rfl, ?_⟩
      rw [if_neg fun hall => hp (hall p List.mem_cons_self)]
      rfl

theorem testTileType_bg (data : List (Card bpp)) : (testTileType data).bg = data.headD 0 :=
  (testTileTypeLoop_eq _ _ _).1

theorem testTileType_tileType (data : List (Card bpp)) : (testTileType data).tileType =
    if ∀ p ∈ data, p = data.headD 0 then 0 else hextileAnySubrects ||| hextileSubrectsColoured :=
  (testTileTypeLoop_eq _ _ _).2

/-- What the type of a tile is to say of its pixels. -/
structure Classified (data : List (Card bpp)) (t : TileTest bpp) : Prop where
  solid : t.tileType = 0 ↔ ∀ p ∈ data, ∀ q ∈ data, p = q
  two : t.tileType = hextileAnySubrects ↔ data.toFinset.card = 2
  colours : data.toFinset.card = 2 → data.toFinset = {t.bg, t.fg} ∧ data.count t.fg ≤ data.count t.bg
  more : t.tileType = hextileAnySubrects ||| hextileSubrectsColoured ↔ 3 ≤ data.toFinset.card

theorem all_eq_iff_card {α : Type*} [DecidableEq α] {data : List α} (h : data ≠ []) :
    (∀ p ∈ data, ∀ q ∈ data, p = q) ↔ data.toFinset.card = 1 := by
  have hpos : 0 < data.toFinset.card := by
    rw [Finset.card_pos, List.toFinset_nonempty_iff]
    exact h
  have hle : data.toFinset.card ≤ 1 ↔ ∀ p ∈ data, ∀ q ∈ data, p = q := by
    rw [Finset.card_le_one]
    simp only [List.mem_toFinset]
  rw [← hle]
  omega

theorem headD_mem {α : Type*} {data : List α} (h : data ≠ []) (d : α) : data.headD d ∈ data := by
  cases data with
  | nil => exact absurd rfl h
  | cons p data => exact List.mem_cons_self

theorem classified_iff {data : List (Card bpp)} (h : data ≠ []) :
    Classified data (testTileType data) ↔ data.toFinset.card ≠ 2 := by
  have hall : (∀ p ∈ data, p = data.headD 0) ↔ data.toFinset.card = 1 := by
    rw [← all_eq_iff_card h]
    refine ⟨fun heq p hp q hq => (heq p hp).trans (heq q hq).symm, fun heq p hp => heq p hp _ (headD_mem h 0)⟩
  have htype := testTileType_tileType data
  simp only [hall] at htype
  have hpos : 0 < data.toFinset.card := by
    rw [Finset.card_pos, List.toFinset_nonempty_iff]
    exact h
  constructor
  · intro hclass hcard
    have htwo := hclass.two.mpr hcard
    rw [htype, if_neg (by omega)] at htwo
    exact absurd htwo (by decide)
  · intro hcard
    refine ⟨?_, ?_, fun h => absurd h hcard, ?_⟩
    · rw [all_eq_iff_card h, htype]
      by_cases hone : data.toFinset.card = 1
      · rw [if_pos hone]
        exact iff_of_true rfl hone
      · rw [if_neg hone]
        exact iff_of_false (by decide) hone
    · refine iff_of_false ?_ hcard
      rw [htype]
      split <;> decide
    · rw [htype]
      by_cases hone : data.toFinset.card = 1
      · rw [if_pos hone]
        exact iff_of_false (by decide) (by omega)
      · rw [if_neg hone]
        exact iff_of_true rfl (by omega)

/-- The test of a tile says what its pixels are unless there are just two of them. -/
theorem testTileType_classified_iff (data : TileData bpp) (w h : Nat) (hw : 0 < w) (hh : 0 < h) :
    Classified (tileList data w h) (testTileType (tileList data w h)) ↔ (tileList data w h).toFinset.card ≠ 2 := by
  apply classified_iff
  apply List.ne_nil_of_length_pos
  rw [tileList, List.length_map, Xvnc.length_tileCells]
  exact Nat.mul_pos hw hh

/-- Columns of two colours. -/
def stripes : TileData .bpp8 := fun x _ => BitVec.ofNat 8 (x % 2)

theorem testTileType_classified_iff_stripes :
    Classified (tileList stripes 3 2) (testTileType (tileList stripes 3 2)) ↔ (tileList stripes 3 2).toFinset.card ≠ 2 :=
  testTileType_classified_iff stripes 3 2 (by decide) (by decide)

theorem not_classified_stripes : ¬Classified (tileList stripes 2 1) (testTileType (tileList stripes 2 1)) := by
  intro h
  have htype : (testTileType (tileList stripes 2 1)).tileType = hextileAnySubrects := h.two.mpr (by decide)
  exact absurd htype (by decide)

end Colama.Vnc4.Hextile

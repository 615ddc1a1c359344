import Colama.Xvnc.TightSpec
import Colama.Lib.Tiling

namespace Colama.Xvnc

open Lib

/-- The pixels of a rectangle. -/
def box (x y w h : Nat) : Set (Nat × Nat) := {p | x ≤ p.1 ∧ p.1 < x + w ∧ y ≤ p.2 ∧ p.2 < y + h}

def RectHeader.area (hdr : RectHeader) : Set (Nat × Nat) := box hdr.x hdr.y hdr.w hdr.h

theorem mem_box {x y w h : Nat} {p : Nat × Nat} :
    p ∈ box x y w h ↔ x ≤ p.1 ∧ p.1 < x + w ∧ y ≤ p.2 ∧ p.2 < y + h := Iff.rfl

theorem box_empty {x y w h : Nat} (hempty : w = 0 ∨ h = 0) : box x y w h = ∅ := by
  apply Set.eq_empty_of_forall_notMem
  intro p hp
  rw [mem_box] at hp
  omega

/-- What is sent for the parts of a rectangle above and below a line. -/
theorem Tiles.below {l l' : List RectHeader} {x y w h y' h₁ h₂ : Nat} (hl : Tiles RectHeader.area l (box x y w h₁))
    (hl' : Tiles RectHeader.area l' (box x y' w h₂)) (hy : y' = y + h₁) (hh : h = h₁ + h₂) :
    Tiles RectHeader.area (l ++ l') (box x y w h) := by
  subst hy hh
  apply (hl.append hl' _).congr (fun _ _ => rfl)
  · ext p
    simp only [mem_box, Set.mem_union]
    omega
  · rw [Set.disjoint_left]
    intro p hp hp'
    rw [mem_box] at hp hp'
    omega

/-- What is sent for the parts of a rectangle on the two sides of a line. -/
theorem Tiles.beside {l l' : List RectHeader} {x y w h x' w₁ w₂ : Nat} (hl : Tiles RectHeader.area l (box x y w₁ h))
    (hl' : Tiles RectHeader.area l' (box x' y w₂ h)) (hx : x' = x + w₁) (hw : w = w₁ + w₂) :
    Tiles RectHeader.area (l ++ l') (box x y w h) := by
  subst hx hw
  apply (hl.append hl' _).congr (fun _ _ => rfl)
  · ext p
    simp only [mem_box, Set.mem_union]
    omega
  · rw [Set.disjoint_left]
    intro p hp hp'
    rw [mem_box] at hp hp'
    omega

/-- The pieces of a length that is gone through in steps. -/
theorem steps_tiles {n step : Nat} (hstep : 0 < step) :
    Tiles (fun d => Set.Ico d (d + if d + step < n then step else n - d)) (steps n step) (Set.Ico 0 n) := by
  rw [steps, Tiles.map]
  constructor
  · apply List.pairwise_lt_range.imp
    intro i j hij
    rw [Set.disjoint_left]
    intro p hp hp'
    have hmul : step * i + step ≤ step * j := by
      rw [← Nat.mul_succ]
      exact Nat.mul_le_mul_left step hij
    simp only [Set.mem_Ico] at hp hp'
    split at hp <;> omega
  · intro p
    simp only [List.mem_range, Set.mem_Ico, Nat.zero_le, true_and]
    constructor
    · intro hp
      have hdiv := Nat.div_add_mod p step
      have hmod := Nat.mod_lt p hstep
      refine ⟨p / step, ?_, ?_, ?_⟩
      · rw [Nat.div_lt_iff_lt_mul hstep]
        have hceil := Nat.div_add_mod (n + step - 1) step
        have hceil' := Nat.mod_lt (n + step - 1) hstep
        rw [Nat.mul_comm]
        omega
      · omega
      · split <;> omega
    · rintro ⟨i, hi, hle, hlt⟩
      split at hlt
      · omega
      · omega

theorem rows_tile (x y w : Nat) {h step : Nat} (hstep : 0 < step) :
    Tiles (fun dy => box x (y + dy) w (if dy + step < h then step else h - dy)) (steps h step) (box x y w h) := by
  apply (((steps_tiles hstep).preimage fun p : Nat × Nat => p.2 - y).inter
    {p | x ≤ p.1 ∧ p.1 < x + w ∧ y ≤ p.2}).congr
  · intro dy hdy
    have hlt := mem_steps hstep hdy
    ext p
    simp only [mem_box, Set.mem_inter_iff, Set.mem_preimage, Set.mem_Ico, Set.mem_ofPred_eq]
    generalize (if dy + step < h then step else h - dy) = rh
    omega
  · ext p
    simp only [mem_box, Set.mem_inter_iff, Set.mem_preimage, Set.mem_Ico, Set.mem_ofPred_eq]
    omega

theorem columns_tile (x y h : Nat) {w step : Nat} (hstep : 0 < step) :
    Tiles (fun dx => box (x + dx) y (if dx + step < w then step else w - dx) h) (steps w step) (box x y w h) := by
  apply (((steps_tiles hstep).preimage fun p : Nat × Nat => p.1 - x).inter
    {p | y ≤ p.2 ∧ p.2 < y + h ∧ x ≤ p.1}).congr
  · intro dx hdx
    have hlt := mem_steps hstep hdx
    ext p
    simp only [mem_box, Set.mem_inter_iff, Set.mem_preimage, Set.mem_Ico, Set.mem_ofPred_eq]
    generalize (if dx + step < w then step else w - dx) = rw
    omega
  · ext p
    simp only [mem_box, Set.mem_inter_iff, Set.mem_preimage, Set.mem_Ico, Set.mem_ofPred_eq]
    omega

theorem singleton_tiles (hdr : RectHeader) : Tiles RectHeader.area [hdr] (box hdr.x hdr.y hdr.w hdr.h) :=
  Tiles.singleton hdr

theorem sendRectSimple_tiles (level : Fin 10) (x y w h : Nat) :
    Tiles RectHeader.area (sendRectSimple level x y w h) (box x y w h) := by
  rw [sendRectSimple]
  split
  · rcases Nat.eq_zero_or_pos w with rfl | hw
    · have hnone : steps h (subrectMaxHeight level 0) = [] := by
        simp [steps, subrectMaxHeight, subrectMaxWidth]
      rw [hnone, box_empty (.inl rfl)]
      exact Tiles.nil
    · apply (rows_tile x y w (subrectMaxHeight_pos level hw)).flatMap
      intro dy _
      apply (columns_tile x (y + dy) _ (maxRectWidth_pos level)).flatMap
      intro dx _
      exact singleton_tiles _
  · exact singleton_tiles ⟨x, y, w, h, .tight⟩

section Solid

variable {α : Type*} [DecidableEq α] {fb : Nat → Nat → α}

/-- What has been sent before the rest of a rectangle covers the rows above it. -/
def Above (x y w : Nat) (r : List RectHeader × Nat × Nat × Option Area) : Prop :=
  Tiles RectHeader.area r.1 (box x y w (r.2.1 - y))

theorem above_row {level : Fin 10} {x y w y' h' nMaxRows dy : Nat} {sent : List RectHeader} {dys : List Nat}
    (hsent : Tiles RectHeader.area sent (box x y w (y' - y))) (hy : y ≤ y')
    (hrest : Above x y' w (findSolid fb level x w nMaxRows dys y' h'))
    (hleft : Left x y' w h' (findSolid fb level x w nMaxRows dys y' h')) :
    Above x y w (match findSolidInRow fb x y' w h' dy ((steps w MAX_SPLIT_TILE_SIZE).map (x + ·)) with
      | some area => (sent, y', h', some area)
      | none =>
        let rest := findSolid fb level x w nMaxRows dys y' h'
        (sent ++ rest.1, rest.2)) := by
  split
  · exact hsent
  · have htop := hleft.top
    apply Tiles.below hsent hrest
    · omega
    · dsimp only
      omega

theorem findSolid_above (fb : Nat → Nat → α) (level : Fin 10) (x w nMaxRows : Nat) (dys : List Nat) (y h : Nat)
    (hdys : ∀ dy ∈ dys, y ≤ dy ∧ dy < y + h) (hsort : dys.Pairwise (· ≤ ·)) :
    Above x y w (findSolid fb level x w nMaxRows dys y h) := by
  induction dys generalizing y h with
  | nil =>
    rw [findSolid, Above, Nat.sub_self, box_empty (.inr rfl)]
    exact Tiles.nil
  | cons dy dys ih =>
    have hdy := hdys dy List.mem_cons_self
    have hsort' := List.pairwise_cons.mp hsort
    have hrows : ∀ y' h', y' ≤ dy → y' + h' = y + h → ∀ d ∈ dys, y' ≤ d ∧ d < y' + h' := by
      intro y' h' hy' hsum d hd
      have hle := hsort'.1 d hd
      have hlt := (hdys d (List.mem_cons_of_mem dy hd)).2
      omega
    rw [findSolid]
    by_cases hu : dy - y ≥ nMaxRows
    · have hrow := hrows (y + nMaxRows) (h - nMaxRows) (by omega) (by omega)
      simp only [hu, decide_true, if_true]
      apply above_row
      · rw [Nat.add_sub_cancel_left]
        exact sendRectSimple_tiles level x y w nMaxRows
      · exact Nat.le_add_right y nMaxRows
      · exact ih _ _ hrow hsort'.2
      · exact findSolid_left fb level x w nMaxRows dys _ _ hrow hsort'.2
    · have hrow := hrows y h hdy.1 rfl
      simp only [hu, decide_false, Bool.false_eq_true, if_false]
      apply above_row
      · rw [Nat.sub_self, box_empty (.inr rfl)]
        exact Tiles.nil
      · exact le_refl y
      · exact ih _ _ hrow hsort'.2
      · exact findSolid_left fb level x w nMaxRows dys _ _ hrow hsort'.2

theorem sendIf_tiles {left : Prop} [Decidable left] {send : Option (List RectHeader)} {x y w h : Nat}
    {headers : List RectHeader} (hsend : ∀ headers, send = some headers → Tiles RectHeader.area headers (box x y w h))
    (hnone : ¬left → w = 0 ∨ h = 0) (hs : sendIf left send = some headers) :
    Tiles RectHeader.area headers (box x y w h) := by
  unfold sendIf at hs
  split at hs
  · exact hsend headers hs
  · rename_i hleft
    cases hs
    rw [box_empty (hnone hleft)]
    exact Tiles.nil

/-- What is sent around a solid area, and the area itself. -/
theorem around_tiles {x y w h : Nat} {best : Area} (hbest : best.Inside x y w h) {top left right bottom : List RectHeader}
    (htop : Tiles RectHeader.area top (box x y w (best.y - y)))
    (hleft : Tiles RectHeader.area left (box x best.y (best.x - x) best.h))
    (hright : Tiles RectHeader.area right (box (best.x + best.w) best.y (w - (best.x - x) - best.w) best.h))
    (hbottom : Tiles RectHeader.area bottom (box x (best.y + best.h) w (h - (best.y - y) - best.h))) :
    Tiles RectHeader.area (top ++ left ++ [⟨best.x, best.y, best.w, best.h, .tight⟩] ++ right ++ bottom)
      (box x y w h) := by
  obtain ⟨hl, ht, hw, hh, hr, hb⟩ := hbest
  have hright' : Tiles RectHeader.area ([⟨best.x, best.y, best.w, best.h, .tight⟩] ++ right)
      (box best.x best.y (x + w - best.x) best.h) := by
    apply Tiles.beside (singleton_tiles _) hright rfl
    dsimp only
    omega
  have hmiddle : Tiles RectHeader.area (left ++ ([⟨best.x, best.y, best.w, best.h, .tight⟩] ++ right))
      (box x best.y w best.h) := by
    apply Tiles.beside hleft hright'
    · omega
    · omega
  have hlower : Tiles RectHeader.area (left ++ ([⟨best.x, best.y, best.w, best.h, .tight⟩] ++ right) ++ bottom)
      (box x best.y w (y + h - best.y)) := by
    apply Tiles.below hmiddle hbottom rfl
    omega
  simp only [List.append_assoc] at hlower ⊢
  apply Tiles.below htop hlower
  · omega
  · omega

theorem topRows_tiles {x y y' : Nat} (level : Fin 10) (w : Nat) (hy : y ≤ y') :
    Tiles RectHeader.area (if y' ≠ y then sendRectSimple level x y w (y' - y) else []) (box x y w (y' - y)) := by
  split
  · exact sendRectSimple_tiles level x y w (y' - y)
  · rw [box_empty (.inr (by omega))]
    exact Tiles.nil

theorem rfbSendRectEncodingTight_tiles (cl : TightClient) {fuel x y w h : Nat} {headers : List RectHeader}
    (hsend : rfbSendRectEncodingTight fb cl fuel x y w h = some headers) :
    Tiles RectHeader.area headers (box x y w h) := by
  induction fuel generalizing x y w h headers with
  | zero => cases hsend
  | succ fuel ih =>
    have hdys : ∀ dy ∈ (steps h MAX_SPLIT_TILE_SIZE).map (y + ·), y ≤ dy ∧ dy < y + h :=
      fun dy hdy => mem_steps_map hdy
    have hsort : ((steps h MAX_SPLIT_TILE_SIZE).map (y + ·)).Pairwise (· ≤ ·) :=
      (steps_sorted _ _).map _ fun a b hab => Nat.add_le_add_left hab y
    have hleft := findSolid_left fb cl.tightCompressLevel x w
      (subrectMaxHeight cl.tightCompressLevel w) _ y h hdys hsort
    have habove := findSolid_above fb cl.tightCompressLevel x w
      (subrectMaxHeight cl.tightCompressLevel w) _ y h hdys hsort
    rw [rfbSendRectEncodingTight] at hsend
    split at hsend
    · cases hsend
      exact sendRectSimple_tiles _ x y w h
    · dsimp only at hsend
      split at hsend
      · rename_i sent y' h' hfind
        rw [hfind] at hleft habove
        have htop : y ≤ y' := hleft.top
        have hbottom : y' + h' = y + h := hleft.bottom
        cases hsend
        apply Tiles.below habove (sendRectSimple_tiles _ x y' w h')
        · dsimp only
          omega
        · dsimp only
          omega
      · rename_i sent y' h' best hfind
        rw [hfind] at hleft habove
        have hbest : best.Inside x y' w h' := hleft.inside best rfl
        have htop : y ≤ y' := hleft.top
        have hbottom : y' + h' = y + h := hleft.bottom
        obtain ⟨left, hl, hsend⟩ := Option.bind_eq_some_iff.mp hsend
        obtain ⟨right, hr, hsend⟩ := Option.bind_eq_some_iff.mp hsend
        obtain ⟨bottom, hb, hsend⟩ := Option.bind_eq_some_iff.mp hsend
        cases hsend
        have haround := around_tiles hbest (topRows_tiles cl.tightCompressLevel w hbest.top)
          (sendIf_tiles (fun headers hs => ih hs) (fun hx => .inl (by omega)) hl)
          (sendIf_tiles (fun headers hs => ih hs) (fun hx => .inl (by omega)) hr)
          (sendIf_tiles (fun headers hs => ih hs) (fun _ => .inr (by omega)) hb)
        simp only [List.append_assoc] at haround ⊢
        apply Tiles.below habove haround
        · dsimp only
          omega
        · dsimp only
          omega

end Solid

end Colama.Xvnc

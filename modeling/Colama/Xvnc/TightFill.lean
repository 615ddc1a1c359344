import Colama.Xvnc.TightTiles

namespace Colama.Xvnc

open Lib

/-- A rectangle that has been sent, with the colour it is filled with if it is sent as solid. -/
structure TightRect (β : Type*) extends RectHeader where
  fill : Option β

section Fill

variable {α β : Type*} [DecidableEq α] [DecidableEq β] (fb : Nat → Nat → α) (translateFn : α → β)

/-- The pixels of a rectangle in the format of the client. -/
def tightBeforeBuf (x y w h : Nat) : List β :=
  (List.range h).flatMap fun dy => (List.range w).map fun dx => translateFn (fb (x + dx) (y + dy))

/-- The colour of a palette of one colour: the first loop of `FillPalette`. -/
def solidColor : List β → Option β
  | [] => none
  | c0 :: data => if data.all fun c => c = c0 then some c0 else none

def subrect (hdr : RectHeader) : TightRect β :=
  ⟨hdr, solidColor (tightBeforeBuf fb translateFn hdr.x hdr.y hdr.w hdr.h)⟩

/-- The area that was found to be solid is filled with the colour of its first pixel. -/
def solidRect (best : Area) : TightRect β :=
  ⟨⟨best.x, best.y, best.w, best.h, .tight⟩, some (translateFn (fb best.x best.y))⟩

def sendRectsIf (left : Prop) [Decidable left] (send : Option (List (TightRect β))) : Option (List (TightRect β)) :=
  if left then send else some []

/-- The rectangles sent for a rectangle: the headers of `rfbSendRectEncodingTight` with their fills. -/
@[grind] def tightRects (cl : TightClient) : Nat → Nat → Nat → Nat → Nat → Option (List (TightRect β))
  | 0, _, _, _, _ => none
  | fuel + 1, x, y, w, h =>
    let simple x y w h := (sendRectSimple cl.tightCompressLevel x y w h).map (subrect fb translateFn)
    if !cl.enableLastRectEncoding || decide (intMul w h < MIN_SPLIT_RECT_SIZE) then some (simple x y w h)
    else
      let nMaxRows := subrectMaxHeight cl.tightCompressLevel w
      match findSolid fb cl.tightCompressLevel x w nMaxRows
          ((steps h MAX_SPLIT_TILE_SIZE).map (y + ·)) y h with
      | (sent, y, h, none) => some (sent.map (subrect fb translateFn) ++ simple x y w h)
      | (sent, y, h, some best) => do
        let top := if best.y ≠ y then simple x y w (best.y - y) else []
        let left ← sendRectsIf (best.x ≠ x) (tightRects cl fuel x best.y (best.x - x) best.h)
        let right ← sendRectsIf (best.x + best.w ≠ x + w)
          (tightRects cl fuel (best.x + best.w) best.y (w - (best.x - x) - best.w) best.h)
        let bottom ← sendRectsIf (best.y + best.h ≠ y + h)
          (tightRects cl fuel x (best.y + best.h) w (h - (best.y - y) - best.h))
        some (sent.map (subrect fb translateFn) ++ top ++ left ++ [solidRect fb translateFn best] ++ right ++ bottom)

variable {fb translateFn}

/-- The rectangles that are filled have one colour. -/
def FillsRight (fb : Nat → Nat → α) (translateFn : α → β) (rects : List (TightRect β)) : Prop :=
  ∀ rect ∈ rects, ∀ color, rect.fill = some color → ∀ p ∈ rect.area, translateFn (fb p.1 p.2) = color

omit [DecidableEq α] [DecidableEq β] in
theorem mem_tightBeforeBuf {x y w h : Nat} {p : Nat × Nat} (hp : p ∈ box x y w h) :
    translateFn (fb p.1 p.2) ∈ tightBeforeBuf fb translateFn x y w h := by
  obtain ⟨hx, hx', hy, hy'⟩ := mem_box.mp hp
  apply List.mem_flatMap.mpr
  refine ⟨p.2 - y, List.mem_range.mpr (by omega), ?_⟩
  apply List.mem_map.mpr
  refine ⟨p.1 - x, List.mem_range.mpr (by omega), ?_⟩
  rw [Nat.add_sub_cancel' hx, Nat.add_sub_cancel' hy]

theorem solidColor_mem {data : List β} {color c : β} (hs : solidColor data = some color) (hc : c ∈ data) :
    c = color := by
  cases data with
  | nil => cases hs
  | cons c0 data =>
    rw [solidColor] at hs
    split at hs
    · rename_i hall
      cases hs
      rcases List.mem_cons.mp hc with rfl | hc
      · rfl
      · simpa using List.all_eq_true.mp hall c hc
    · cases hs

omit [DecidableEq α] in
theorem subrect_fill {hdr : RectHeader} {color : β} (hs : (subrect fb translateFn hdr).fill = some color)
    {p : Nat × Nat} (hp : p ∈ hdr.area) : translateFn (fb p.1 p.2) = color :=
  solidColor_mem hs (mem_tightBeforeBuf hp)

/-- All pixels of a rectangle have the colour. -/
def Solid (fb : Nat → Nat → α) (color : α) (x y w h : Nat) : Prop := ∀ p ∈ box x y w h, fb p.1 p.2 = color

omit [DecidableEq α] in
theorem Solid.below {color : α} {x y w h₁ h₂ : Nat} (h : Solid fb color x y w h₁)
    (h' : Solid fb color x (y + h₁) w h₂) : Solid fb color x y w (h₁ + h₂) := by
  intro p hp
  rw [mem_box] at hp
  by_cases hy : p.2 < y + h₁
  · exact h p (mem_box.mpr (by omega))
  · exact h' p (mem_box.mpr (by omega))

omit [DecidableEq α] in
theorem Solid.beside {color : α} {x y w₁ w₂ h : Nat} (hl : Solid fb color x y w₁ h)
    (hr : Solid fb color (x + w₁) y w₂ h) : Solid fb color x y (w₁ + w₂) h := by
  intro p hp
  rw [mem_box] at hp
  by_cases hx : p.1 < x + w₁
  · exact hl p (mem_box.mpr (by omega))
  · exact hr p (mem_box.mpr (by omega))

omit [DecidableEq α] in
theorem Solid.mono {color : α} {x y w h x' y' w' h' : Nat} (h₀ : Solid fb color x y w h)
    (hsub : box x' y' w' h' ⊆ box x y w h) : Solid fb color x' y' w' h' :=
  fun p hp => h₀ p (hsub hp)

omit [DecidableEq α] in
theorem Solid.empty {color : α} {x y w h : Nat} (hempty : w = 0 ∨ h = 0) : Solid fb color x y w h := by
  intro p hp
  rw [box_empty hempty] at hp
  exact absurd hp (Set.notMem_empty p)

theorem checkSolidTile_solid {x y w h : Nat} {need : Option α} {color : α}
    (hc : checkSolidTile fb x y w h need = some color) : Solid fb color x y w h := by
  simp only [checkSolidTile] at hc
  split_ifs at hc with hne hall
  cases hc
  simp only [List.all_eq_true, List.mem_range, decide_eq_true_eq] at hall
  intro p hp
  obtain ⟨hx, hx', hy, hy'⟩ := mem_box.mp hp
  have hpixel := hall (p.2 - y) (by omega) (p.1 - x) (by omega)
  rwa [Nat.add_sub_cancel' hx, Nat.add_sub_cancel' hy] at hpixel

theorem checkSolidTile_same {x y w h : Nat} {color : α}
    (hc : (checkSolidTile fb x y w h (some color)).isSome = true) : Solid fb color x y w h := by
  obtain ⟨color', hc⟩ := Option.isSome_iff_exists.mp hc
  have hsolid := checkSolidTile_solid hc
  have heq : color' = color := by
    simp only [checkSolidTile, Option.any_some] at hc
    split_ifs at hc with hne
    cases hc
    simpa using hne
  rwa [heq] at hsolid

theorem solidRunEnd_solid {dy dh limit dx : Nat} {color : α} :
    Solid fb color dx dy (solidRunEnd fb dy dh color limit dx - dx) dh := by
  fun_induction solidRunEnd fb dy dh color limit dx with
  | case1 dx hlt hnone => exact Solid.empty (.inl (Nat.sub_self dx))
  | case2 dx hlt hsome ih =>
    have hle := le_solidRunEnd fb dy dh color limit (dx + tileLength dx limit)
    have htile : Solid fb color dx dy (tileLength dx limit) dh := by
      apply checkSolidTile_same
      rw [← Option.not_isNone, Bool.not_eq_true', Bool.eq_false_iff]
      exact hsome
    have hboth := htile.beside ih
    rwa [← Nat.sub_sub, Nat.add_sub_cancel' (by omega)] at hboth
  | case3 dx hge => exact Solid.empty (.inl (Nat.sub_self dx))

/-- The rows of tiles that follow one another from `top` on. -/
def Rows (limit : Nat) : Nat → List Nat → Prop
  | _, [] => True
  | top, dy :: dys => dy = top ∧ Rows limit (dy + tileLength dy limit) dys

theorem rows_range {limit : Nat} (n top : Nat) (h : n = 0 ∨ top + MAX_SPLIT_TILE_SIZE * (n - 1) ≤ limit) :
    Rows limit top ((List.range n).map fun i => top + MAX_SPLIT_TILE_SIZE * i) := by
  induction n generalizing top with
  | zero => trivial
  | succ n ih =>
    rw [List.range_succ_eq_map, List.map_cons, List.map_map]
    refine ⟨rfl, ?_⟩
    rcases Nat.eq_zero_or_pos n with rfl | hn
    · trivial
    · unfold MAX_SPLIT_TILE_SIZE at *
      have htile : tileLength (top + 16 * 0) limit = 16 := by
        unfold tileLength MAX_SPLIT_TILE_SIZE
        rw [if_pos (by omega)]
      have hrest := ih (top + 16) (by omega)
      rw [htile]
      convert hrest using 2
      funext i
      simp only [Function.comp_apply]
      omega

theorem steps_rows (y h : Nat) : Rows (y + h) y ((steps h MAX_SPLIT_TILE_SIZE).map (y + ·)) := by
  rw [steps, List.map_map]
  apply rows_range
  unfold MAX_SPLIT_TILE_SIZE
  omega

theorem findBestRows_solid {x y h : Nat} {color : α} (dys : List Nat) {top wPrev : Nat} (hrows : Rows (y + h) top dys)
    (hy : y ≤ top) (hprev : Solid fb color x y wPrev (top - y)) {best : Nat × Nat}
    (hbest : Solid fb color x y best.1 best.2) :
    Solid fb color x y (findBestRows fb x y h color dys wPrev best).1
      (findBestRows fb x y h color dys wPrev best).2 := by
  induction dys generalizing top wPrev best with
  | nil => exact hbest
  | cons dy dys ih =>
    obtain ⟨rfl, hrows⟩ := hrows
    simp only [findBestRows]
    have hdw : (if wPrev > MAX_SPLIT_TILE_SIZE then MAX_SPLIT_TILE_SIZE else wPrev) ≤ wPrev := by
      split <;> omega
    generalize (if wPrev > MAX_SPLIT_TILE_SIZE then MAX_SPLIT_TILE_SIZE else wPrev) = dw at hdw ⊢
    split
    · exact hbest
    · rename_i hsome
      have hfirst : Solid fb color x dy dw (tileLength dy (y + h)) := by
        apply checkSolidTile_same
        rw [← Option.not_isNone, Bool.not_eq_true', Bool.eq_false_iff]
        exact hsome
      have hge := le_solidRunEnd fb dy (tileLength dy (y + h)) color (x + wPrev) (x + dw)
      have hle := solidRunEnd_le fb dy (tileLength dy (y + h)) color (Nat.add_le_add_left hdw x)
      have hrun := hfirst.beside (@solidRunEnd_solid _ _ fb dy (tileLength dy (y + h)) (x + wPrev) (x + dw) color)
      generalize solidRunEnd fb dy (tileLength dy (y + h)) color (x + wPrev) (x + dw) = runEnd at hge hle hrun ⊢
      have hwidth : dw + (runEnd - (x + dw)) = runEnd - x := by omega
      rw [hwidth] at hrun
      have habove : Solid fb color x y (runEnd - x) (dy - y) := by
        apply hprev.mono
        intro p hp
        rw [mem_box] at hp ⊢
        omega
      have hall : Solid fb color x y (runEnd - x) (dy + tileLength dy (y + h) - y) := by
        have hheight : dy + tileLength dy (y + h) - y = dy - y + tileLength dy (y + h) := by omega
        rw [hheight]
        apply habove.below
        rw [Nat.add_sub_cancel' hy]
        exact hrun
      apply ih hrows
      · omega
      · exact hall
      · split
        · exact hall
        · exact hbest

theorem findBestSolidArea_solid {x y w h : Nat} {color : α} :
    Solid fb color x y (findBestSolidArea fb x y w h color).1 (findBestSolidArea fb x y w h color).2 := by
  apply findBestRows_solid _ (steps_rows y h) (le_refl y)
  · exact Solid.empty (.inr (Nat.sub_self y))
  · exact Solid.empty (.inl rfl)

theorem extendDown_pass {pass : Nat → Bool} {limit pos p : Nat} (hp : extendDown pass limit pos ≤ p) (hp' : p < pos) :
    pass p = true := by
  induction pos with
  | zero => exact absurd hp' (Nat.not_lt_zero p)
  | succ pos ih =>
    rw [extendDown] at hp
    split at hp
    · rename_i hpass
      rcases Nat.lt_succ_iff_lt_or_eq.mp hp' with hlt | rfl
      · exact ih hp hlt
      · exact hpass.2
    · omega

theorem extendUp_pass {pass : Nat → Bool} {pos n p : Nat} (hp : pos ≤ p) (hp' : p < extendUp pass pos n) :
    pass p = true := by
  induction n generalizing pos with
  | zero => exact absurd hp' (Nat.not_lt.mpr hp)
  | succ n ih =>
    rw [extendUp] at hp'
    split at hp'
    · rename_i hpass
      rcases Nat.eq_or_lt_of_le hp with rfl | hlt
      · exact hpass
      · exact ih hlt hp'
    · omega

theorem extendSolidArea_solid {x y w h : Nat} {color : α} {area : Area}
    (harea : Solid fb color area.x area.y area.w area.h) :
    Solid fb color (extendSolidArea fb x y w h color area).x (extendSolidArea fb x y w h color area).y
      (extendSolidArea fb x y w h color area).w (extendSolidArea fb x y w h color area).h := by
  unfold extendSolidArea
  extract_lets row top bottom column left right
  have hrows : Solid fb color area.x top area.w (bottom - top) := by
    intro p hp
    rw [mem_box] at hp
    by_cases hy : p.2 < area.y
    · have hpass := extendDown_pass hp.2.2.1 hy
      exact checkSolidTile_same hpass p (mem_box.mpr (by omega))
    · by_cases hy' : p.2 < area.y + area.h
      · exact harea p (mem_box.mpr (by omega))
      · have hpass := extendUp_pass (Nat.not_lt.mp hy') (by omega : p.2 < bottom)
        exact checkSolidTile_same hpass p (mem_box.mpr (by omega))
  intro p hp
  rw [mem_box] at hp
  dsimp only at hp
  by_cases hx : p.1 < area.x
  · have hpass := extendDown_pass hp.1 hx
    exact checkSolidTile_same hpass p (mem_box.mpr (by omega))
  · by_cases hx' : p.1 < area.x + area.w
    · exact hrows p (mem_box.mpr (by omega))
    · have hpass := extendUp_pass (Nat.not_lt.mp hx') (by omega : p.1 < right)
      exact checkSolidTile_same hpass p (mem_box.mpr (by omega))

theorem findSolidInRow_solid {x y w h dy : Nat} {dxs : List Nat} {area : Area}
    (hfind : findSolidInRow fb x y w h dy dxs = some area) :
    ∃ color, Solid fb color area.x area.y area.w area.h := by
  induction dxs with
  | nil => cases hfind
  | cons dx dxs ih =>
    rw [findSolidInRow] at hfind
    split at hfind
    · exact ih hfind
    · rename_i color hc
      dsimp only at hfind
      split at hfind
      · exact ih hfind
      · cases hfind
        exact ⟨color, extendSolidArea_solid findBestSolidArea_solid⟩

theorem findSolid_solid {level : Fin 10} {x w nMaxRows : Nat} {dys : List Nat} {y h : Nat} {area : Area}
    (hfind : (findSolid fb level x w nMaxRows dys y h).2.2.2 = some area) :
    ∃ color, Solid fb color area.x area.y area.w area.h := by
  induction dys generalizing y h with
  | nil => cases hfind
  | cons dy dys ih =>
    rw [findSolid] at hfind
    dsimp only at hfind
    split at hfind
    · rename_i area' hrow
      cases hfind
      exact findSolidInRow_solid hrow
    · exact ih hfind

omit [DecidableEq α] [DecidableEq β] in
theorem solidRect_fill {best : Area} {color' : α} (hsolid : Solid fb color' best.x best.y best.w best.h)
    {color : β} (hs : (solidRect fb translateFn best).fill = some color) {p : Nat × Nat}
    (hp : p ∈ (solidRect fb translateFn best).area) : translateFn (fb p.1 p.2) = color := by
  cases hs
  obtain ⟨hx, hx', hy, hy'⟩ := mem_box.mp hp
  dsimp only [solidRect] at hx hx' hy hy'
  rw [hsolid p hp, hsolid (best.x, best.y) (mem_box.mpr (by dsimp only; omega))]

theorem fillsRight_simple (hdrs : List RectHeader) :
    FillsRight fb translateFn (hdrs.map (subrect fb translateFn)) := by
  intro rect hrect color hfill p hp
  obtain ⟨hdr, -, rfl⟩ := List.mem_map.mp hrect
  exact subrect_fill hfill hp

omit [DecidableEq α] [DecidableEq β] in
theorem FillsRight.append {rects rects' : List (TightRect β)} (h : FillsRight fb translateFn rects)
    (h' : FillsRight fb translateFn rects') : FillsRight fb translateFn (rects ++ rects') := by
  intro rect hrect
  rcases List.mem_append.mp hrect with hrect | hrect
  · exact h rect hrect
  · exact h' rect hrect

omit [DecidableEq α] [DecidableEq β] in
theorem fillsRight_nil : FillsRight fb translateFn ([] : List (TightRect β)) :=
  fun _ hrect => absurd hrect List.not_mem_nil

omit [DecidableEq α] [DecidableEq β] in
theorem sendRectsIf_fillsRight {left : Prop} [Decidable left] {send : Option (List (TightRect β))}
    {rects : List (TightRect β)} (hsend : ∀ rects, send = some rects → FillsRight fb translateFn rects)
    (hs : sendRectsIf left send = some rects) : FillsRight fb translateFn rects := by
  unfold sendRectsIf at hs
  split at hs
  · exact hsend rects hs
  · cases hs
    exact fillsRight_nil

theorem tightRects_fillsRight (cl : TightClient) {fuel x y w h : Nat} {rects : List (TightRect β)}
    (hsend : tightRects fb translateFn cl fuel x y w h = some rects) : FillsRight fb translateFn rects := by
  induction fuel generalizing x y w h rects with
  | zero => cases hsend
  | succ fuel ih =>
    rw [tightRects] at hsend
    dsimp only at hsend
    split at hsend
    · cases hsend
      exact fillsRight_simple _
    · split at hsend
      · cases hsend
        exact (fillsRight_simple _).append (fillsRight_simple _)
      · rename_i sent y' h' best hfind
        obtain ⟨left, hl, hsend⟩ := Option.bind_eq_some_iff.mp hsend
        obtain ⟨right, hr, hsend⟩ := Option.bind_eq_some_iff.mp hsend
        obtain ⟨bottom, hb, hsend⟩ := Option.bind_eq_some_iff.mp hsend
        cases hsend
        obtain ⟨color, hsolid⟩ := findSolid_solid (congrArg (·.2.2.2) hfind)
        apply FillsRight.append
        · apply FillsRight.append
          · apply FillsRight.append
            · apply FillsRight.append
              · apply (fillsRight_simple _).append
                split
                · exact fillsRight_simple _
                · exact fillsRight_nil
              · exact sendRectsIf_fillsRight (fun rects hs => ih hs) hl
            · intro rect hrect color' hfill p hp
              rw [List.mem_singleton.mp hrect] at hfill hp
              exact solidRect_fill hsolid hfill hp
          · exact sendRectsIf_fillsRight (fun rects hs => ih hs) hr
        · exact sendRectsIf_fillsRight (fun rects hs => ih hs) hb

omit [DecidableEq β] in
theorem sendRectsIf_headers {left : Prop} [Decidable left] (send : Option (List (TightRect β))) :
    (sendRectsIf left send).map (List.map TightRect.toRectHeader) =
      sendIf left (send.map (List.map TightRect.toRectHeader)) := by
  unfold sendRectsIf sendIf
  split
  · rfl
  · rfl

omit [DecidableEq α] in
theorem subrect_headers (hdrs : List RectHeader) :
    (hdrs.map (subrect fb translateFn)).map TightRect.toRectHeader = hdrs := by
  rw [List.map_map]
  exact List.map_id hdrs

/-- The rectangles have the headers that the routine sends. -/
theorem tightRects_headers (cl : TightClient) (fuel x y w h : Nat) :
    (tightRects fb translateFn cl fuel x y w h).map (List.map TightRect.toRectHeader) =
      rfbSendRectEncodingTight fb cl fuel x y w h := by
  induction fuel generalizing x y w h with
  | zero => rfl
  | succ fuel ih =>
    rw [tightRects, rfbSendRectEncodingTight]
    dsimp only
    split
    · rw [Option.map_some, subrect_headers]
    · generalize findSolid fb cl.tightCompressLevel x w (subrectMaxHeight cl.tightCompressLevel w)
        ((steps h MAX_SPLIT_TILE_SIZE).map (y + ·)) y h = found
      obtain ⟨sent, y', h', _ | best⟩ := found
      · simp only [Option.map_some, List.map_append, subrect_headers]
      · simp only [← ih, ← sendRectsIf_headers]
        generalize sendRectsIf (best.x ≠ x) _ = left
        generalize sendRectsIf (best.x + best.w ≠ x + w) _ = right
        generalize sendRectsIf (best.y + best.h ≠ y' + h') _ = bottom
        rcases left with _ | left
        · rfl
        rcases right with _ | right
        · rfl
        rcases bottom with _ | bottom
        · rfl
        have htop : (if best.y ≠ y' then (sendRectSimple cl.tightCompressLevel x y' w (best.y - y')).map
              (subrect fb translateFn) else []).map TightRect.toRectHeader =
            if best.y ≠ y' then sendRectSimple cl.tightCompressLevel x y' w (best.y - y') else [] := by
          split
          · exact subrect_headers _
          · rfl
        simp only [Option.map_some, Option.bind_eq_bind, Option.bind_some, List.map_append, subrect_headers, htop]
        rfl

/-- The rectangles sent for a rectangle are disjoint and make up it, and the filled ones have one colour. -/
theorem tightRects_tile_and_fill (fb : Nat → Nat → α) (translateFn : α → β) (cl : TightClient) (x y w h : Nat) :
    ∃ rects, tightRects fb translateFn cl (w + h + 1) x y w h = some rects ∧
      rfbSendRectEncodingTight fb cl (w + h + 1) x y w h = some (rects.map TightRect.toRectHeader) ∧
      Tiles (fun rect : TightRect β => rect.area) rects (box x y w h) ∧
      ∀ rect ∈ rects, ∀ color, rect.fill = some color → ∀ p ∈ rect.area, translateFn (fb p.1 p.2) = color := by
  obtain ⟨headers, hsend, -⟩ := rfbSendRectEncodingTight_some fb cl x y w h (Nat.lt_succ_self (w + h))
  have hheaders := @tightRects_headers _ _ _ _ fb translateFn cl (w + h + 1) x y w h
  rw [hsend] at hheaders
  obtain ⟨rects, hrects, rfl⟩ := Option.map_eq_some_iff.mp hheaders
  refine ⟨rects, hrects, hsend, ?_, tightRects_fillsRight cl hrects⟩
  exact Tiles.map.mp (rfbSendRectEncodingTight_tiles cl hsend)

end Fill

end Colama.Xvnc

import Colama.Xvnc.Tight

namespace Colama.Xvnc

theorem mem_steps {n step d : Nat} (hstep : 0 < step) (h : d ∈ steps n step) : d < n := by
  obtain ⟨i, hi, rfl⟩ := List.mem_map.mp h
  have hlt : i + 1 ≤ (n + step - 1) / step := List.mem_range.mp hi
  have hmul := (Nat.le_div_iff_mul_le hstep).mp hlt
  rw [Nat.add_mul, Nat.mul_comm] at hmul
  omega

theorem length_steps {n step : Nat} (hstep : 0 < step) (hn : 0 < n) :
    (steps n step).length = (n - 1) / step + 1 := by
  rw [steps, List.length_map, List.length_range, ← Nat.add_div_right _ hstep]
  congr 1
  omega

theorem steps_eq_cons (n step : Nat) (hstep : 0 < step) (hn : 0 < n) : ∃ rest, steps n step = 0 :: rest := by
  have hpos : 0 < (n + step - 1) / step := Nat.div_pos (by omega) hstep
  obtain ⟨m, hm⟩ := Nat.exists_eq_succ_of_ne_zero hpos.ne'
  exact ⟨_, by rw [steps, hm, List.range_succ_eq_map, List.map_cons, Nat.mul_zero]⟩

theorem maxRectWidth_pos (level : Fin 10) : 0 < (tightConf level).maxRectWidth := by
  fin_cases level <;> decide

theorem maxRectWidth_le (level : Fin 10) : (tightConf level).maxRectWidth ≤ (tightConf level).maxRectSize := by
  fin_cases level <;> decide

theorem subrectMaxHeight_pos (level : Fin 10) {w : Nat} (hw : 0 < w) : 0 < subrectMaxHeight level w := by
  have hpos := maxRectWidth_pos level
  have hle := maxRectWidth_le level
  unfold subrectMaxHeight subrectMaxWidth
  split_ifs with h
  · exact Nat.div_pos hle hpos
  · exact Nat.div_pos (by omega) hw

theorem sendRectSimple_length (level : Fin 10) (x y : Nat) {w h : Nat} (hw : 0 < w) (hh : 0 < h) :
    (sendRectSimple level x y w h).length =
      if needsSplit level w h then
        ((w - 1) / (tightConf level).maxRectWidth + 1) * ((h - 1) / subrectMaxHeight level w + 1)
      else 1 := by
  rw [sendRectSimple]
  split_ifs
  · simp only [sendSubrect, List.length_flatMap, List.length_singleton, List.map_const', List.sum_replicate,
      smul_eq_mul, mul_one]
    rw [length_steps (maxRectWidth_pos level) hw, length_steps (subrectMaxHeight_pos level hw) hh, mul_comm]
  · rfl

theorem sendRectSimple_tight (level : Fin 10) (x y w h : Nat) :
    ∀ r ∈ sendRectSimple level x y w h, r.encoding = .tight := by
  intro r hr
  rw [sendRectSimple] at hr
  split_ifs at hr
  · simp only [sendSubrect, List.mem_flatMap, List.mem_singleton] at hr
    obtain ⟨dy, -, dx, -, rfl⟩ := hr
    rfl
  · rw [List.mem_singleton.mp hr]

section Solid

variable {α : Type*} [DecidableEq α] {fb : Nat → Nat → α}

theorem checkSolidTile_color {x y w h : Nat} {color : α} (hc : checkSolidTile fb x y w h none = some color) :
    checkSolidTile fb x y w h (some color) = some color := by
  simp only [checkSolidTile, Option.any_none, Bool.false_eq_true, if_false] at hc
  split_ifs at hc with hall
  cases hc
  simp [checkSolidTile, hall]

theorem tileLength_pos {pos limit : Nat} (h : pos < limit) : 0 < tileLength pos limit := by
  unfold tileLength MAX_SPLIT_TILE_SIZE
  split <;> omega

theorem tileLength_le {pos limit : Nat} (h : pos ≤ limit) : pos + tileLength pos limit ≤ limit := by
  unfold tileLength MAX_SPLIT_TILE_SIZE
  split <;> omega

theorem le_solidRunEnd (fb : Nat → Nat → α) (dy dh : Nat) (color : α) (limit dx : Nat) :
    dx ≤ solidRunEnd fb dy dh color limit dx := by
  fun_induction solidRunEnd fb dy dh color limit dx with
  | case1 dx hlt hnone => exact le_refl dx
  | case2 dx hlt hsome ih => exact (Nat.le_add_right _ _).trans ih
  | case3 dx hge => exact le_refl dx

theorem solidRunEnd_le (fb : Nat → Nat → α) (dy dh : Nat) (color : α) {limit dx : Nat} (h : dx ≤ limit) :
    solidRunEnd fb dy dh color limit dx ≤ limit := by
  fun_induction solidRunEnd fb dy dh color limit dx with
  | case1 dx hlt hnone => exact h
  | case2 dx hlt hsome ih => exact ih (tileLength_le h)
  | case3 dx hge => exact h

/-- A solid area of at least one pixel, within `w` and `h`. -/
structure Fits (w h : Nat) (best : Nat × Nat) : Prop where
  pos : 0 < best.1 * best.2
  width : best.1 ≤ w
  height : best.2 ≤ h

theorem findBestRows_fits {x y w h : Nat} {color : α} (dys : List Nat) (hdys : ∀ dy ∈ dys, dy ≤ y + h)
    {wPrev : Nat} (hw : wPrev ≤ w) {best : Nat × Nat} (hbest : Fits w h best) :
    Fits w h (findBestRows fb x y h color dys wPrev best) := by
  induction dys generalizing wPrev best with
  | nil => exact hbest
  | cons dy dys ih =>
    have hdy := tileLength_le (hdys dy List.mem_cons_self)
    have hdw : (if wPrev > MAX_SPLIT_TILE_SIZE then MAX_SPLIT_TILE_SIZE else wPrev) ≤ wPrev := by
      split <;> omega
    simp only [findBestRows]
    generalize (if wPrev > MAX_SPLIT_TILE_SIZE then MAX_SPLIT_TILE_SIZE else wPrev) = dw at hdw ⊢
    split
    · exact hbest
    · have hrun := solidRunEnd_le fb dy (tileLength dy (y + h)) color (by omega : x + dw ≤ x + wPrev)
      apply ih
      · exact fun d hd => hdys d (List.mem_cons_of_mem dy hd)
      · omega
      · split
        · rename_i hlt
          exact ⟨(Nat.zero_le _).trans_lt hlt, by show _ ≤ w; omega, by show _ ≤ h; omega⟩
        · exact hbest

theorem tileLength_add (x w : Nat) :
    tileLength x (x + w) = if w > MAX_SPLIT_TILE_SIZE then MAX_SPLIT_TILE_SIZE else w := by
  unfold tileLength MAX_SPLIT_TILE_SIZE
  split_ifs <;> omega

theorem findBestSolidArea_fits {x y w h : Nat} {color : α} (hw : 0 < w) (hh : 0 < h)
    (hc : checkSolidTile fb x y (tileLength x (x + w)) (tileLength y (y + h)) none = some color) :
    Fits w h (findBestSolidArea fb x y w h color) := by
  obtain ⟨rest, hsteps⟩ := steps_eq_cons h MAX_SPLIT_TILE_SIZE (by decide) hh
  have hrest : ∀ dy ∈ rest.map (y + ·), dy ≤ y + h := by
    intro dy hdy
    obtain ⟨d, hd, rfl⟩ := List.mem_map.mp hdy
    have hmem : d ∈ steps h MAX_SPLIT_TILE_SIZE := hsteps ▸ List.mem_cons_of_mem 0 hd
    exact Nat.add_le_add_left (mem_steps (by decide) hmem).le y
  have hcheck := checkSolidTile_color hc
  have hdw := tileLength_pos (by omega : x < x + w)
  have hdw' := tileLength_le (by omega : x ≤ x + w)
  have hdh := tileLength_pos (by omega : y < y + h)
  have hdh' := tileLength_le (by omega : y ≤ y + h)
  rw [findBestSolidArea, hsteps, List.map_cons, Nat.add_zero, findBestRows, ← tileLength_add x w, hcheck]
  have hle := solidRunEnd_le fb y (tileLength y (y + h)) color hdw'
  have hge := le_solidRunEnd fb y (tileLength y (y + h)) color (x + w) (x + tileLength x (x + w))
  apply findBestRows_fits _ hrest
  · omega
  · have hpos : 0 < (solidRunEnd fb y (tileLength y (y + h)) color (x + w) (x + tileLength x (x + w)) - x) *
        (y + tileLength y (y + h) - y) := by
      apply Nat.mul_pos
      · omega
      · omega
    rw [if_pos (by simpa using hpos)]
    exact ⟨hpos, by show _ ≤ w; omega, by show _ ≤ h; omega⟩

theorem extendDown_le (pass : Nat → Bool) (limit pos : Nat) : extendDown pass limit pos ≤ pos := by
  induction pos with
  | zero => exact le_refl 0
  | succ pos ih =>
    rw [extendDown]
    split
    · exact ih.trans (Nat.le_succ pos)
    · exact le_refl _

theorem le_extendDown (pass : Nat → Bool) {limit pos : Nat} (h : limit ≤ pos) :
    limit ≤ extendDown pass limit pos := by
  induction pos with
  | zero => exact h
  | succ pos ih =>
    rw [extendDown]
    split
    · rename_i hpass
      exact ih hpass.1
    · exact h

theorem le_extendUp (pass : Nat → Bool) (pos n : Nat) : pos ≤ extendUp pass pos n := by
  induction n generalizing pos with
  | zero => exact le_refl pos
  | succ n ih =>
    rw [extendUp]
    split
    · exact (Nat.le_succ pos).trans (ih (pos + 1))
    · exact le_refl pos

theorem extendUp_le (pass : Nat → Bool) (pos n : Nat) : extendUp pass pos n ≤ pos + n := by
  induction n generalizing pos with
  | zero => exact le_refl pos
  | succ n ih =>
    rw [extendUp]
    split
    · exact (ih (pos + 1)).trans (by omega)
    · exact Nat.le_add_right pos _

/-- An area that is not empty and lies within a rectangle. -/
structure Area.Inside (x y w h : Nat) (area : Area) : Prop where
  left : x ≤ area.x
  top : y ≤ area.y
  width : 0 < area.w
  height : 0 < area.h
  right : area.x + area.w ≤ x + w
  bottom : area.y + area.h ≤ y + h

theorem extendSolidArea_inside {x y w h : Nat} {color : α} {area : Area} (harea : area.Inside x y w h) :
    (extendSolidArea fb x y w h color area).Inside x y w h := by
  obtain ⟨hl, ht, hw, hh, hr, hb⟩ := harea
  unfold extendSolidArea
  extract_lets row top bottom column left right
  have htop := extendDown_le row y area.y
  have htop' := le_extendDown row ht
  have hbottom := le_extendUp row (area.y + area.h) (y + h - (area.y + area.h))
  have hbottom' := extendUp_le row (area.y + area.h) (y + h - (area.y + area.h))
  have hleft := extendDown_le column x area.x
  have hleft' := le_extendDown column hl
  have hright := le_extendUp column (area.x + area.w) (x + w - (area.x + area.w))
  have hright' := extendUp_le column (area.x + area.w) (x + w - (area.x + area.w))
  constructor
  · exact hleft'
  · exact htop'
  · show 0 < right - left
    omega
  · show 0 < bottom - top
    omega
  · show left + (right - left) ≤ x + w
    omega
  · show top + (bottom - top) ≤ y + h
    omega

theorem findSolidInRow_inside {x y w h dy : Nat} (hy : y ≤ dy) (hdy : dy < y + h) (dxs : List Nat)
    (hdxs : ∀ dx ∈ dxs, x ≤ dx ∧ dx < x + w) {area : Area}
    (h' : findSolidInRow fb x y w h dy dxs = some area) : area.Inside x y w h := by
  induction dxs with
  | nil => cases h'
  | cons dx dxs ih =>
    have hdx := hdxs dx List.mem_cons_self
    have ih' := ih fun d hd => hdxs d (List.mem_cons_of_mem dx hd)
    rw [findSolidInRow] at h'
    split at h'
    · exact ih' h'
    · rename_i color hc
      dsimp only at h'
      split at h'
      · exact ih' h'
      · cases h'
        have hx : dx + (w - (dx - x)) = x + w := by omega
        have hy' : dy + (h - (dy - y)) = y + h := by omega
        have hfits : Fits (w - (dx - x)) (h - (dy - y))
            (findBestSolidArea fb dx dy (w - (dx - x)) (h - (dy - y)) color) := by
          apply findBestSolidArea_fits
          · omega
          · omega
          · rw [hx, hy']
            exact hc
        obtain ⟨hpos, hwidth, hheight⟩ := hfits
        generalize findBestSolidArea fb dx dy (w - (dx - x)) (h - (dy - y)) color = best at *
        apply extendSolidArea_inside
        constructor
        · exact hdx.1
        · exact hy
        · exact Nat.pos_of_mul_pos_right hpos
        · exact Nat.pos_of_mul_pos_left hpos
        · show dx + best.1 ≤ x + w
          omega
        · show dy + best.2 ≤ y + h
          omega

theorem mem_steps_map {x w dx : Nat} (h : dx ∈ (steps w MAX_SPLIT_TILE_SIZE).map (x + ·)) :
    x ≤ dx ∧ dx < x + w := by
  obtain ⟨d, hd, rfl⟩ := List.mem_map.mp h
  exact ⟨Nat.le_add_right x d, Nat.add_lt_add_left (mem_steps (by decide) hd) x⟩

theorem steps_sorted (n step : Nat) : (steps n step).Pairwise (· ≤ ·) := by
  rw [steps, List.pairwise_map]
  exact List.pairwise_lt_range.imp fun hlt => Nat.mul_le_mul_left step hlt.le

/-- What the search leaves of the rectangle `y`, `h`: its lower part, with the area in it. -/
structure Left (x y w h : Nat) (r : List RectHeader × Nat × Nat × Option Area) : Prop where
  tight : ∀ hdr ∈ r.1, hdr.encoding = .tight
  top : y ≤ r.2.1
  bottom : r.2.1 + r.2.2.1 = y + h
  inside : ∀ area, r.2.2.2 = some area → area.Inside x r.2.1 w r.2.2.1

theorem findSolid_left (fb : Nat → Nat → α) (level : Fin 10) (x w nMaxRows : Nat) (dys : List Nat) (y h : Nat)
    (hdys : ∀ dy ∈ dys, y ≤ dy ∧ dy < y + h) (hsort : dys.Pairwise (· ≤ ·)) :
    Left x y w h (findSolid fb level x w nMaxRows dys y h) := by
  induction dys generalizing y h with
  | nil =>
    constructor
    · exact fun hdr hmem => absurd hmem List.not_mem_nil
    · exact le_refl y
    · rfl
    · exact fun area harea => absurd harea (by simp [findSolid])
  | cons dy dys ih =>
    have hdy := hdys dy List.mem_cons_self
    have hfound : ∀ sent y' h' area, (∀ hdr ∈ sent, hdr.encoding = Encoding.tight) → y ≤ y' → y' ≤ dy →
        y' + h' = y + h →
        findSolidInRow fb x y' w h' dy ((steps w MAX_SPLIT_TILE_SIZE).map (x + ·)) = some area →
        Left x y w h (sent, y', h', some area) := by
      intro sent y' h' area hsent hy hy' hsum harea
      constructor
      · exact hsent
      · exact hy
      · exact hsum
      · intro area' heq
        cases heq
        have hdy' : dy < y' + h' := by omega
        exact findSolidInRow_inside hy' hdy' _ (fun dx hdx => mem_steps_map hdx) harea
    have hnone : ∀ sent y' h', (∀ hdr ∈ sent, hdr.encoding = Encoding.tight) → y ≤ y' → y' ≤ dy → y' + h' = y + h →
        Left x y w h (sent ++ (findSolid fb level x w nMaxRows dys y' h').1, (findSolid fb level x w nMaxRows dys y' h').2) := by
      intro sent y' h' hsent hy hy' hsum
      have hrest : Left x y' w h' (findSolid fb level x w nMaxRows dys y' h') := by
        apply ih
        · intro d hd
          have hle := (List.pairwise_cons.mp hsort).1 d hd
          have hlt := (hdys d (List.mem_cons_of_mem dy hd)).2
          omega
        · exact (List.pairwise_cons.mp hsort).2
      constructor
      · intro hdr hmem
        rcases List.mem_append.mp hmem with hmem | hmem
        · exact hsent hdr hmem
        · exact hrest.tight hdr hmem
      · exact hy.trans hrest.top
      · exact hrest.bottom.trans hsum
      · exact hrest.inside
    rw [findSolid]
    by_cases hu : dy - y ≥ nMaxRows
    · simp only [hu, decide_true, if_true]
      cases harea : findSolidInRow fb x (y + nMaxRows) w (h - nMaxRows) dy ((steps w MAX_SPLIT_TILE_SIZE).map (x + ·)) with
      | some area =>
        exact hfound _ _ _ area (sendRectSimple_tight level x y w nMaxRows) (by omega) (by omega) (by omega) harea
      | none => exact hnone _ _ _ (sendRectSimple_tight level x y w nMaxRows) (by omega) (by omega) (by omega)
    · simp only [hu, decide_false, Bool.false_eq_true, if_false]
      cases harea : findSolidInRow fb x y w h dy ((steps w MAX_SPLIT_TILE_SIZE).map (x + ·)) with
      | some area => exact hfound _ _ _ area (fun hdr hmem => absurd hmem List.not_mem_nil) (by omega) (by omega) rfl harea
      | none => exact hnone _ _ _ (fun hdr hmem => absurd hmem List.not_mem_nil) (by omega) (by omega) rfl

theorem sendIf_some {left : Prop} [Decidable left] {send : Option (List RectHeader)}
    (h : left → ∃ headers, send = some headers ∧ ∀ hdr ∈ headers, hdr.encoding = Encoding.tight) :
    ∃ headers, sendIf left send = some headers ∧ ∀ hdr ∈ headers, hdr.encoding = Encoding.tight := by
  unfold sendIf
  split
  · rename_i hleft
    exact h hleft
  · exact ⟨[], rfl, fun hdr hmem => absurd hmem List.not_mem_nil⟩

/-- The recursion comes to an end, and sends rectangles of the Tight encoding only. -/
theorem rfbSendRectEncodingTight_some (fb : Nat → Nat → α) (cl : TightClient) {fuel : Nat} (x y w h : Nat)
    (hfuel : w + h < fuel) : ∃ headers, rfbSendRectEncodingTight fb cl fuel x y w h = some headers ∧
      ∀ hdr ∈ headers, hdr.encoding = Encoding.tight := by
  induction fuel generalizing x y w h with
  | zero => exact absurd hfuel (Nat.not_lt_zero _)
  | succ fuel ih =>
    have hleft := findSolid_left fb cl.tightCompressLevel x w
      (subrectMaxHeight cl.tightCompressLevel w) ((steps h MAX_SPLIT_TILE_SIZE).map (y + ·)) y h
      (fun dy hdy => mem_steps_map hdy) ((steps_sorted _ _).map _ fun a b hab => Nat.add_le_add_left hab y)
    rw [rfbSendRectEncodingTight]
    split
    · exact ⟨_, rfl, sendRectSimple_tight _ x y w h⟩
    · dsimp only
      split
      · rename_i sent y' h' hfind
        rw [hfind] at hleft
        refine ⟨_, rfl, fun hdr hmem => ?_⟩
        rcases List.mem_append.mp hmem with hmem | hmem
        · exact hleft.tight hdr hmem
        · exact sendRectSimple_tight _ x y' w h' hdr hmem
      · rename_i sent y' h' best hfind
        rw [hfind] at hleft
        obtain ⟨hl, ht, hw, hh, hr, hb⟩ : best.Inside x y' w h' := hleft.inside best rfl
        have hbottom : y' + h' = y + h := hleft.bottom
        have htop : y ≤ y' := hleft.top
        obtain ⟨left, hleft', htight⟩ := sendIf_some fun (hx : best.x ≠ x) =>
          ih x best.y (best.x - x) best.h (by omega)
        obtain ⟨right, hright', htight'⟩ := sendIf_some fun (hx : best.x + best.w ≠ x + w) =>
          ih (best.x + best.w) best.y (w - (best.x - x) - best.w) best.h (by omega)
        obtain ⟨bottom, hbottom', htight''⟩ := sendIf_some fun (hy : best.y + best.h ≠ y' + h') =>
          ih x (best.y + best.h) w (h' - (best.y - y') - best.h) (by omega)
        rw [hleft', hright', hbottom']
        refine ⟨_, rfl, fun hdr hmem => ?_⟩
        simp only [List.mem_append, List.mem_singleton] at hmem
        obtain ((((hmem | hmem) | hmem) | hmem) | hmem) | hmem := hmem
        · exact hleft.tight hdr hmem
        · split at hmem
          · exact sendRectSimple_tight _ _ _ _ _ hdr hmem
          · exact absurd hmem List.not_mem_nil
        · exact htight hdr hmem
        · rw [hmem]
        · exact htight' hdr hmem
        · exact htight'' hdr hmem

end Solid

end Colama.Xvnc

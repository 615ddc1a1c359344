import Colama.Xvnc.Hextile
import Colama.Xvnc.TightTiles

namespace Colama.Xvnc

open Lib

variable {bpp : Bpp}

namespace UpdateBuf

variable {u : UpdateBuf}

end UpdateBuf

/-- A part of a tile that has one colour. -/
def Uniform (data : TileData bpp) (x y w h : Nat) (cl : Card bpp) : Prop :=
  ∀ i j, x ≤ i → i < x + w → y ≤ j → j < y + h → data i j = cl

theorem runLength_spec (row : Nat → Card bpp) (cl : Card bpp) (n x : Nat) :
    runLength row cl n x ≤ n ∧ ∀ i, x ≤ i → i < x + runLength row cl n x → row i = cl := by
  induction n generalizing x with
  | zero => exact ⟨le_rfl, fun i hle hlt => absurd hlt (Nat.not_lt.mpr hle)⟩
  | succ n ih =>
    rw [runLength]
    split
    · rename_i hx
      obtain ⟨hle, hrun⟩ := ih (x + 1)
      refine ⟨Nat.succ_le_succ hle, fun i hi hlt => ?_⟩
      rcases Nat.eq_or_lt_of_le hi with rfl | hi
      · exact hx
      · exact hrun i hi (by omega)
    · exact ⟨Nat.zero_le _, fun i hle hlt => absurd hlt (Nat.not_lt.mpr hle)⟩

theorem runLength_pos (row : Nat → Card bpp) {cl : Card bpp} {n x : Nat} (hn : 0 < n) (hx : row x = cl) :
    0 < runLength row cl n x := by
  cases n with
  | zero => exact absurd hn (Nat.lt_irrefl 0)
  | succ n =>
    rw [runLength, if_pos hx]
    exact Nat.succ_pos _

/-- Both rectangles start at `x`, `y`, have one colour, and are not empty once a row has been gone through. -/
structure Grown (data : TileData bpp) (w x y : Nat) (cl : Card bpp) (s : Subrects) : Prop where
  h_uniform : Uniform data x y s.hw s.hh cl
  v_uniform : Uniform data x y s.vw s.vh cl
  hw_le : x + s.hw ≤ w
  vw_le : x + s.vw ≤ w
  hh_le : s.hh ≤ s.vh
  hyflag : s.hyflag = true → s.hh = s.vh
  start : s.vh = 0 → s.hyflag = true
  pos : 0 < s.vh → 0 < s.hw ∧ 0 < s.hh ∧ 0 < s.vw

theorem Uniform.addRow {data : TileData bpp} {x y w h w' : Nat} {cl : Card bpp} (hu : Uniform data x y w h cl)
    (hw : w' ≤ w ∨ h = 0) (hrow : ∀ i, x ≤ i → i < x + w' → data i (y + h) = cl) :
    Uniform data x y w' (h + 1) cl := by
  intro i j hi hi' hj hj'
  rcases Nat.eq_or_lt_of_le (Nat.le_of_lt_succ (show j < (y + h).succ by omega)) with rfl | hj''
  · exact hrow i hi hi'
  · exact hu i j hi (by omega) hj hj''

theorem growSubrects_grown {data : TileData bpp} {w x y : Nat} {cl : Card bpp} (hx : x < w) (n : Nat) {s : Subrects}
    (hs : Grown data w x y cl s) :
    Grown data w x y cl (growSubrects data w x cl n (y + s.vh) s) ∧
      s.vh ≤ (growSubrects data w x cl n (y + s.vh) s).vh ∧
      (growSubrects data w x cl n (y + s.vh) s).vh ≤ s.vh + n ∧
      (0 < n → data x (y + s.vh) = cl → s.vh < (growSubrects data w x cl n (y + s.vh) s).vh) := by
  induction n generalizing s with
  | zero => exact ⟨hs, le_rfl, le_rfl, fun h => absurd h (Nat.lt_irrefl 0)⟩
  | succ n ih =>
    rw [growSubrects]
    split
    · rename_i hcl
      exact ⟨hs, le_rfl, Nat.le_add_right _ _, fun _ h => absurd h hcl⟩
    · rename_i hcl
      rw [not_not] at hcl
      obtain ⟨hle, hrun⟩ := runLength_spec (fun i => data i (y + s.vh)) cl (w - x) x
      have hpos := runLength_pos (fun i => data i (y + s.vh)) (n := w - x) (by omega) hcl
      dsimp only at hrun ⊢
      generalize runLength (fun i => data i (y + s.vh)) cl (w - x) x = i at hle hrun hpos ⊢
      generalize hhw : (if s.vh = 0 then i else s.hw) = hw
      generalize hvw : (if s.vh = 0 then i else s.vw) = vw
      generalize hgrows : (s.hyflag && decide (i ≥ hw)) = grows
      have hhw' : s.vh = 0 ∧ hw = i ∨ 0 < s.vh ∧ hw = s.hw := by
        by_cases h : s.vh = 0
        · exact .inl ⟨h, hhw.symm.trans (if_pos h)⟩
        · exact .inr ⟨Nat.pos_of_ne_zero h, hhw.symm.trans (if_neg h)⟩
      have hvw' : s.vh = 0 ∧ vw = i ∨ 0 < s.vh ∧ vw = s.vw := by
        by_cases h : s.vh = 0
        · exact .inl ⟨h, hvw.symm.trans (if_pos h)⟩
        · exact .inr ⟨Nat.pos_of_ne_zero h, hvw.symm.trans (if_neg h)⟩
      have hhw_le := hs.hw_le
      have hvw_le := hs.vw_le
      have hhh := hs.hh_le
      have hgrown : Grown data w x y cl
          { hw, hh := if grows then s.hh + 1 else s.hh, vw := if i < vw then i else vw, vh := s.vh + 1,
            hyflag := grows } := by
        refine ⟨?_, ?_, ?_, ?_, ?_, ?_, ?_, ?_⟩
        · dsimp only
          split
          · rename_i hg
            subst hg
            rw [Bool.and_eq_true, decide_eq_true_eq] at hgrows
            have heq := hs.hyflag hgrows.1
            have hu := hs.h_uniform
            rw [heq] at hu ⊢
            apply hu.addRow
            · omega
            · exact fun k hk hk' => hrun k hk (by omega)
          · rename_i hg
            intro k j hk hk' hj hj'
            rcases hhw' with ⟨hvh, rfl⟩ | ⟨-, rfl⟩
            · omega
            · exact hs.h_uniform k j hk hk' hj hj'
        · dsimp only
          apply hs.v_uniform.addRow
          · split <;> omega
          · intro k hk hk'
            apply hrun k hk
            split at hk' <;> omega
        · dsimp only
          omega
        · dsimp only
          split <;> omega
        · dsimp only
          split <;> omega
        · intro hg
          dsimp only at hg ⊢
          subst hg
          rw [Bool.and_eq_true] at hgrows
          have heq := hs.hyflag hgrows.1
          rw [if_pos rfl, heq]
        · intro h
          cases h
        · intro _
          dsimp only
          by_cases hvh : s.vh = 0
          · have hg : grows = true := by
              rw [← hgrows, hs.start hvh, Bool.true_and, decide_eq_true_eq]
              omega
            subst hg
            refine ⟨by omega, by simp, ?_⟩
            split <;> omega
          · have hp := hs.pos (Nat.pos_of_ne_zero hvh)
            refine ⟨by omega, ?_, ?_⟩
            · split <;> omega
            · split <;> omega
      have hrest := ih hgrown
      dsimp only at hrest
      rw [← Nat.add_assoc] at hrest
      exact ⟨hrest.1, by omega, by omega, fun _ _ => by omega⟩

/-- The chosen subrectangle is inside the tile, not empty, and has one colour. -/
theorem biggerSubrect_spec (data : TileData bpp) {w h x y : Nat} (hx : x < w) (hy : y < h) :
    0 < (biggerSubrect data w h x y).1 ∧ 0 < (biggerSubrect data w h x y).2 ∧
      x + (biggerSubrect data w h x y).1 ≤ w ∧ y + (biggerSubrect data w h x y).2 ≤ h ∧
      Uniform data x y (biggerSubrect data w h x y).1 (biggerSubrect data w h x y).2 (data x y) := by
  have hstart : Grown data w x y (data x y) { hw := 0, hh := 0, vw := 0, vh := 0, hyflag := true } := by
    refine ⟨?_, ?_, hx.le, hx.le, le_rfl, fun _ => rfl, fun _ => rfl, fun h => absurd h (Nat.lt_irrefl 0)⟩
    · exact fun i j hi hi' => absurd hi' (Nat.not_lt.mpr hi)
    · exact fun i j hi hi' => absurd hi' (Nat.not_lt.mpr hi)
  obtain ⟨hgrown, -, hle, hlt⟩ := growSubrects_grown hx (h - y) hstart
  have hpos := hgrown.pos (hlt (by omega) rfl)
  have hhw := hgrown.hw_le
  have hvw := hgrown.vw_le
  have hhh := hgrown.hh_le
  rw [biggerSubrect]
  dsimp only [Nat.add_zero] at hgrown hle hpos hhw hvw hhh ⊢
  split
  · exact ⟨hpos.1, hpos.2.1, hhw, by dsimp only; omega, hgrown.h_uniform⟩
  · exact ⟨hpos.2.2, by dsimp only; omega, hvw, by dsimp only; omega, hgrown.v_uniform⟩

/-- A subrectangle of a tile as it is sent. -/
structure Subrect (bpp : Bpp) where
  x : Nat
  y : Nat
  w : Nat
  h : Nat
  colour : Card bpp

namespace Subrect

def bytes (mono : Bool) (s : Subrect bpp) : List UInt8 :=
  (if mono then [] else s.colour.bytes) ++ [hextilePackXY s.x s.y, hextilePackWH s.w s.h]

def Has (s : Subrect bpp) (i j : Nat) : Prop := s.x ≤ i ∧ i < s.x + s.w ∧ s.y ≤ j ∧ j < s.y + s.h

instance (s : Subrect bpp) (i j : Nat) : Decidable (s.Has i j) := by
  unfold Has
  infer_instance

theorem length_bytes (mono : Bool) (s : Subrect bpp) :
    (s.bytes mono).length = (if mono then 0 else bpp.size) + 2 := by
  cases mono <;> simp [bytes]

end Subrect

/-- The subrectangles have the colours of the tile, and hold all of the cells that are not background. -/
structure Covers (data : TileData bpp) (w h : Nat) (bg : Card bpp) (cells : List (Nat × Nat))
    (subs : List (Subrect bpp)) : Prop where
  inside : ∀ s ∈ subs, 0 < s.w ∧ 0 < s.h ∧ s.x + s.w ≤ w ∧ s.y + s.h ≤ h
  colour : ∀ s ∈ subs, s.colour ≠ bg ∧ Uniform data s.x s.y s.w s.h s.colour
  all : ∀ c ∈ cells, data c.1 c.2 ≠ bg → ∃ s ∈ subs, s.Has c.1 c.2
  few : subs.length ≤ cells.countP fun c => decide (data c.1 c.2 ≠ bg)

theorem Covers.cons {data : TileData bpp} {w h : Nat} {bg : Card bpp} {cell : Nat × Nat}
    {cells : List (Nat × Nat)} {subs : List (Subrect bpp)} {tw th : Nat}
    (hcovers : Covers (markDone data cell.1 cell.2 tw th bg) w h bg cells subs) (hne : data cell.1 cell.2 ≠ bg)
    (hw : 0 < tw) (hh : 0 < th) (hx : cell.1 + tw ≤ w) (hy : cell.2 + th ≤ h)
    (hu : Uniform data cell.1 cell.2 tw th (data cell.1 cell.2)) :
    Covers data w h bg (cell :: cells)
      ({ x := cell.1, y := cell.2, w := tw, h := th, colour := data cell.1 cell.2 } :: subs) := by
  have hmark : ∀ i j, markDone data cell.1 cell.2 tw th bg i j ≠ bg →
      markDone data cell.1 cell.2 tw th bg i j = data i j := by
    intro i j hne
    unfold markDone at hne ⊢
    split
    · rename_i hin
      rw [if_pos hin] at hne
      exact absurd rfl hne
    · rfl
  refine ⟨?_, ?_, ?_, ?_⟩
  · exact List.forall_mem_cons.mpr ⟨⟨hw, hh, hx, hy⟩, hcovers.inside⟩
  · refine List.forall_mem_cons.mpr ⟨⟨hne, hu⟩, fun s hs => ?_⟩
    obtain ⟨hcolour, huniform⟩ := hcovers.colour s hs
    refine ⟨hcolour, fun i j hi hi' hj hj' => ?_⟩
    have hdone := huniform i j hi hi' hj hj'
    exact (hmark i j (hdone ▸ hcolour)).symm.trans hdone
  · intro c hc hdata
    by_cases hin : cell.1 ≤ c.1 ∧ c.1 < cell.1 + tw ∧ cell.2 ≤ c.2 ∧ c.2 < cell.2 + th
    · exact ⟨_, List.mem_cons_self, hin⟩
    · rcases List.mem_cons.mp hc with rfl | hc
      · exact absurd ⟨le_rfl, by omega, le_rfl, by omega⟩ hin
      · obtain ⟨s, hs, hhas⟩ := hcovers.all c hc (by rwa [markDone, if_neg hin])
        exact ⟨s, List.mem_cons_of_mem _ hs, hhas⟩
  · rw [List.length_cons, List.countP_cons_of_pos (by simpa using hne)]
    apply Nat.succ_le_succ
    apply hcovers.few.trans
    apply List.countP_mono_left
    intro c _ hc
    rw [decide_eq_true_eq] at hc ⊢
    exact hmark _ _ hc ▸ hc

theorem length_flatMap_bytes (mono : Bool) (subs : List (Subrect bpp)) :
    (subs.flatMap (Subrect.bytes mono)).length = subs.length * ((if mono then 0 else bpp.size) + 2) := by
  induction subs with
  | nil => simp
  | cons s subs ih =>
    rw [List.flatMap_cons, List.length_append, ih, Subrect.length_bytes, List.length_cons, Nat.succ_mul,
      Nat.add_comm]

theorem mem_tileCells {w h : Nat} {c : Nat × Nat} : c ∈ tileCells w h ↔ c.1 < w ∧ c.2 < h := by
  simp only [tileCells, List.mem_flatMap, List.mem_map, List.mem_range]
  constructor
  · rintro ⟨y, hy, x, hx, rfl⟩
    exact ⟨hx, hy⟩
  · rintro ⟨hx, hy⟩
    exact ⟨c.2, hy, c.1, hx, rfl⟩

theorem length_tileCells (w h : Nat) : (tileCells w h).length = w * h := by
  rw [tileCells, List.length_flatMap]
  simp [Nat.mul_comm]

/-- What a subrectangle of a tile at `x`, `y` covers on the screen. -/
def Subrect.At (s : Subrect bpp) (x y : Nat) (p : Nat × Nat) : Prop :=
  x + s.x ≤ p.1 ∧ p.1 < x + s.x + s.w ∧ y + s.y ≤ p.2 ∧ p.2 < y + s.y + s.h

instance (s : Subrect bpp) (x y : Nat) (p : Nat × Nat) : Decidable (s.At x y p) := by
  unfold Subrect.At
  infer_instance

theorem hextilePack_extract : ∀ a < 16, ∀ b < 16,
    hextileExtractX (hextilePackXY a b) = a ∧ hextileExtractY (hextilePackXY a b) = b ∧
      hextileExtractW (hextilePackWH (a + 1) (b + 1)) = a + 1 ∧
      hextileExtractH (hextilePackWH (a + 1) (b + 1)) = b + 1 := by
  decide

variable {β : Type} {fill raw : List UInt8 → β} {v : HextileViewer β}

variable (fill) in
theorem drawSubrects_spec {x y : Nat} (mono : Bool) {subs : List (Subrect bpp)}
    (hsubs : ∀ s ∈ subs, 0 < s.w ∧ 0 < s.h ∧ s.x + s.w ≤ 16 ∧ s.y + s.h ≤ 16) (v : HextileViewer β) :
    (drawSubrects bpp.size fill (!mono) x y subs.length (subs.flatMap (Subrect.bytes mono)) v).bg = v.bg ∧
    (mono = true →
      (drawSubrects bpp.size fill (!mono) x y subs.length (subs.flatMap (Subrect.bytes mono)) v).fg = v.fg) ∧
    ∀ p, (drawSubrects bpp.size fill (!mono) x y subs.length (subs.flatMap (Subrect.bytes mono)) v).screen p =
      subs.foldl (fun c s => if s.At x y p then if mono then v.fg else fill s.colour.bytes else c) (v.screen p) := by
  induction subs generalizing v with
  | nil => exact ⟨rfl, fun _ => rfl, fun _ => rfl⟩
  | cons s subs ih =>
    obtain ⟨⟨hw, hh, hx, hy⟩, hsubs'⟩ := List.forall_mem_cons.mp hsubs
    obtain ⟨hxy₁, hxy₂, -, -⟩ := hextilePack_extract s.x (by omega) s.y (by omega)
    obtain ⟨-, -, hwh₁, hwh₂⟩ := hextilePack_extract (s.w - 1) (by omega) (s.h - 1) (by omega)
    rw [Nat.sub_add_cancel hw, Nat.sub_add_cancel hh] at hwh₁ hwh₂
    cases mono with
    | true =>
      obtain ⟨hbg, hfg, hscreen⟩ := ih hsubs' { v with
        screen := fillRectangle v.screen (x + s.x) (y + s.y) s.w s.h v.fg }
      have hstep : drawSubrects bpp.size fill (!true) x y (s :: subs).length
          ((s :: subs).flatMap (Subrect.bytes true)) v =
          drawSubrects bpp.size fill (!true) x y subs.length (subs.flatMap (Subrect.bytes true))
            { v with screen := fillRectangle v.screen (x + s.x) (y + s.y) s.w s.h v.fg } := by
        rw [List.length_cons, drawSubrects, List.flatMap_cons, Subrect.bytes]
        simp [hxy₁, hxy₂, hwh₁, hwh₂]
      rw [hstep]
      exact ⟨hbg, hfg, hscreen⟩
    | false =>
      obtain ⟨hbg, -, hscreen⟩ := ih hsubs' { v with
        screen := fillRectangle v.screen (x + s.x) (y + s.y) s.w s.h (fill s.colour.bytes)
        fg := fill s.colour.bytes }
      have hstep : drawSubrects bpp.size fill (!false) x y (s :: subs).length
          ((s :: subs).flatMap (Subrect.bytes false)) v =
          drawSubrects bpp.size fill (!false) x y subs.length (subs.flatMap (Subrect.bytes false))
            { v with
              screen := fillRectangle v.screen (x + s.x) (y + s.y) s.w s.h (fill s.colour.bytes)
              fg := fill s.colour.bytes } := by
        have htake : ∀ rest : List UInt8, (s.colour.bytes ++ rest).take bpp.size = s.colour.bytes := fun rest =>
          List.take_left' s.colour.length_bytes
        have hdrop : ∀ rest : List UInt8, (s.colour.bytes ++ rest).drop bpp.size = rest := fun rest =>
          List.drop_left' s.colour.length_bytes
        rw [List.length_cons, drawSubrects, List.flatMap_cons, Subrect.bytes]
        simp only [Bool.not_false, if_true, Bool.false_eq_true, if_false, List.append_assoc, htake, hdrop]
        simp [hxy₁, hxy₂, hwh₁, hwh₂]
      rw [hstep]
      exact ⟨hbg, (by rintro ⟨⟩), hscreen⟩

/-- The subencoding of a tile that is not raw. -/
def tileFlags (newBg newFg subrects coloured : Bool) : UInt8 :=
  ((if newBg then hextileBackgroundSpecified else 0) ||| if subrects then hextileAnySubrects else 0) |||
    (if newFg then hextileForegroundSpecified else 0) ||| if coloured then hextileSubrectsColoured else 0

theorem tileFlags_spec : ∀ newBg newFg subrects coloured : Bool,
    tileFlags newBg newFg subrects coloured &&& hextileRaw = 0 ∧
      decide (tileFlags newBg newFg subrects coloured &&& hextileBackgroundSpecified ≠ 0) = newBg ∧
      decide (tileFlags newBg newFg subrects coloured &&& hextileForegroundSpecified ≠ 0) = newFg ∧
      (tileFlags newBg newFg subrects coloured &&& hextileAnySubrects = 0 ↔ subrects = false) ∧
      decide (tileFlags newBg newFg subrects coloured &&& hextileSubrectsColoured ≠ 0) = coloured := by
  decide

/-- A pixel that is sent if it is new. -/
def pixelIf (new : Bool) (pix : Card bpp) : List UInt8 := if new then pix.bytes else []

/-- The viewer after the colours of a tile and its background. -/
def HextileViewer.coloured (v : HextileViewer β) (fill : List UInt8 → β) (x y w h : Nat) (newBg newFg : Bool)
    (bg fg : Card bpp) : HextileViewer β where
  bg := if newBg then fill bg.bytes else v.bg
  fg := if newFg then fill fg.bytes else v.fg
  screen := fillRectangle v.screen x y w h (if newBg then fill bg.bytes else v.bg)

theorem readColour_append (new : Bool) (pix : Card bpp) (colour : β) (rest : List UInt8) :
    readColour bpp.size fill new colour (pixelIf new pix ++ rest) =
      some (if new then fill pix.bytes else colour, rest) := by
  cases new with
  | true => simp [readColour, pixelIf, readBytes_append pix.length_bytes]
  | false => rfl

variable (fill raw) in
theorem handleHextile_tile (newBg newFg subrects coloured : Bool) (bg fg : Card bpp) {n : Nat} (hn : n < 256)
    {buf : List UInt8} (hbuf : buf.length = n * (2 + if coloured then bpp.size else 0)) (x y w h : Nat)
    (v : HextileViewer β) (rest : List UInt8) :
    handleHextile bpp.size fill raw x y w h v ([tileFlags newBg newFg subrects coloured] ++ (pixelIf newBg bg ++
      (pixelIf newFg fg ++ ((if subrects then UInt8.ofNat n :: buf else []) ++ rest)))) =
      some (if subrects then drawSubrects bpp.size fill coloured x y n buf (v.coloured fill x y w h newBg newFg bg fg)
        else v.coloured fill x y w h newBg newFg bg fg, rest) := by
  obtain ⟨hraw, hbg, hfg, hany, hcol⟩ := tileFlags_spec newBg newFg subrects coloured
  unfold handleHextile
  rw [readBytes_append (n := 1) rfl]
  simp only [Option.bind_eq_bind, Option.bind_some, List.getD_cons_zero]
  rw [if_neg (not_not.mpr hraw), hbg, readColour_append]
  simp only [Option.bind_some]
  rw [hfg, readColour_append]
  simp only [Option.bind_some]
  cases subrects with
  | false => rw [if_pos (hany.mpr rfl)]; rfl
  | true =>
    have hcount : (UInt8.ofNat n).toNat = n := by
      rw [UInt8.toNat_ofNat', Nat.mod_eq_of_lt hn]
    have hread : readBytes 1 (UInt8.ofNat n :: buf ++ rest) = some ([UInt8.ofNat n], buf ++ rest) :=
      readBytes_append (rfl : [UInt8.ofNat n].length = 1) (buf ++ rest)
    rw [if_neg (fun h => Bool.noConfusion (hany.mp h)), if_pos rfl, hread]
    simp only [Option.bind_some, List.getD_cons_zero]
    rw [hcount, hcol, readBytes_append hbuf]
    rfl

theorem length_flatMap_card (pixels : List (Card bpp)) : (pixels.flatMap Card.bytes).length = pixels.length * bpp.size := by
  induction pixels with
  | nil => simp
  | cons pix pixels ih =>
    rw [List.flatMap_cons, List.length_append, ih, Card.length_bytes, List.length_cons, Nat.succ_mul, Nat.add_comm]

theorem take_drop_flatMap_bytes {pixels : List (Card bpp)} {k : Nat} {pix : Card bpp} (hk : pixels[k]? = some pix) :
    ((pixels.flatMap Card.bytes).drop (k * bpp.size)).take bpp.size = pix.bytes := by
  induction pixels generalizing k with
  | nil => cases hk
  | cons a pixels ih =>
    rw [List.flatMap_cons]
    cases k with
    | zero =>
      cases hk
      rw [Nat.zero_mul, List.drop_zero, List.take_left' (Card.length_bytes _)]
    | succ k =>
      rw [Nat.succ_mul, Nat.add_comm, ← List.drop_drop, List.drop_left' (Card.length_bytes _)]
      exact ih hk

theorem tileList_getElem? (data : TileData bpp) {w h i j : Nat} (hi : i < w) (hj : j < h) :
    (tileList data w h)[j * w + i]? = some (data i j) := by
  have hcell : (tileCells w h)[j * w + i]? = some (i, j) := by
    induction h with
    | zero => cases hj
    | succ h ih =>
      have hsucc : tileCells w (h + 1) = tileCells w h ++ (List.range w).map fun x => (x, h) := by
        rw [tileCells, List.range_succ, List.flatMap_append, List.flatMap_singleton]
        rfl
      rw [hsucc]
      rcases Nat.lt_succ_iff_lt_or_eq.mp hj with hj | rfl
      · have hlt : j * w + i < (tileCells w h).length := by
          rw [length_tileCells, Nat.mul_comm w]
          calc j * w + i < (j + 1) * w := by rw [Nat.succ_mul]; omega
            _ ≤ h * w := Nat.mul_le_mul_right w hj
        rw [List.getElem?_append_left hlt]
        exact ih hj
      · rw [List.getElem?_append_right (by rw [length_tileCells, Nat.mul_comm]; exact Nat.le_add_right _ _),
          length_tileCells, Nat.mul_comm w, Nat.add_sub_cancel_left]
        simp [hi]
  rw [tileList, List.getElem?_map, hcell]
  rfl

/-- The screen with the pixels of a tile. -/
def tileShown (colour : Card bpp → β) (data : TileData bpp) (x y w h : Nat) (screen : Nat × Nat → β) : Nat × Nat → β :=
  fun p => if x ≤ p.1 ∧ p.1 < x + w ∧ y ≤ p.2 ∧ p.2 < y + h then colour (data (p.1 - x) (p.2 - y)) else screen p

theorem handleHextile_raw {colour : Card bpp → β} (hraw : ∀ pix : Card bpp, raw pix.bytes = colour pix)
    (data : TileData bpp) (x y w h : Nat) (v : HextileViewer β) (rest : List UInt8) :
    handleHextile bpp.size fill raw x y w h v ([hextileRaw] ++ ((tileList data w h).flatMap Card.bytes ++ rest)) =
      some ({ v with screen := tileShown colour data x y w h v.screen }, rest) := by
  have hlen : ((tileList data w h).flatMap Card.bytes).length = w * h * bpp.size := by
    rw [length_flatMap_card, tileList, List.length_map, length_tileCells]
  unfold handleHextile
  rw [readBytes_append (n := 1) rfl]
  simp only [Option.bind_eq_bind, Option.bind_some, List.getD_cons_zero]
  rw [if_pos (by decide), readBytes_append hlen]
  simp only [Option.bind_some]
  congr 3
  funext p
  rw [copyDataToScreen, tileShown]
  split
  · rename_i hp
    rw [take_drop_flatMap_bytes (tileList_getElem? data (by omega) (by omega)), hraw]
  · rfl

/-- All that is painted over a pixel has the same colour. -/
theorem foldl_paint {subs : List (Subrect bpp)} {at' : Subrect bpp → Prop} [DecidablePred at']
    {col : Subrect bpp → β} {c₀ c : β} (hcol : ∀ s ∈ subs, at' s → col s = c₀)
    (hstart : c = c₀ ∨ ∃ s ∈ subs, at' s) :
    subs.foldl (fun c s => if at' s then col s else c) c = c₀ := by
  induction subs generalizing c with
  | nil => simpa using hstart
  | cons s subs ih =>
    obtain ⟨hs, hcol'⟩ := List.forall_mem_cons.mp hcol
    rw [List.foldl_cons]
    apply ih hcol'
    by_cases hat : at' s
    · exact .inl ((if_pos hat).trans (hs hat))
    · rw [if_neg hat]
      refine hstart.imp id ?_
      rintro ⟨s', hmem, hat'⟩
      rcases List.mem_cons.mp hmem with rfl | hmem
      · exact absurd hat' hat
      · exact ⟨s', hmem, hat'⟩

/-- The subrectangles on the background give the tile. -/
theorem Covers.shown {data : TileData bpp} {w h : Nat} {bg : Card bpp} {subs : List (Subrect bpp)}
    (hcovers : Covers data w h bg (tileCells w h) subs) (colour : Card bpp → β) (col : Subrect bpp → β)
    (hcol : ∀ s ∈ subs, col s = colour s.colour) (x y : Nat) (screen : Nat × Nat → β) (p : Nat × Nat) :
    subs.foldl (fun c s => if s.At x y p then col s else c) (fillRectangle screen x y w h (colour bg) p) =
      tileShown colour data x y w h screen p := by
  rw [fillRectangle, tileShown]
  by_cases hp : x ≤ p.1 ∧ p.1 < x + w ∧ y ≤ p.2 ∧ p.2 < y + h
  · rw [if_pos hp, if_pos hp]
    apply foldl_paint
    · rintro s hs ⟨hx₁, hx₂, hy₁, hy₂⟩
      rw [hcol s hs, (hcovers.colour s hs).2 (p.1 - x) (p.2 - y) (by omega) (by omega) (by omega) (by omega)]
    · by_cases hbg : data (p.1 - x) (p.2 - y) = bg
      · exact .inl (congrArg colour hbg.symm)
      · obtain ⟨s, hs, hx₁, hx₂, hy₁, hy₂⟩ := hcovers.all (p.1 - x, p.2 - y)
          (mem_tileCells.mpr ⟨by dsimp only; omega, by dsimp only; omega⟩) hbg
        dsimp only at hx₁ hx₂ hy₁ hy₂
        exact .inr ⟨s, hs, by omega, by omega, by omega, by omega⟩
  · rw [if_neg hp, if_neg hp]
    have hnone : ∀ s ∈ subs, ¬ s.At x y p := by
      rintro s hs ⟨hx₁, hx₂, hy₁, hy₂⟩
      obtain ⟨-, -, hw, hh⟩ := hcovers.inside s hs
      exact hp ⟨by omega, by omega, by omega, by omega⟩
    exact foldl_paint (fun s hs hat => absurd hat (hnone s hs)) (.inl rfl)

/-- The viewer has the colours that the encoder remembers. -/
structure Agrees (colour : Card bpp → β) (c : HextileColours bpp) (v : HextileViewer β) : Prop where
  bg : c.validBg = true → v.bg = colour c.bg
  fg : c.validFg = true → v.fg = colour c.fg

/-- Any viewer that agrees with the encoder shows the tile, reads no more than its bytes, and agrees with the
encoder again. -/
def TileDecodes (data : TileData bpp) (w h : Nat) (c c' : HextileColours bpp) (tile : List UInt8) : Prop :=
  ∀ (β : Type) (colour : Card bpp → β) (fill raw : List UInt8 → β), (∀ pix : Card bpp, fill pix.bytes = colour pix) →
    (∀ pix : Card bpp, raw pix.bytes = colour pix) → ∀ (x y : Nat) (v : HextileViewer β) (rest : List UInt8),
    Agrees colour c v → ∃ v', handleHextile bpp.size fill raw x y w h v (tile ++ rest) = some (v', rest) ∧
      Agrees colour c' v' ∧ v'.screen = tileShown colour data x y w h v.screen

def newBackground (c : HextileColours bpp) (bg : Card bpp) : Bool := !c.validBg || decide (bg ≠ c.bg)

def newForeground (c : HextileColours bpp) (mono : Bool) (fg : Card bpp) : Bool :=
  mono && (!c.validFg || decide (fg ≠ c.fg))

theorem Agrees.coloured_bg {colour : Card bpp → β} {c : HextileColours bpp} (hagrees : Agrees colour c v)
    (hfill : ∀ pix : Card bpp, fill pix.bytes = colour pix) (bg : Card bpp) :
    (if newBackground c bg then fill bg.bytes else v.bg) = colour bg := by
  cases hnew : newBackground c bg with
  | true => exact hfill bg
  | false =>
    simp only [newBackground, Bool.or_eq_false_iff, Bool.not_eq_false', decide_eq_false_iff_not, not_not] at hnew
    rw [if_neg Bool.false_ne_true, hagrees.bg hnew.1, hnew.2]

theorem Agrees.coloured_fg {colour : Card bpp → β} {c : HextileColours bpp} (hagrees : Agrees colour c v)
    (hfill : ∀ pix : Card bpp, fill pix.bytes = colour pix) (fg : Card bpp) :
    (if newForeground c true fg then fill fg.bytes else v.fg) = colour fg := by
  cases hnew : newForeground c true fg with
  | true => exact hfill fg
  | false =>
    simp only [newForeground, Bool.true_and, Bool.or_eq_false_iff, Bool.not_eq_false', decide_eq_false_iff_not,
      not_not] at hnew
    rw [if_neg Bool.false_ne_true, hagrees.fg hnew.1, hnew.2]

theorem solid_decodes {data : TileData bpp} {w h : Nat} {bg : Card bpp} (hsolid : ∀ pix ∈ tileList data w h, pix = bg)
    (c : HextileColours bpp) :
    TileDecodes data w h c { c with validBg := true, bg }
      ([tileFlags (newBackground c bg) false false false] ++ pixelIf (newBackground c bg) bg) := by
  intro β colour fill raw hfill hraw x y v rest hagrees
  have hread := handleHextile_tile fill raw (newBackground c bg) false false false bg bg
    (n := 0) (by decide) (show ([] : List UInt8).length = _ by simp) x y w h v rest
  refine ⟨v.coloured fill x y w h (newBackground c bg) false bg bg, ?_,
    ⟨fun _ => hagrees.coloured_bg hfill bg, hagrees.fg⟩, ?_⟩
  · rw [List.append_assoc]
    exact hread
  · funext p
    show fillRectangle v.screen x y w h _ p = tileShown colour data x y w h v.screen p
    rw [hagrees.coloured_bg hfill bg, fillRectangle, tileShown]
    split
    · rename_i hp
      have hmem : data (p.1 - x) (p.2 - y) ∈ tileList data w h :=
        List.mem_map.mpr ⟨(p.1 - x, p.2 - y), mem_tileCells.mpr ⟨by dsimp only; omega, by dsimp only; omega⟩, rfl⟩
      rw [hsolid _ hmem]
    · rfl

theorem raw_decodes (data : TileData bpp) (w h : Nat) (c c' : HextileColours bpp) :
    TileDecodes data w h c { c' with validBg := false, validFg := false }
      ([hextileRaw] ++ (tileList data w h).flatMap Card.bytes) := by
  intro β colour fill raw hfill hraw x y v rest hagrees
  refine ⟨{ v with screen := tileShown colour data x y w h v.screen }, ?_, ⟨nofun, nofun⟩, rfl⟩
  rw [List.append_assoc]
  exact handleHextile_raw hraw data x y w h v rest

theorem subrects_decode {data : TileData bpp} {w h : Nat} {bg fg : Card bpp} {mono : Bool} {subs : List (Subrect bpp)}
    (hw : w ≤ 16) (hh : h ≤ 16) (hcovers : Covers data w h bg (tileCells w h) subs) (hlen : subs.length < 256)
    (hmono : mono = true → ∀ pix ∈ tileList data w h, pix = bg ∨ pix = fg) (c : HextileColours bpp) :
    TileDecodes data w h c { validBg := true, validFg := mono, bg, fg := if mono then fg else c.fg }
      ([tileFlags (newBackground c bg) (newForeground c mono fg) true (!mono)] ++ (pixelIf (newBackground c bg) bg ++
        (pixelIf (newForeground c mono fg) fg ++ UInt8.ofNat subs.length :: subs.flatMap (Subrect.bytes mono)))) := by
  intro β colour fill raw hfill hraw x y v rest hagrees
  have hbuf : (subs.flatMap (Subrect.bytes mono)).length = subs.length * (2 + if (!mono) then bpp.size else 0) := by
    rw [length_flatMap_bytes, Nat.add_comm]
    cases mono <;> rfl
  have hread := handleHextile_tile fill raw (newBackground c bg) (newForeground c mono fg) true
    (!mono) bg fg hlen hbuf x y w h v rest
  have hinside : ∀ s ∈ subs, 0 < s.w ∧ 0 < s.h ∧ s.x + s.w ≤ 16 ∧ s.y + s.h ≤ 16 := by
    intro s hs
    obtain ⟨hsw, hsh, hsx, hsy⟩ := hcovers.inside s hs
    exact ⟨hsw, hsh, hsx.trans hw, hsy.trans hh⟩
  obtain ⟨hvbg, hvfg, hscreen⟩ := drawSubrects_spec fill (x := x) (y := y) mono hinside
    (v.coloured fill x y w h (newBackground c bg) (newForeground c mono fg) bg fg)
  refine ⟨_, ?_, ⟨fun _ => hvbg.trans (hagrees.coloured_bg hfill bg), ?_⟩, ?_⟩
  · simpa only [List.append_assoc, if_true] using hread
  · intro hmono'
    dsimp only at hmono'
    subst hmono'
    exact (hvfg rfl).trans (hagrees.coloured_fg hfill fg)
  · funext p
    rw [hscreen, ← hcovers.shown colour (fun s => if mono then
      (v.coloured fill x y w h (newBackground c bg) (newForeground c mono fg) bg fg).fg else fill s.colour.bytes) _ x y
      v.screen p, HextileViewer.coloured, hagrees.coloured_bg hfill bg]
    intro s hs
    cases mono with
    | false => exact hfill s.colour
    | true =>
      obtain ⟨hne, hu⟩ := hcovers.colour s hs
      obtain ⟨hsw, hsh, hsx, hsy⟩ := hcovers.inside s hs
      have hdata : data s.x s.y = s.colour := hu s.x s.y le_rfl (by omega) le_rfl (by omega)
      have hmem : s.colour ∈ tileList data w h :=
        List.mem_map.mpr ⟨(s.x, s.y), mem_tileCells.mpr ⟨by dsimp only; omega, by dsimp only; omega⟩, hdata⟩
      rw [(hmono rfl s.colour hmem).resolve_left hne]
      exact hagrees.coloured_fg hfill fg

/-- The screen with the pixels of some tiles of a rectangle at `rx`, `ry`. -/
def tilesShown (colour : Card bpp → β) (fb : Nat → Nat → Card bpp) (rx ry : Nat) (tiles : List (Nat × Nat × Nat × Nat))
    (screen : Nat × Nat → β) : Nat × Nat → β :=
  tiles.foldl (fun screen (x, y, w, h) =>
    tileShown colour (fun i j => fb (rx + x + i) (ry + y + j)) (rx + x) (ry + y) w h screen) screen

/-- A pixel is shown if one of the tiles holds it. -/
theorem tilesShown_eq {colour : Card bpp → β} {fb : Nat → Nat → Card bpp} {rx ry : Nat}
    {tiles : List (Nat × Nat × Nat × Nat)} {screen : Nat × Nat → β} (p : Nat × Nat) :
    tilesShown colour fb rx ry tiles screen p =
      if ∃ tile ∈ tiles, rx + tile.1 ≤ p.1 ∧ p.1 < rx + tile.1 + tile.2.2.1 ∧ ry + tile.2.1 ≤ p.2 ∧
        p.2 < ry + tile.2.1 + tile.2.2.2 then colour (fb p.1 p.2) else screen p := by
  induction tiles generalizing screen with
  | nil => simp [tilesShown]
  | cons tile tiles ih =>
    obtain ⟨x, y, w, h⟩ := tile
    rw [tilesShown, List.foldl_cons]
    dsimp only
    rw [← tilesShown, ih, tileShown]
    by_cases hin : rx + x ≤ p.1 ∧ p.1 < rx + x + w ∧ ry + y ≤ p.2 ∧ p.2 < ry + y + h
    · have hcell : fb (rx + x + (p.1 - (rx + x))) (ry + y + (p.2 - (ry + y))) = fb p.1 p.2 := by
        rw [Nat.add_sub_cancel' hin.1, Nat.add_sub_cancel' hin.2.2.1]
      rw [if_pos hin, hcell, ite_self, if_pos ⟨(x, y, w, h), List.mem_cons_self, hin⟩]
    · rw [if_neg hin]
      simp only [List.mem_cons, exists_eq_or_imp, hin, false_or]

theorem tilesOf_size {step rw rh : Nat} (hstep : 0 < step) {tile : Nat × Nat × Nat × Nat}
    (htile : tile ∈ tilesOf step rw rh) :
    (0 < tile.2.2.1 ∧ tile.2.2.1 ≤ step) ∧ 0 < tile.2.2.2 ∧ tile.2.2.2 ≤ step := by
  simp only [tilesOf, List.mem_flatMap, List.mem_map] at htile
  obtain ⟨y, hy, x, hx, rfl⟩ := htile
  have hylt := mem_steps hstep hy
  have hxlt := mem_steps hstep hx
  dsimp only
  refine ⟨?_, ?_⟩
  · split <;> omega
  · split <;> omega

theorem tilesOf_cover {step rw rh : Nat} (hstep : 0 < step) (rx ry : Nat) (p : Nat × Nat) :
    (∃ tile ∈ tilesOf step rw rh, rx + tile.1 ≤ p.1 ∧ p.1 < rx + tile.1 + tile.2.2.1 ∧ ry + tile.2.1 ≤ p.2 ∧
      p.2 < ry + tile.2.1 + tile.2.2.2) ↔ rx ≤ p.1 ∧ p.1 < rx + rw ∧ ry ≤ p.2 ∧ p.2 < ry + rh := by
  have hcolumns := (steps_tiles (n := rw) hstep).mem_iff (p.1 - rx)
  have hrows := (steps_tiles (n := rh) hstep).mem_iff (p.2 - ry)
  simp only [Set.mem_Ico] at hcolumns hrows
  constructor
  · rintro ⟨tile, htile, hx, hx', hy, hy'⟩
    simp only [tilesOf, List.mem_flatMap, List.mem_map] at htile
    obtain ⟨y, hymem, x, hxmem, rfl⟩ := htile
    have hylt := mem_steps hstep hymem
    have hxlt := mem_steps hstep hxmem
    dsimp only at hx hx' hy hy'
    refine ⟨by omega, ?_, by omega, ?_⟩
    · split at hx' <;> omega
    · split at hy' <;> omega
  · rintro ⟨hx, hx', hy, hy'⟩
    obtain ⟨dx, hdx, hle, hlt⟩ := hcolumns.mp ⟨Nat.zero_le _, by omega⟩
    obtain ⟨dy, hdy, hle', hlt'⟩ := hrows.mp ⟨Nat.zero_le _, by omega⟩
    refine ⟨(dx, dy, _, _), List.mem_flatMap.mpr ⟨dy, hdy, List.mem_map.mpr ⟨dx, hdx, rfl⟩⟩, ?_⟩
    dsimp only
    exact ⟨by omega, by omega, by omega, by omega⟩

end Colama.Xvnc

import Colama.Vnc4.HextileTest

namespace Colama.Vnc4.Hextile

open Lib
open Xvnc (Bpp Card TileData tileCells tileList hextiles Uniform Subrect)

variable {bpp : Bpp}

theorem countWhile_spec (good : Nat → Prop) [DecidablePred good] (n i : Nat) :
    countWhile good n i ≤ n ∧ ∀ k, i ≤ k → k < i + countWhile good n i → good k := by
  induction n generalizing i with
  | zero => exact ⟨le_rfl, fun k hle hlt => absurd hlt (Nat.not_lt.mpr hle)⟩
  | succ n ih =>
    rw [countWhile]
    split
    · rename_i hi
      obtain ⟨hle, hgood⟩ := ih (i + 1)
      refine ⟨Nat.succ_le_succ hle, fun k hk hlt => ?_⟩
      rcases Nat.eq_or_lt_of_le hk with rfl | hk
      · exact hi
      · exact hgood k hk (by omega)
    · exact ⟨Nat.zero_le _, fun k hle hlt => absurd hlt (Nat.not_lt.mpr hle)⟩

/-- A subrectangle at `x`, `y` inside the tile, of one colour. -/
structure Found (data : TileData bpp) (w h x y sw sh : Nat) : Prop where
  w_pos : 0 < sw
  h_pos : 0 < sh
  w_le : x + sw ≤ w
  h_le : y + sh ≤ h
  uniform : Uniform data x y sw sh (data x y)

theorem findSubrect_found (data : TileData bpp) {w h x y : Nat} (hx : x < w) (hy : y < h) :
    Found data w h x y (findSubrect data w h x y).1 (findSubrect data w h x y).2 := by
  rw [findSubrect]
  obtain ⟨hswle, hsw⟩ := countWhile_spec (fun i => data i y = data x y) (w - x - 1) (x + 1)
  generalize countWhile (fun i => data i y = data x y) (w - x - 1) (x + 1) = right at hswle hsw ⊢
  obtain ⟨hshle, hsh⟩ := countWhile_spec (fun j => ∀ i < right + 1, data (x + i) j = data x y) (h - y - 1) (y + 1)
  dsimp only
  generalize countWhile (fun j => ∀ i < right + 1, data (x + i) j = data x y) (h - y - 1) (y + 1) = down at hshle hsh ⊢
  have hfirst : Found data w h x y (right + 1) (down + 1) := by
    refine ⟨Nat.succ_pos _, Nat.succ_pos _, by omega, by omega, fun i j hi hi' hj hj' => ?_⟩
    rcases Nat.eq_or_lt_of_le hj with rfl | hj
    · rcases Nat.eq_or_lt_of_le hi with rfl | hi
      · rfl
      · exact hsw i hi (by omega)
    · have h := hsh j hj (by omega) (i - x) (by omega)
      rwa [Nat.add_sub_cancel' hi] at h
  obtain ⟨hvhle, hvh⟩ := countWhile_spec (fun j => data x j = data x y) (h - y - (down + 1)) (y + (down + 1))
  generalize countWhile (fun j => data x j = data x y) (h - y - (down + 1)) (y + (down + 1)) = more at hvhle hvh ⊢
  obtain ⟨hvwle, hvw⟩ :=
    countWhile_spec (fun i => ∀ j < down + 1 + more, data i (y + j) = data x y) (right + 1 - 1) (x + 1)
  generalize countWhile (fun i => ∀ j < down + 1 + more, data i (y + j) = data x y) (right + 1 - 1) (x + 1) = wide
    at hvwle hvw ⊢
  split
  · split
    · refine ⟨Nat.succ_pos _, by dsimp only; omega, by dsimp only; omega, by dsimp only; omega, ?_⟩
      intro i j hi hi' hj hj'
      dsimp only at hi' hj'
      rcases Nat.eq_or_lt_of_le hi with rfl | hi
      · by_cases hfar : y + (down + 1) ≤ j
        · exact hvh j hfar (by omega)
        · exact hfirst.uniform x j le_rfl (by omega) hj (by omega)
      · have h := hvw i hi (by omega) (j - y) (by omega)
        rwa [Nat.add_sub_cancel' hj] at h
    · exact hfirst
  · exact hfirst

/-- What is left of a tile below row `y` when the subrectangles have been sent: some of their pixels are background. -/
def Later (data data' : TileData bpp) (bg : Card bpp) (subs : List (Subrect bpp)) (y : Nat) : Prop :=
  ∀ i j, y ≤ j → data' i j = data i j ∨ data' i j = bg ∧ ∃ s ∈ subs, s.Has i j

theorem Later.trans {data data' data'' : TileData bpp} {bg : Card bpp} {subs subs' : List (Subrect bpp)} {y y' : Nat}
    (h : Later data data' bg subs y) (h' : Later data' data'' bg subs' y') (hy : y ≤ y') :
    Later data data'' bg (subs ++ subs') y' := by
  intro i j hj
  rcases h' i j hj with heq | ⟨hbg, s, hs, hhas⟩
  · rw [heq]
    refine (h i j (hy.trans hj)).imp id ?_
    rintro ⟨hbg, s, hs, hhas⟩
    exact ⟨hbg, s, List.mem_append_left _ hs, hhas⟩
  · exact .inr ⟨hbg, s, List.mem_append_right _ hs, hhas⟩

/-- The subrectangles have the colours of the tile, and hold all of the pixels in question that are not background. -/
structure Paints (data : TileData bpp) (w h : Nat) (bg : Card bpp) (y : Nat) (cells : Nat → Nat → Prop)
    (subs : List (Subrect bpp)) : Prop where
  inside : ∀ s ∈ subs, 0 < s.w ∧ 0 < s.h ∧ s.x + s.w ≤ w ∧ y ≤ s.y ∧ s.y + s.h ≤ h
  colour : ∀ s ∈ subs, s.colour ≠ bg ∧ Uniform data s.x s.y s.w s.h s.colour
  all : ∀ i j, cells i j → data i j ≠ bg → ∃ s ∈ subs, s.Has i j

theorem Paints.nil {data : TileData bpp} {w h : Nat} {bg : Card bpp} {y : Nat} {cells : Nat → Nat → Prop}
    (hcells : ∀ i j, cells i j → data i j = bg) : Paints data w h bg y cells [] :=
  ⟨nofun, nofun, fun i j hcell hne => absurd (hcells i j hcell) hne⟩

/-- What paints the rest of a tile paints with what came before the whole of it. -/
theorem Paints.append {data data' : TileData bpp} {w h : Nat} {bg : Card bpp} {y y' : Nat}
    {cells cells' : Nat → Nat → Prop} {subs subs' : List (Subrect bpp)} (hp : Paints data w h bg y cells subs)
    (hp' : Paints data' w h bg y' cells' subs') (hlater : Later data data' bg subs y') (hy : y ≤ y')
    (hrows : ∀ i j, cells' i j → y' ≤ j) : Paints data w h bg y (fun i j => cells i j ∨ cells' i j) (subs ++ subs') := by
  refine ⟨fun s hs => ?_, fun s hs => ?_, fun i j hcell hne => ?_⟩
  · rcases List.mem_append.mp hs with hs | hs
    · exact hp.inside s hs
    · obtain ⟨hw, hh, hx, hsy, hb⟩ := hp'.inside s hs
      exact ⟨hw, hh, hx, hy.trans hsy, hb⟩
  · rcases List.mem_append.mp hs with hs | hs
    · exact hp.colour s hs
    · obtain ⟨hcolour, huniform⟩ := hp'.colour s hs
      have hsy := (hp'.inside s hs).2.2.2.1
      refine ⟨hcolour, fun i j hi hi' hj hj' => ?_⟩
      have hdata' := huniform i j hi hi' hj hj'
      rcases hlater i j (hsy.trans hj) with heq | ⟨hbg, -⟩
      · exact heq.symm.trans hdata'
      · exact absurd (hdata'.symm.trans hbg) hcolour
  · rcases hcell with hcell | hcell
    · obtain ⟨s, hs, hhas⟩ := hp.all i j hcell hne
      exact ⟨s, List.mem_append_left _ hs, hhas⟩
    · rcases hlater i j (hrows i j hcell) with heq | ⟨-, s, hs, hhas⟩
      · obtain ⟨s, hs, hhas⟩ := hp'.all i j hcell (heq ▸ hne)
        exact ⟨s, List.mem_append_right _ hs, hhas⟩
      · exact ⟨s, List.mem_append_left _ hs, hhas⟩

theorem Paints.mono {data : TileData bpp} {w h : Nat} {bg : Card bpp} {y : Nat} {cells cells' : Nat → Nat → Prop}
    {subs : List (Subrect bpp)} (hp : Paints data w h bg y cells subs)
    (hcells : ∀ i j, cells' i j → data i j ≠ bg → cells i j) : Paints data w h bg y cells' subs :=
  ⟨hp.inside, hp.colour, fun i j hcell hne => hp.all i j (hcells i j hcell hne) hne⟩

/-- The count says how many subrectangles there are in what is encoded so far, which is not longer than a raw tile. -/
structure Counted (w h : Nat) (s : TileState bpp) : Prop where
  length_eq : s.encoded.length = s.nSubrects.toNat * (bpp.size + 2)
  length_le : 1 + s.encoded.length ≤ w * h * bpp.size

theorem Counted.lt {w h : Nat} {s : TileState bpp} (hs : Counted w h s) (hwh : w * h ≤ 256) : s.nSubrects.toNat < 255 := by
  obtain ⟨heq, hle⟩ := hs
  rw [heq] at hle
  cases bpp <;> simp only [Bpp.size] at hle <;> omega

/-- What a piece of the encoder adds to a tile: it has sent the subrectangles, each with its colour. -/
structure Sent (w h : Nat) (bg : Card bpp) (s s' : TileState bpp) (y y' : Nat) (cells : Nat → Nat → Prop)
    (subs : List (Subrect bpp)) : Prop where
  encoded : s'.encoded = s.encoded ++ subs.flatMap (Subrect.bytes false)
  paints : Paints s.data w h bg y cells subs
  later : Later s.data s'.data bg subs y'

theorem Sent.nil {w h : Nat} {bg : Card bpp} {s : TileState bpp} {y y' : Nat} {cells : Nat → Nat → Prop}
    (hcells : ∀ i j, cells i j → s.data i j = bg) : Sent w h bg s s y y' cells [] where
  encoded := (List.append_nil _).symm
  paints := Paints.nil hcells
  later _ _ _ := .inl rfl

theorem Sent.trans {w h : Nat} {bg : Card bpp} {s s' s'' : TileState bpp} {y y' y'' : Nat}
    {cells cells' : Nat → Nat → Prop} {subs subs' : List (Subrect bpp)} (hs : Sent w h bg s s' y y' cells subs)
    (hs' : Sent w h bg s' s'' y' y'' cells' subs') (hy : y ≤ y') (hy' : y' ≤ y'') (hrows : ∀ i j, cells' i j → y' ≤ j) :
    Sent w h bg s s'' y y'' (fun i j => cells i j ∨ cells' i j) (subs ++ subs') where
  encoded := by rw [hs'.encoded, hs.encoded, List.flatMap_append, List.append_assoc]
  paints := hs.paints.append hs'.paints hs.later hy hrows
  later := hs.later.trans hs'.later hy'

theorem Sent.mono {w h : Nat} {bg : Card bpp} {s s' : TileState bpp} {y y' y'' : Nat} {cells cells' : Nat → Nat → Prop}
    {subs : List (Subrect bpp)} (hs : Sent w h bg s s' y y' cells subs) (hy : y' ≤ y'')
    (hcells : ∀ i j, cells' i j → s.data i j ≠ bg → cells i j) : Sent w h bg s s' y y'' cells' subs where
  encoded := hs.encoded
  paints := hs.paints.mono hcells
  later i j hj := hs.later i j (hy.trans hj)

theorem eraseBelow_eq (data : TileData bpp) {w h x y sw sh : Nat} (bg : Card bpp) (hx : x + sw ≤ w) (hy : y + sh ≤ h)
    (hwh : w * h ≤ 256) : eraseBelow data w x y sw sh bg =
      some fun i j => if x ≤ i ∧ i < x + sw ∧ y < j ∧ j < y + sh then bg else data i j := by
  rw [eraseBelow, if_pos]
  intro j hj _ i hi
  calc (y + j) * w + (x + i) < (y + j) * w + w := by omega
    _ = (y + j + 1) * w := (Nat.succ_mul _ _).symm
    _ ≤ h * w := Nat.mul_le_mul_right w (by omega)
    _ ≤ encodeBufSize := (Nat.mul_comm h w).le.trans hwh

variable {w h : Nat} {tileType : UInt8}

theorem putInside_spec (hwh : w * h ≤ 256) (bs : List UInt8) (s : TileState bpp) :
    s.putInside w h bs = .error .tooLong ∨ s.putInside w h bs = .ok { s with encoded := s.encoded ++ bs } ∧
      1 + s.encoded.length + bs.length ≤ w * h * bpp.size := by
  rw [TileState.putInside]
  split
  · exact .inl rfl
  · rename_i hroom
    refine .inr ⟨if_pos ?_, by omega⟩
    exact (Nat.le_of_not_gt hroom).trans (Nat.mul_le_mul_right _ hwh)

/-- A subrectangle is sent with its colour unless the tile gets too long. -/
theorem encodeSubrect_spec (hwh : w * h ≤ 256) (hcoloured : tileType &&& hextileSubrectsColoured ≠ 0) (bg : Card bpp)
    {x y : Nat} (hx : x < w) (hy : y < h) {s : TileState bpp} (hs : Counted w h s) (hne : s.data x y ≠ bg) :
    encodeSubrect w h tileType bg x y s = .error .tooLong ∨ ∃ sub s', encodeSubrect w h tileType bg x y s = .ok (sub.w, s') ∧
      Counted w h s' ∧ 0 < sub.w ∧ Sent w h bg s s' y y (fun i j => j = y ∧ x ≤ i ∧ i < x + sub.w) [sub] := by
  have hfound := findSubrect_found s.data hx hy
  have hlt := hs.lt hwh
  have hadd : s.addSubrect = .ok { s with nSubrects := s.nSubrects + 1 } := by
    refine if_neg fun heq => ?_
    rw [heq] at hlt
    exact absurd hlt (by decide)
  rw [encodeSubrect]
  generalize findSubrect s.data w h x y = found at hfound ⊢
  obtain ⟨sw, sh⟩ := found
  dsimp only at hfound ⊢
  rw [hadd]
  dsimp only [bind, Except.bind]
  rw [if_pos hcoloured]
  rcases putInside_spec hwh (s.data x y).bytes { s with nSubrects := s.nSubrects + 1 } with hlong | ⟨hput, -⟩
  · exact .inl (by rw [hlong])
  rw [hput]
  dsimp only
  rcases putInside_spec hwh [UInt8.ofNat (x <<< 4 ||| y), UInt8.ofNat ((sw - 1) <<< 4 ||| (sh - 1))]
    { s with nSubrects := s.nSubrects + 1, encoded := s.encoded ++ (s.data x y).bytes } with hlong | ⟨hput', hroom⟩
  · exact .inl (by rw [hlong])
  rw [hput']
  dsimp only
  rw [eraseBelow_eq s.data bg hfound.w_le hfound.h_le hwh]
  refine .inr ⟨⟨x, y, sw, sh, s.data x y⟩, _, rfl, ⟨?_, ?_⟩, hfound.w_pos, ?_, ⟨?_, ?_, ?_⟩, ?_⟩
  · simp only [List.length_append, Card.length_bytes, List.length_cons, List.length_nil]
    rw [hs.length_eq, UInt8.toNat_add, Nat.mod_eq_of_lt (by simpa using by omega)]
    simp only [UInt8.reduceToNat, Nat.succ_mul]
    omega
  · simpa [Nat.add_assoc] using hroom
  · simp [Subrect.bytes, Xvnc.hextilePackXY, Xvnc.hextilePackWH]
  · rw [List.forall_mem_singleton]
    exact ⟨hfound.w_pos, hfound.h_pos, hfound.w_le, le_rfl, hfound.h_le⟩
  · rw [List.forall_mem_singleton]
    exact ⟨hne, hfound.uniform⟩
  · rintro i j ⟨rfl, hi, hi'⟩ -
    exact ⟨_, List.mem_singleton_self _, hi, hi', le_rfl, Nat.lt_add_of_pos_right hfound.h_pos⟩
  · intro i j hj
    dsimp only
    split
    · rename_i hin
      exact .inr ⟨rfl, _, List.mem_singleton_self _, hin.1, hin.2.1, hin.2.2.1.le, hin.2.2.2⟩
    · exact .inl rfl

/-- The pixels of a row from `x` on. The induction is on the turns that the loop may take. -/
theorem encodeRow_spec (hwh : w * h ≤ 256) (hcoloured : tileType &&& hextileSubrectsColoured ≠ 0) (bg : Card bpp)
    {y : Nat} (hy : y < h) (n : Nat) {x : Nat} (hn : w ≤ x + n) {s : TileState bpp} (hs : Counted w h s) :
    encodeRow w h tileType bg y n x s = .error .tooLong ∨ ∃ subs s', encodeRow w h tileType bg y n x s = .ok s' ∧
      Counted w h s' ∧ Sent w h bg s s' y y (fun i j => j = y ∧ x ≤ i ∧ i < w) subs := by
  induction n generalizing x s with
  | zero => exact .inr ⟨[], s, rfl, hs, Sent.nil fun i j ⟨_, hi, hi'⟩ => by omega⟩
  | succ n ih =>
    rw [encodeRow]
    split
    · rename_i hx
      split
      · rename_i hbg
        refine (ih (x := x + 1) (by omega) hs).imp id ?_
        rintro ⟨subs, s', heq, hs', hsent⟩
        refine ⟨subs, s', heq, hs', hsent.mono le_rfl ?_⟩
        rintro i j ⟨rfl, hi, hi'⟩ hne
        rcases Nat.eq_or_lt_of_le hi with rfl | hi
        · exact absurd hbg hne
        · exact ⟨rfl, hi, hi'⟩
      · rename_i hne
        rcases encodeSubrect_spec hwh hcoloured bg hx hy hs hne with hlong | ⟨sub, s₁, heq, hs₁, hpos, hsent⟩
        · exact .inl (by rw [hlong]; rfl)
        rw [heq]
        refine (ih (x := x + sub.w) (by omega) hs₁).imp id ?_
        rintro ⟨subs, s', heq', hs', hsent'⟩
        refine ⟨[sub] ++ subs, s', heq', hs', (hsent.trans hsent' le_rfl le_rfl fun i j hcell => hcell.1.ge).mono le_rfl ?_⟩
        rintro i j ⟨rfl, hi, hi'⟩ -
        by_cases hfar : i < x + sub.w
        · exact .inl ⟨rfl, hi, hfar⟩
        · exact .inr ⟨rfl, Nat.le_of_not_gt hfar, hi'⟩
    · exact .inr ⟨[], s, rfl, hs, Sent.nil fun i j ⟨_, hi, hi'⟩ => by omega⟩

/-- The rows of a tile from `y` on, of which there are `n`. -/
theorem encodeRows_spec (hwh : w * h ≤ 256) (hcoloured : tileType &&& hextileSubrectsColoured ≠ 0) (bg : Card bpp)
    (n : Nat) {y : Nat} (hy : y + n = h) {s : TileState bpp} (hs : Counted w h s) :
    (List.range' y n).foldlM (fun s y => encodeRow w h tileType bg y w 0 s) s = .error .tooLong ∨
      ∃ subs s', (List.range' y n).foldlM (fun s y => encodeRow w h tileType bg y w 0 s) s = .ok s' ∧ Counted w h s' ∧
        Sent w h bg s s' y h (fun i j => y ≤ j ∧ j < h ∧ i < w) subs := by
  induction n generalizing y s with
  | zero => exact .inr ⟨[], s, rfl, hs, Sent.nil fun i j ⟨hj, hj', _⟩ => by omega⟩
  | succ n ih =>
    rw [List.range'_succ, List.foldlM_cons]
    rcases encodeRow_spec hwh hcoloured bg (y := y) (by omega) w (x := 0) (by omega) hs with
      hlong | ⟨subs, s₁, heq, hs₁, hsent⟩
    · exact .inl (by rw [hlong]; rfl)
    rw [heq]
    refine (ih (y := y + 1) (by omega) hs₁).imp id ?_
    rintro ⟨subs', s', heq', hs', hsent'⟩
    have hrow := hsent.mono (Nat.le_succ y) fun i j hcell _ => hcell
    refine ⟨subs ++ subs', s', heq', hs',
      (hrow.trans hsent' (Nat.le_succ y) (by omega) fun i j hcell => hcell.1).mono le_rfl ?_⟩
    rintro i j ⟨hj, hj', hi⟩ -
    rcases Nat.eq_or_lt_of_le hj with rfl | hj
    · exact .inl ⟨rfl, Nat.zero_le _, hi⟩
    · exact .inr ⟨hj, hj', hi⟩

/-- What `HEXTILE_ENCODE_TILE` makes of a tile that is not too long. -/
theorem encodeTile_spec (data : TileData bpp) (hwh : w * h ≤ 256) (hpos : 0 < w * h)
    (hcoloured : tileType &&& hextileSubrectsColoured ≠ 0) (bg : Card bpp) :
    encodeTile data w h tileType bg = .error .tooLong ∨ ∃ subs,
      encodeTile data w h tileType bg = .ok (UInt8.ofNat subs.length :: subs.flatMap (Subrect.bytes false)) ∧
      subs.length < 256 ∧ Paints data w h bg 0 (fun i j => i < w ∧ j < h) subs := by
  have hstart : Counted w h (⟨data, 0, []⟩ : TileState bpp) := ⟨by simp, Nat.mul_pos hpos bpp.size_pos⟩
  rw [encodeTile, List.range_eq_range']
  rcases encodeRows_spec hwh hcoloured bg h (Nat.zero_add h) hstart with hlong | ⟨subs, s, heq, hs, hsent⟩
  · exact .inl (by rw [hlong]; rfl)
  rw [heq]
  have hencoded : s.encoded = subs.flatMap (Subrect.bytes false) := hsent.encoded
  have hcount : s.nSubrects.toNat = subs.length := by
    have hlen := hs.length_eq
    rw [hencoded, Xvnc.length_flatMap_bytes] at hlen
    exact (Nat.eq_of_mul_eq_mul_right (Nat.succ_pos _) hlen).symm
  refine .inr ⟨subs, ?_, hcount ▸ s.nSubrects.toNat_lt, hsent.paints.mono ?_⟩
  · rw [← hcount, UInt8.ofNat_toNat, ← hencoded]
    rfl
  · rintro i j ⟨hi, hj⟩ -
    exact ⟨Nat.zero_le _, hj, hi⟩

/-- The background with the subrectangles on it gives the tile. -/
theorem Paints.foldl_eq {data : TileData bpp} {bg : Card bpp} {cells : Nat → Nat → Prop} {subs : List (Subrect bpp)}
    (hp : Paints data w h bg 0 cells subs) {i j : Nat} (hcell : cells i j) :
    subs.foldl (fun c s => if s.Has i j then s.colour else c) bg = data i j := by
  apply Xvnc.foldl_paint
  · rintro s hs ⟨hi, hi', hj, hj'⟩
    exact ((hp.colour s hs).2 i j hi hi' hj hj').symm
  · by_cases hbg : data i j = bg
    · exact .inl hbg.symm
    · exact .inr (hp.all i j hcell hbg)

end Colama.Vnc4.Hextile

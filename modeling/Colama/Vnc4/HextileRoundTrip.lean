import Colama.Vnc4.HextileSpec

namespace Colama.Vnc4.Hextile

open Lib
open Xvnc (Bpp Card TileData tileCells tileList hextiles Uniform Subrect)

variable {bpp : Bpp}

theorem fill_eq (pix : Card bpp) {places : List Nat} (hplaces : ∀ k ∈ places, k < imageBufSize) (buf : Nat → Card bpp) :
    fill pix places buf = .ok fun k => if k ∈ places then pix else buf k := by
  induction places generalizing buf with
  | nil => simp [fill]
  | cons i places ih =>
    obtain ⟨hi, hplaces'⟩ := List.forall_mem_cons.mp hplaces
    rw [fill, if_pos hi, ih hplaces']
    congr 1
    funext k
    by_cases hk : k ∈ places
    · rw [if_pos hk, if_pos (List.mem_cons_of_mem _ hk)]
    · rw [if_neg hk, Function.update_apply]
      simp only [List.mem_cons, hk, or_false]

/-- However the subrectangle lies, it ends inside the buffer. -/
theorem rectPlaces_lt {tw x y w h : Nat} (htw : tw ≤ 16) (hx : x ≤ 15) (hy : y ≤ 15) (hw : w ≤ 16) (hh : h ≤ 16) :
    ∀ k ∈ rectPlaces tw x y w h, k < imageBufSize := by
  intro k hk
  simp only [rectPlaces, List.mem_flatMap, List.mem_map, List.mem_range] at hk
  obtain ⟨j, hj, i, hi, rfl⟩ := hk
  have hrow : y * tw ≤ 15 * 16 := Nat.mul_le_mul hy htw
  have hrow' : j * tw ≤ 15 * 16 := Nat.mul_le_mul (by omega) htw
  rw [imageBufSize]
  omega

theorem mem_rectPlaces {tw x y w h i j : Nat} (hi : i < tw) (hx : x + w ≤ tw) :
    j * tw + i ∈ rectPlaces tw x y w h ↔ x ≤ i ∧ i < x + w ∧ y ≤ j ∧ j < y + h := by
  simp only [rectPlaces, List.mem_flatMap, List.mem_map, List.mem_range]
  constructor
  · rintro ⟨j', hj', i', hi', heq⟩
    have hin : x + i' < tw := by omega
    have hsplit : (x + i') + tw * (y + j') = i + tw * j := by
      rw [Nat.mul_add, Nat.mul_comm tw y, Nat.mul_comm tw j', Nat.mul_comm tw j]
      omega
    have hcolumn := congrArg (· % tw) hsplit
    have hrow := congrArg (· / tw) hsplit
    simp only [Nat.add_mul_mod_self_left, Nat.mod_eq_of_lt hin, Nat.mod_eq_of_lt hi] at hcolumn
    simp only [Nat.add_mul_div_left _ _ (Nat.zero_lt_of_lt hi), Nat.div_eq_of_lt hin, Nat.div_eq_of_lt hi] at hrow
    omega
  · rintro ⟨hxi, hix, hyj, hjy⟩
    refine ⟨j - y, by omega, i - x, by omega, ?_⟩
    have hrow : y * tw + (j - y) * tw = j * tw := by rw [← Nat.add_mul, Nat.add_sub_cancel' hyj]
    omega

theorem readPixel_bytes (pix : Card bpp) (rest : List UInt8) : readPixel (pix.bytes ++ rest) = .ok (pix, rest) := by
  rw [readPixel, readBytes_append pix.length_bytes]
  dsimp only
  rw [Card.ofBytes_bytes]

theorem pack_extract : ∀ a < 16, ∀ b < 16,
    ((Xvnc.hextilePackXY a b).toNat >>> 4) &&& 15 = a ∧ (Xvnc.hextilePackXY a b).toNat &&& 15 = b ∧
      ((Xvnc.hextilePackWH (a + 1) (b + 1)).toNat >>> 4) &&& 15 = a ∧
      (Xvnc.hextilePackWH (a + 1) (b + 1)).toNat &&& 15 = b := by
  decide

theorem readColour_bytes {specified : Bool} {colour pix : Card bpp} (h : specified = false → colour = pix)
    (rest : List UInt8) :
    readColour specified colour ((if specified then pix.bytes else []) ++ rest) = .ok (pix, rest) := by
  cases specified with
  | true => exact readPixel_bytes pix rest
  | false =>
    rw [h rfl]
    rfl

section

variable {tileType : UInt8} {tw : Nat}

theorem decodeSubrects_cons (hcoloured : tileType &&& hextileSubrectsColoured ≠ 0) (htw : tw ≤ 16) {s : Subrect bpp}
    (hw : 0 < s.w) (hh : 0 < s.h) (hx : s.x + s.w ≤ tw) (hy : s.y + s.h ≤ 16) (n : Nat) (bg fg : Card bpp)
    (buf : Nat → Card bpp) (rest : List UInt8) :
    decodeSubrects tileType tw (n + 1) ⟨s.bytes false ++ rest, bg, fg, buf⟩ =
      decodeSubrects tileType tw n ⟨rest, bg, s.colour,
        fun k => if k ∈ rectPlaces tw s.x s.y s.w s.h then s.colour else buf k⟩ := by
  obtain ⟨hxy₁, hxy₂, -, -⟩ := pack_extract s.x (by omega) s.y (by omega)
  obtain ⟨-, -, hwh₁, hwh₂⟩ := pack_extract (s.w - 1) (by omega) (s.h - 1) (by omega)
  rw [Nat.sub_add_cancel hw, Nat.sub_add_cancel hh] at hwh₁ hwh₂
  have hplaces := rectPlaces_lt (y := s.y) htw (show s.x ≤ 15 by omega) (by omega) (show s.w ≤ 16 by omega)
    (show s.h ≤ 16 by omega)
  have hread : ∀ is, readColour true fg (s.colour.bytes ++ is) = .ok (s.colour, is) := readPixel_bytes s.colour
  rw [decodeSubrects, Subrect.bytes, if_neg Bool.false_ne_true, List.append_assoc, decide_eq_true hcoloured, hread]
  simp only [bind, Except.bind, List.cons_append, List.nil_append, readU8, hxy₁, hxy₂, hwh₁, hwh₂,
    Nat.sub_add_cancel hw, Nat.sub_add_cancel hh, fill_eq _ hplaces]

/-- The subrectangles of a tile are painted in their order on what is in the buffer. -/
theorem decodeSubrects_bytes (hcoloured : tileType &&& hextileSubrectsColoured ≠ 0) (htw : tw ≤ 16)
    {subs : List (Subrect bpp)} (hsubs : ∀ s ∈ subs, 0 < s.w ∧ 0 < s.h ∧ s.x + s.w ≤ tw ∧ s.y + s.h ≤ 16)
    (bg fg : Card bpp) (buf : Nat → Card bpp) (rest : List UInt8) :
    ∃ fg' buf', decodeSubrects tileType tw subs.length ⟨subs.flatMap (Subrect.bytes false) ++ rest, bg, fg, buf⟩ =
        .ok ⟨rest, bg, fg', buf'⟩ ∧
      ∀ i j, i < tw → buf' (j * tw + i) =
        subs.foldl (fun c s => if s.Has i j then s.colour else c) (buf (j * tw + i)) := by
  induction subs generalizing fg buf with
  | nil => exact ⟨fg, buf, rfl, fun _ _ _ => rfl⟩
  | cons s subs ih =>
    obtain ⟨⟨hw, hh, hx, hy⟩, hsubs'⟩ := List.forall_mem_cons.mp hsubs
    obtain ⟨fg', buf', heq, hbuf⟩ := ih hsubs' s.colour
      fun k => if k ∈ rectPlaces tw s.x s.y s.w s.h then s.colour else buf k
    refine ⟨fg', buf', ?_, fun i j hi => ?_⟩
    · rw [List.length_cons, List.flatMap_cons, List.append_assoc, decodeSubrects_cons hcoloured htw hw hh hx hy]
      exact heq
    · rw [hbuf i j hi, List.foldl_cons]
      simp only [mem_rectPlaces hi hx, Subrect.Has]

end

/-- The bytes of a raw tile are put to the buffer in their order. -/
theorem readRaw_bytes {pixels : List (Card bpp)} {i : Nat} (hi : i + pixels.length ≤ imageBufSize) (rest : List UInt8)
    (buf : Nat → Card bpp) : ∃ buf', readRaw pixels.length i (pixels.flatMap Card.bytes ++ rest) buf = .ok (buf', rest) ∧
      (∀ k < i, buf' k = buf k) ∧ ∀ k pix, pixels[k]? = some pix → buf' (i + k) = pix := by
  induction pixels generalizing i buf with
  | nil => exact ⟨buf, rfl, fun _ _ => rfl, nofun⟩
  | cons pix pixels ih =>
    rw [List.length_cons] at hi
    obtain ⟨buf', heq, hbefore, hbehind⟩ := ih (i := i + 1) (by omega) fun k => if k ∈ [i] then pix else buf k
    refine ⟨buf', ?_, fun k hk => ?_, fun k pix' hpix => ?_⟩
    · rw [List.length_cons, readRaw, List.flatMap_cons, List.append_assoc, readPixel_bytes]
      dsimp only [bind, Except.bind]
      rw [fill_eq pix (by simpa using by omega)]
      exact heq
    · rw [hbefore k (Nat.lt_succ_of_lt hk), if_neg (by simpa using hk.ne)]
    · cases k with
      | zero =>
        cases hpix
        rw [Nat.add_zero, hbefore i (Nat.lt_succ_self i), if_pos (List.mem_singleton_self i)]
      | succ k =>
        rw [← Nat.succ_add_eq_add_succ]
        exact hbehind k pix' hpix

/-- The type of a tile that is not raw. -/
def tileTypeOf (newBg solid : Bool) : UInt8 :=
  (if solid then 0 else hextileAnySubrects ||| hextileSubrectsColoured) ||| if newBg then hextileBgSpecified else 0

theorem tileTypeOf_spec : ∀ newBg solid, tileTypeOf newBg solid &&& hextileRaw = 0 ∧
    (tileTypeOf newBg solid &&& hextileBgSpecified ≠ 0 ↔ newBg = true) ∧
    tileTypeOf newBg solid &&& hextileFgSpecified = 0 ∧
    (tileTypeOf newBg solid &&& hextileAnySubrects = 0 ↔ solid = true) ∧
    (tileTypeOf newBg solid &&& hextileSubrectsColoured ≠ 0 ↔ solid = false) := by
  decide

section

variable {w h : Nat}

/-- The type of a tile that is not raw, and the background if that is new. -/
theorem decodeTile_head (hwh : w * h ≤ 256) {newBg : Bool} (solid : Bool) {d : Decoding bpp} {bg : Card bpp}
    (hbg : newBg = false → d.bg = bg) (rest : List UInt8) :
    decodeTile w h { d with is := tileTypeOf newBg solid :: (if newBg then bg.bytes else []) ++ rest } =
      if solid then .ok ⟨rest, bg, d.fg, fun k => if k ∈ List.range (w * h) then bg else d.buf k⟩
      else readU8 rest >>= fun (nSubrects, is) => decodeSubrects (tileTypeOf newBg solid) w nSubrects.toNat
        ⟨is, bg, d.fg, fun k => if k ∈ List.range (w * h) then bg else d.buf k⟩ := by
  obtain ⟨hraw, hnew, hfg, hany, -⟩ := tileTypeOf_spec newBg solid
  have hdecide : decide (tileTypeOf newBg solid &&& hextileBgSpecified ≠ 0) = newBg := by
    rw [Bool.eq_iff_iff, decide_eq_true_eq]
    exact hnew
  have hdecide' : decide (tileTypeOf newBg solid &&& hextileFgSpecified ≠ 0) = false := decide_eq_false (not_not.mpr hfg)
  rw [decodeTile, List.cons_append, readU8]
  dsimp only [bind, Except.bind]
  rw [if_neg (not_not.mpr hraw), hdecide, readColour_bytes hbg]
  dsimp only
  rw [fill_eq bg (by simpa using fun k hk => hk.trans_le (hwh.trans (by decide))), hdecide']
  dsimp only [readColour]
  simp only [hany]
  rfl

/-- What the decoder knows of the colours: the background if the encoder counts on it. -/
def Agrees (c : Colours bpp) (bg : Card bpp) : Prop := c.oldBgValid = true → bg = c.oldBg

/-- What the bytes of a tile are decoded to. -/
def TileDecodes (data : TileData bpp) (w h : Nat) (c c' : Colours bpp) (bytes : List UInt8) : Prop :=
  ∀ (d : Decoding bpp) (rest : List UInt8), Agrees c d.bg → ∃ d',
    decodeTile w h { d with is := bytes ++ rest } = .ok d' ∧ d'.is = rest ∧ Agrees c' d'.bg ∧
      ∀ i j, i < w → j < h → d'.buf (j * w + i) = data i j

theorem cell_lt {i j : Nat} (hi : i < w) (hj : j < h) : j * w + i < w * h :=
  calc j * w + i < j * w + w := Nat.add_lt_add_left hi _
    _ = (j + 1) * w := (Nat.succ_mul j w).symm
    _ ≤ h * w := Nat.mul_le_mul_right w hj
    _ = w * h := Nat.mul_comm h w

theorem raw_decodes (data : TileData bpp) (hwh : w * h ≤ 256) (c c' : Colours bpp) (hc : c'.oldBgValid = false) :
    TileDecodes data w h c c' (hextileRaw :: (tileList data w h).flatMap Card.bytes) := by
  intro d rest _
  have hlen : (tileList data w h).length = w * h := by rw [tileList, List.length_map, Xvnc.length_tileCells]
  have hroom : 0 + (tileList data w h).length ≤ imageBufSize := by
    rw [hlen, Nat.zero_add]
    exact hwh.trans (by decide)
  obtain ⟨buf, heq, -, hbuf⟩ := readRaw_bytes hroom rest d.buf
  rw [hlen] at heq
  refine ⟨{ d with is := rest, buf }, ?_, rfl, fun hvalid => absurd (hc.symm.trans hvalid) Bool.false_ne_true, ?_⟩
  · rw [decodeTile, List.cons_append, readU8]
    dsimp only [bind, Except.bind]
    rw [if_pos (by decide), heq]
    rfl
  · intro i j hi hj
    have hcell := hbuf (j * w + i) (data i j) (Xvnc.tileList_getElem? data hi hj)
    rwa [Nat.zero_add] at hcell

theorem solid_decodes {data : TileData bpp} {bg : Card bpp} (hwh : w * h ≤ 256)
    (hsolid : ∀ pix ∈ tileList data w h, pix = bg) {c c' : Colours bpp} {newBg : Bool}
    (hold : ∀ bg', Agrees c bg' → newBg = false → bg' = bg) (hc : c'.oldBg = bg) :
    TileDecodes data w h c c' (tileTypeOf newBg true :: if newBg then bg.bytes else []) := by
  intro d rest hagrees
  refine ⟨_, decodeTile_head hwh true (hold d.bg hagrees) rest, rfl, fun _ => hc.symm, fun i j hi hj => ?_⟩
  dsimp only
  rw [if_pos (List.mem_range.mpr (cell_lt hi hj))]
  exact (hsolid _ (List.mem_map.mpr ⟨(i, j), Xvnc.mem_tileCells.mpr ⟨hi, hj⟩, rfl⟩)).symm

theorem subrects_decode {data : TileData bpp} {bg : Card bpp} (hw : w ≤ 16) (hh : h ≤ 16) {subs : List (Subrect bpp)}
    (hlen : subs.length < 256) (hpaints : Paints data w h bg 0 (fun i j => i < w ∧ j < h) subs) {c c' : Colours bpp}
    {newBg : Bool} (hold : ∀ bg', Agrees c bg' → newBg = false → bg' = bg) (hc : c'.oldBg = bg) :
    TileDecodes data w h c c' ((tileTypeOf newBg false :: if newBg then bg.bytes else []) ++
      UInt8.ofNat subs.length :: subs.flatMap (Subrect.bytes false)) := by
  intro d rest hagrees
  have hwh : w * h ≤ 256 := Nat.mul_le_mul hw hh
  obtain ⟨-, -, -, -, hcoloured⟩ := tileTypeOf_spec newBg false
  have hsubs : ∀ s ∈ subs, 0 < s.w ∧ 0 < s.h ∧ s.x + s.w ≤ w ∧ s.y + s.h ≤ 16 := by
    intro s hs
    obtain ⟨hsw, hsh, hsx, -, hsy⟩ := hpaints.inside s hs
    exact ⟨hsw, hsh, hsx, hsy.trans hh⟩
  obtain ⟨fg, buf, heq, hbuf⟩ := decodeSubrects_bytes (hcoloured.mpr rfl) hw hsubs bg d.fg
    (fun k => if k ∈ List.range (w * h) then bg else d.buf k) rest
  refine ⟨⟨rest, bg, fg, buf⟩, ?_, rfl, fun _ => hc.symm, fun i j hi hj => ?_⟩
  · rw [List.append_assoc, decodeTile_head hwh false (hold d.bg hagrees), if_neg Bool.false_ne_true, List.cons_append, readU8]
    dsimp only [bind, Except.bind]
    rw [UInt8.toNat_ofNat_of_lt' hlen]
    exact heq
  · dsimp only
    rw [hbuf i j hi, if_pos (List.mem_range.mpr (cell_lt hi hj))]
    exact hpaints.foldl_eq ⟨hi, hj⟩

theorem tileTypeOf_eq (newBg solid : Bool) {tileType : UInt8}
    (htype : tileType = if solid then 0 else hextileAnySubrects ||| hextileSubrectsColoured) :
    (if newBg then tileType ||| hextileBgSpecified else tileType) = tileTypeOf newBg solid := by
  subst htype
  cases newBg <;> cases solid <;> rfl

/-- A tile is encoded without a write past a buffer, and what is sent for it is decoded to it. -/
theorem encodeOne_spec (data : TileData bpp) (hw : 0 < w ∧ w ≤ 16) (hh : 0 < h ∧ h ≤ 16) (c : Colours bpp) :
    ∃ c' bytes, encodeOne data w h c = some (c', bytes) ∧ TileDecodes data w h c c' bytes := by
  have hwh : w * h ≤ encodeBufSize := Nat.mul_le_mul hw.2 hh.2
  obtain ⟨solid, hsolid⟩ : ∃ solid : Bool, solid = decide (∀ p ∈ tileList data w h, p = (tileList data w h).headD 0) :=
    ⟨_, rfl⟩
  have htype : (testTileType (tileList data w h)).tileType =
      if solid then 0 else hextileAnySubrects ||| hextileSubrectsColoured := by
    rw [hsolid]
    simp only [decide_eq_true_eq]
    exact testTileType_tileType (tileList data w h)
  have hbg := testTileType_bg (tileList data w h)
  rw [← hbg] at hsolid
  rw [encodeOne, if_neg (Nat.not_lt.mpr hwh)]
  generalize testTileType (tileList data w h) = t at htype hsolid ⊢
  dsimp only
  obtain ⟨newBg, hnewBg⟩ : ∃ newBg : Bool, (!c.oldBgValid || decide (c.oldBg ≠ t.bg)) = newBg := ⟨_, rfl⟩
  rw [hnewBg, tileTypeOf_eq newBg solid htype]
  have hold : ∀ bg', Agrees c bg' → newBg = false → bg' = t.bg := by
    rintro bg' hagrees rfl
    obtain ⟨hvalid, heq⟩ := Bool.or_eq_false_iff.mp hnewBg
    exact (hagrees (by simpa using hvalid)).trans (by simpa using heq)
  obtain ⟨c₁, hc₁, hc₁bg⟩ : ∃ c₁ : Colours bpp,
      (if newBg = true then { c with oldBg := t.bg, oldBgValid := true } else c) = c₁ ∧ c₁.oldBg = t.bg := by
    refine ⟨_, rfl, ?_⟩
    cases newBg with
    | true => rfl
    | false => simpa using (Bool.or_eq_false_iff.mp hnewBg).2
  obtain ⟨-, hnew, hfg, hany, hcoloured⟩ := tileTypeOf_spec newBg solid
  rw [hc₁]
  simp only [hnew, hany]
  cases solid with
  | true =>
    rw [if_pos rfl]
    refine ⟨_, _, rfl, solid_decodes hwh (fun pix hpix => ?_) hold hc₁bg⟩
    exact of_decide_eq_true hsolid.symm pix hpix
  | false =>
    have hcoloured' := hcoloured.mpr rfl
    rw [if_neg Bool.false_ne_true, decide_eq_true hcoloured']
    simp only [Bool.not_true, Bool.false_and, Bool.false_eq_true, if_false, if_true, hfg, ne_eq, not_true_eq_false]
    rcases encodeTile_spec data hwh (Nat.mul_pos hw.1 hh.1) hcoloured' t.bg with hlong | ⟨subs, heq, hlen, hpaints⟩
    · rw [hlong]
      exact ⟨_, _, rfl, raw_decodes data hwh c _ rfl⟩
    · rw [heq, List.append_nil]
      exact ⟨_, _, rfl, subrects_decode hw.2 hh.2 hlen hpaints hold hc₁bg⟩

/-- The tiles of a rectangle, of which the first finds the colours as the encoder has them. -/
theorem tiles_decode (picture : Nat → Nat → Card bpp) (rx ry : Nat) {tiles : List (Nat × Nat × Nat × Nat)}
    (hsize : ∀ tile ∈ tiles, (0 < tile.2.2.1 ∧ tile.2.2.1 ≤ 16) ∧ 0 < tile.2.2.2 ∧ tile.2.2.2 ≤ 16)
    (c : Colours bpp) (os : List UInt8) :
    ∃ c' bytes, tiles.foldlM (fun (c, os) (x, y, w, h) => do
        let (c, bytes) ← encodeOne (fun i j => picture (rx + x + i) (ry + y + j)) w h c
        some (c, os ++ bytes)) (c, os) = some (c', os ++ bytes) ∧
      ∀ (screen : Nat × Nat → Card bpp) (d : Decoding bpp) (rest : List UInt8), Agrees c d.bg → ∃ d',
        tiles.foldlM (fun (screen, d) (x, y, w, h) => do
            let d ← decodeTile w h d
            return (imageRect screen (rx + x) (ry + y) w h d.buf, d)) (screen, { d with is := bytes ++ rest }) =
          .ok (Xvnc.tilesShown id picture rx ry tiles screen, d') ∧ d'.is = rest := by
  induction tiles generalizing c os with
  | nil => exact ⟨c, [], by rw [List.append_nil]; rfl, fun screen d rest _ => ⟨_, rfl, rfl⟩⟩
  | cons tile tiles ih =>
    obtain ⟨x, y, w, h⟩ := tile
    obtain ⟨⟨hw, hh⟩, hsize'⟩ := List.forall_mem_cons.mp hsize
    dsimp only at hw hh
    obtain ⟨c₁, tile, hencode, hdecodes⟩ := encodeOne_spec (fun i j => picture (rx + x + i) (ry + y + j)) hw hh c
    obtain ⟨c₂, bytes, hencode', hdecodes'⟩ := ih hsize' c₁ (os ++ tile)
    refine ⟨c₂, tile ++ bytes, ?_, fun screen d rest hagrees => ?_⟩
    · rw [List.foldlM_cons]
      dsimp only
      rw [hencode, ← List.append_assoc]
      exact hencode'
    · obtain ⟨d₁, hdecode, his, hagrees₁, hbuf⟩ := hdecodes d (bytes ++ rest) hagrees
      obtain ⟨d₂, hdecode', his'⟩ := hdecodes' (imageRect screen (rx + x) (ry + y) w h d₁.buf) d₁ rest hagrees₁
      have hshown : imageRect screen (rx + x) (ry + y) w h d₁.buf =
          Xvnc.tileShown id (fun i j => picture (rx + x + i) (ry + y + j)) (rx + x) (ry + y) w h screen := by
        funext p
        rw [imageRect, Xvnc.tileShown]
        refine if_ctx_congr Iff.rfl (fun hp => ?_) fun _ => rfl
        obtain ⟨hx, hx', hy, hy'⟩ := hp
        exact hbuf (p.1 - (rx + x)) (p.2 - (ry + y)) (by omega) (by omega)
      refine ⟨d₂, ?_, his'⟩
      rw [List.foldlM_cons, List.append_assoc]
      dsimp only
      rw [hdecode]
      rw [← his] at hdecode'
      refine hdecode'.trans ?_
      rw [hshown]
      rfl

section

variable {α β : Type}

theorem bind_ne_overrun {x : Except DecodeError α} {f : α → Except DecodeError β} (hx : x ≠ .error .overrun)
    (hf : ∀ a, f a ≠ .error .overrun) : (x >>= f) ≠ .error .overrun := by
  cases x with
  | error e => exact fun h => hx (congrArg Except.error (Except.error.inj h))
  | ok a => exact hf a

end

theorem readColour_ne_overrun (specified : Bool) (colour : Card bpp) (is : List UInt8) :
    readColour specified colour is ≠ .error .overrun := by
  rw [readColour, readPixel]
  split
  · split <;> nofun
  · nofun

theorem readU8_ne_overrun (is : List UInt8) : readU8 is ≠ .error .overrun := by
  cases is <;> nofun

theorem fill_ne_overrun (pix : Card bpp) {places : List Nat} (hplaces : ∀ k ∈ places, k < imageBufSize)
    (buf : Nat → Card bpp) : fill pix places buf ≠ .error .overrun := by
  rw [fill_eq pix hplaces]
  nofun

theorem readRaw_ne_overrun {n i : Nat} (hi : i + n ≤ imageBufSize) (is : List UInt8) (buf : Nat → Card bpp) :
    readRaw n i is buf ≠ .error .overrun := by
  induction n generalizing i is buf with
  | zero => nofun
  | succ n ih =>
    rw [readRaw]
    refine bind_ne_overrun (readColour_ne_overrun true 0 is) fun (pix, is) => ?_
    refine bind_ne_overrun (fill_ne_overrun pix (by simpa using by omega) buf) fun buf => ?_
    exact ih (by omega) is buf

theorem decodeSubrects_ne_overrun (tileType : UInt8) {tw : Nat} (htw : tw ≤ 16) (n : Nat) (d : Decoding bpp) :
    decodeSubrects tileType tw n d ≠ .error .overrun := by
  induction n generalizing d with
  | zero => nofun
  | succ n ih =>
    rw [decodeSubrects]
    refine bind_ne_overrun (readColour_ne_overrun _ _ _) fun (fg, is) => ?_
    refine bind_ne_overrun (readU8_ne_overrun is) fun (xy, is) => ?_
    refine bind_ne_overrun (readU8_ne_overrun is) fun (wh, is) => ?_
    refine bind_ne_overrun (fill_ne_overrun fg ?_ d.buf) fun buf => ih _
    exact rectPlaces_lt htw Nat.and_le_right Nat.and_le_right (Nat.succ_le_succ Nat.and_le_right)
      (Nat.succ_le_succ Nat.and_le_right)

/-- Whatever is in the stream, a tile is written inside the buffer. -/
theorem decodeTile_ne_overrun {w h : Nat} (hw : w ≤ 16) (hh : h ≤ 16) (d : Decoding bpp) :
    decodeTile w h d ≠ .error .overrun := by
  have hwh : w * h ≤ imageBufSize := (Nat.mul_le_mul hw hh).trans (by decide)
  have harea : ∀ k ∈ List.range (w * h), k < imageBufSize := fun k hk => (List.mem_range.mp hk).trans_le hwh
  rw [decodeTile]
  refine bind_ne_overrun (readU8_ne_overrun d.is) fun (tileType, is) => ?_
  dsimp only
  split
  · refine bind_ne_overrun (readRaw_ne_overrun ((Nat.zero_add _).le.trans hwh) is d.buf) fun (buf, is) => ?_
    nofun
  · refine bind_ne_overrun (readColour_ne_overrun _ _ _) fun (bg, is) => ?_
    refine bind_ne_overrun (fill_ne_overrun bg harea d.buf) fun buf => ?_
    refine bind_ne_overrun (readColour_ne_overrun _ _ _) fun (fg, is) => ?_
    dsimp only
    split
    · nofun
    · exact bind_ne_overrun (readU8_ne_overrun is) fun (nSubrects, is) => decodeSubrects_ne_overrun tileType hw _ _

theorem decode_ne_overrun (rx ry rw rh : Nat) (screen : Nat × Nat → Card bpp) (buf : Nat → Card bpp) (is : List UInt8) :
    decode rx ry rw rh screen buf is ≠ .error .overrun := by
  have htiles : ∀ tiles : List (Nat × Nat × Nat × Nat), (∀ tile ∈ tiles, tile.2.2.1 ≤ 16 ∧ tile.2.2.2 ≤ 16) →
      ∀ start : (Nat × Nat → Card bpp) × Decoding bpp, tiles.foldlM (fun (screen, d) (x, y, w, h) => do
        let d ← decodeTile w h d
        return (imageRect screen (rx + x) (ry + y) w h d.buf, d)) start ≠ .error .overrun := by
    intro tiles hsize
    induction tiles with
    | nil => exact fun _ => nofun
    | cons tile tiles ih =>
      obtain ⟨⟨hw, hh⟩, hsize'⟩ := List.forall_mem_cons.mp hsize
      intro start
      rw [List.foldlM_cons]
      refine bind_ne_overrun ?_ (ih hsize')
      exact bind_ne_overrun (decodeTile_ne_overrun hw hh start.2) fun d => nofun
  refine bind_ne_overrun (htiles _ (fun tile htile => ?_) _) fun _ => nofun
  obtain ⟨hw, hh⟩ := Xvnc.tilesOf_size (by decide) htile
  exact ⟨hw.2, hh.2⟩

/-- Whatever the pixels are, no buffer of the encoder is written past its end, no count of subrectangles wraps, and
`HEXTILE_DECODE` makes the pixels of just its bytes. Whatever the stream is, the buffer of the decoder is not written past
its end. -/
theorem hextileDecode_hextileEncode (picture : Nat → Nat → Card bpp) (rx ry rw rh : Nat) :
    (∃ bytes, encode picture rx ry rw rh = some bytes ∧
      ∀ (screen : Nat × Nat → Card bpp) (buf : Nat → Card bpp) (rest : List UInt8), ∃ screen',
        decode rx ry rw rh screen buf (bytes ++ rest) = .ok (screen', rest) ∧
        ∀ p, screen' p = if rx ≤ p.1 ∧ p.1 < rx + rw ∧ ry ≤ p.2 ∧ p.2 < ry + rh then picture p.1 p.2 else screen p) ∧
    ∀ (screen : Nat × Nat → Card bpp) (buf : Nat → Card bpp) (is : List UInt8),
      decode rx ry rw rh screen buf is ≠ .error .overrun := by
  refine ⟨?_, decode_ne_overrun rx ry rw rh⟩
  obtain ⟨c', bytes, hencode, hdecodes⟩ :=
    tiles_decode picture rx ry (fun tile (htile : tile ∈ hextiles rw rh) => Xvnc.tilesOf_size (by decide) htile)
      ⟨0, 0, false, false⟩ []
  refine ⟨bytes, ?_, fun screen buf rest => ?_⟩
  · rw [encode, hencode]
    rfl
  · obtain ⟨d, hdecode, his⟩ := hdecodes screen ⟨[], 0, 0, buf⟩ rest nofun
    refine ⟨Xvnc.tilesShown id picture rx ry (hextiles rw rh) screen, ?_, fun p => ?_⟩
    · rw [decode, hdecode, ← his]
      rfl
    · rw [Xvnc.tilesShown_eq]
      simp only [hextiles, Xvnc.tilesOf_cover (show 0 < 16 by decide), id]

end

end Colama.Vnc4.Hextile

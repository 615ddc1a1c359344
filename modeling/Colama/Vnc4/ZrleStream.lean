import Colama.Vnc4.ZrleSpec

namespace Colama.Vnc4.Zrle

open Lib
open Xvnc (Bpp Card steps tilesOf tileList tilesShown)

variable {bpp : Bpp} {cp : CPixel} {σ τ : Type}

/-- Two zlib streams, of which `Sync` says that the second has taken in all that the first gave. -/
structure Zlib.Delivers (zlib : Zlib σ τ) (Sync : σ → τ → Prop) : Prop where
  nil : ∀ zis, zlib.inflate zis [] = ([], zis)
  append : ∀ zis a b, zlib.inflate zis (a ++ b) =
    ((zlib.inflate zis a).1 ++ (zlib.inflate (zlib.inflate zis a).2 b).1, (zlib.inflate (zlib.inflate zis a).2 b).2)
  delivers : ∀ zos zis bytes, Sync zos zis → (zlib.inflate zis (zlib.deflate zos bytes).1).1 = bytes ∧
    Sync (zlib.deflate zos bytes).2 (zlib.inflate zis (zlib.deflate zos bytes).1).2
  length_le : ∀ zos bytes, (zlib.deflate zos bytes).1.length ≤ 2 * bytes.length + 64

def tileSize (n d : Nat) : Nat := if d + 64 < n then 64 else n - d

theorem tileSize_pos {n d : Nat} (h : d < n) : 0 < tileSize n d ∧ tileSize n d ≤ 64 := by
  rw [tileSize]
  split <;> omega

/-- The tiles of a line. -/
def lineTiles (r : Rect) (dy : Nat) (dxs : List Nat) : List (Nat × Nat × Nat × Nat) :=
  dxs.map fun dx => (dx, dy, tileSize r.w dx, tileSize r.h dy)

/-- Some bytes are decoded to some tiles of an image. -/
def DecodesTo (cp : CPixel) (image : Nat → Nat → Card bpp) (r : Rect) (bytes : List UInt8)
    (tiles : List (Nat × Nat × Nat × Nat)) : Prop :=
  ∀ (window : Nat × Nat → Card bpp) (rest : List UInt8),
    tiles.foldlM (showTile cp r) (window, bytes ++ rest) =
    some (tilesShown cp.kept image r.x r.y tiles window, rest)

theorem DecodesTo.append {image : Nat → Nat → Card bpp} {r : Rect} {bytes bytes' : List UInt8}
    {tiles tiles' : List (Nat × Nat × Nat × Nat)} (h : DecodesTo cp image r bytes tiles)
    (h' : DecodesTo cp image r bytes' tiles') : DecodesTo cp image r (bytes ++ bytes') (tiles ++ tiles') := by
  intro window rest
  rw [List.foldlM_append, List.append_assoc, h window]
  dsimp only [Option.bind_eq_bind, Option.bind_some]
  rw [h' _ rest, tilesShown, tilesShown, tilesShown, List.foldl_append]

theorem imageRect_shown (cp : CPixel) (data : Nat → Nat → Card bpp) (x y w h : Nat) (window : Nat × Nat → Card bpp) :
    imageRect ((tileList data w h).map cp.kept) x y w h window = Xvnc.tileShown cp.kept data x y w h window := by
  funext p
  rw [imageRect, Xvnc.tileShown]
  split
  · rename_i hp
    rw [List.getD_eq_getElem?_getD, List.getElem?_map, Xvnc.tileList_getElem? data (by omega) (by omega)]
    rfl
  · rfl

theorem tile_decodes (hcp : cp.Suits bpp) (image : Nat → Nat → Card bpp) (r : Rect) (dx dy : Nat) {w h : Nat}
    (hw : 0 < w ∧ w ≤ 64) (hh : 0 < h ∧ h ≤ 64) :
    ∃ bytes, zrleEncodeTile cp (tileList (fun i j => image (r.x + dx + i) (r.y + dy + j)) w h) w h = some bytes ∧
      bytes.length ≤ 32768 ∧ DecodesTo cp image r bytes [(dx, dy, w, h)] := by
  have hlen : (tileList (fun i j => image (r.x + dx + i) (r.y + dy + j)) w h).length = w * h := by
    rw [tileList, List.length_map, Xvnc.length_tileCells]
  obtain ⟨bytes, hencode, hle, hdecode⟩ := zrleEncodeTile_spec hcp hw hh hlen
  refine ⟨bytes, hencode, hle, fun window rest => ?_⟩
  rw [List.foldlM_cons, showTile]
  dsimp only
  rw [hdecode rest]
  dsimp only [Option.bind_eq_bind, Option.bind_some]
  rw [imageRect_shown]
  rfl

theorem encodeLine_spec (hcp : cp.Suits bpp) (image : Nat → Nat → Card bpp) (r : Rect) {dy : Nat} (hdy : dy < r.h)
    {dxs : List Nat} (hdxs : ∀ dx ∈ dxs, dx < r.w) :
    ∃ bytes, encodeLine cp image r dy dxs = some bytes ∧ bytes.length ≤ 32768 * dxs.length ∧
      DecodesTo cp image r bytes (lineTiles r dy dxs) := by
  induction dxs with
  | nil => exact ⟨[], rfl, le_rfl, fun window rest => rfl⟩
  | cons dx dxs ih =>
    obtain ⟨hdx, hdxs'⟩ := List.forall_mem_cons.mp hdxs
    obtain ⟨tile, hencode, hle, hdecode⟩ := tile_decodes hcp image r dx dy (tileSize_pos hdx) (tileSize_pos hdy)
    obtain ⟨rest, hencode', hle', hdecode'⟩ := ih hdxs'
    rw [encodeLine]
    dsimp only [Option.bind_eq_bind]
    rw [← tileSize, ← tileSize, hencode, Option.bind_some, hencode']
    refine ⟨tile ++ rest, rfl, ?_, hdecode.append hdecode'⟩
    rw [List.length_append, List.length_cons, Nat.mul_succ]
    omega

theorem length_steps (n : Nat) : (steps n 64).length = (n + 63) / 64 := by
  rw [steps, List.length_map, List.length_range]
  rfl

theorem worstCaseLine_ge (size width : Nat) (hsize : 0 < size) : width * 64 ≤ worstCaseLine size width := by
  have hmul : width * 64 ≤ width * 64 * size := Nat.le_mul_of_pos_right _ hsize
  rw [worstCaseLine]
  omega

/-- What `zrleEncode` leaves after some lines of tiles. -/
structure Encoded (zlib : Zlib σ τ) (Sync : σ → τ → Prop) (cp : CPixel) (image : Nat → Nat → Card bpp) (r : Rect)
    (zis : τ) (lines : List Nat) (zos : σ) (added : List UInt8) : Prop where
  sync : Sync zos (zlib.inflate zis added).2
  decodes : DecodesTo cp image r (zlib.inflate zis added).1 (lines.flatMap fun dy => lineTiles r dy (steps r.w 64))

variable {zlib : Zlib σ τ} {Sync : σ → τ → Prop}

theorem zrleEncode_spec (hz : zlib.Delivers Sync) (hcp : cp.Suits bpp) (image : Nat → Nat → Card bpp) (r : Rect)
    (m i : Nat) (hline : 0 < m → worstCaseLine (cp.size bpp) r.w ≤ maxLen) (hm : ∀ j < m, 64 * (i + j) < r.h) {zos : σ} {zis : τ}
    (hsync : Sync zos zis) {os : List UInt8} (hos : i = 0 → os = []) (hlen : os.length < 2 ^ 31) :
    ∃ n added zos', zrleEncode zlib cp image r maxLen ((List.range' i m).map (64 * ·)) zos os =
        some (if n = m then r.h else 64 * (i + n), decide (n = m), zos', os ++ added) ∧
      (n ≤ m ∧ (i = 0 → 0 < m → 0 < n)) ∧ (os ++ added).length < 2 ^ 31 ∧
      Encoded zlib Sync cp image r zis ((List.range' i n).map (64 * ·)) zos' added := by
  induction m generalizing i zos zis os with
  | zero =>
    refine ⟨0, [], zos, ?_, ⟨le_rfl, fun _ h => h⟩, ?_, ?_, ?_⟩
    · rw [List.append_nil]
      rfl
    · rwa [List.append_nil]
    · rwa [hz.nil]
    · rw [hz.nil]
      exact fun window rest => rfl
  | succ m ih =>
    have hfirst := hline (Nat.succ_pos m)
    rw [List.range'_succ, List.map_cons, zrleEncode]
    by_cases hfull : os.length + worstCaseLine (cp.size bpp) r.w > maxLen
    · have hi : i ≠ 0 := by
        intro hi
        rw [hos hi, List.length_nil, Nat.zero_add] at hfull
        exact absurd hfirst (Nat.not_le.mpr hfull)
      refine ⟨0, [], zos, ?_, ⟨Nat.zero_le _, fun h => absurd h hi⟩, ?_, ?_, ?_⟩
      · rw [if_pos hfull, if_neg (by omega), List.append_nil]
        rfl
      · rwa [List.append_nil]
      · rwa [hz.nil]
      · rw [hz.nil]
        exact fun window rest => rfl
    · have hdy := hm 0 (Nat.succ_pos m)
      rw [Nat.add_zero] at hdy
      obtain ⟨line, hencode, hle, hdecode⟩ :=
        encodeLine_spec hcp image r hdy fun dx hdx => Xvnc.mem_steps (show 0 < 64 by decide) hdx
      obtain ⟨hplain, hsync'⟩ := hz.delivers zos zis line hsync
      have hbytes := hz.length_le zos line
      have hlen' : (os ++ (zlib.deflate zos line).1).length < 2 ^ 31 := by
        have hwidth := worstCaseLine_ge (cp.size bpp) r.w (cp.size_le bpp).1
        rw [length_steps] at hle
        rw [List.length_append]
        have hmax : maxLen = 4195328 := rfl
        omega
      obtain ⟨n, added, zos', hrest, ⟨hn, -⟩, hadded, hsynced, hdecodes⟩ := ih (i + 1) (fun _ => hfirst)
        (fun j hj => by
          have := hm (j + 1) (by omega)
          omega)
        hsync' (fun h => absurd h (Nat.succ_ne_zero i)) hlen'
      rw [if_neg hfull]
      dsimp only [Option.bind_eq_bind]
      rw [hencode, Option.bind_some, hrest, List.append_assoc]
      refine ⟨n + 1, (zlib.deflate zos line).1 ++ added, zos', ?_, ⟨by omega, fun _ _ => Nat.succ_pos n⟩, ?_, ?_, ?_⟩
      · simp only [Nat.add_right_cancel_iff, Nat.add_assoc, Nat.add_comm 1]
      · rwa [← List.append_assoc]
      · rwa [hz.append]
      · rw [hz.append, hplain, List.range'_succ, List.map_cons, List.flatMap_cons]
        exact hdecode.append hdecodes

/-- The tiles of what has been encoded are those of the rectangle that is reported. -/
theorem actual_tiles (r : Rect) {n m : Nat} (hm : m = (r.h + 63) / 64) (hn : n ≤ m) :
    tilesOf 64 r.w (if n = m then r.h else 64 * n) =
      ((List.range' 0 n).map (64 * ·)).flatMap fun dy => lineTiles r dy (steps r.w 64) := by
  generalize hheight : (if n = m then r.h else 64 * n) = height
  have hsteps : steps height 64 = (List.range' 0 n).map (64 * ·) := by
    rw [steps, List.range_eq_range']
    congr 2
    rw [← hheight]
    split <;> omega
  rw [tilesOf, hsteps, List.flatMap_map, List.flatMap_map]
  apply List.flatMap_congr
  intro i hi
  have hi' : i < n := by simpa using hi
  have hsize : (if 64 * i + 64 < height then 64 else height - 64 * i) = tileSize r.h (64 * i) := by
    rw [tileSize, ← hheight]
    by_cases hnm : n = m
    · rw [if_pos hnm]
    · rw [if_neg hnm]
      split
      · rw [if_pos (by omega)]
      · rw [if_pos (by omega)]
        omega
  rw [lineTiles, hsize]
  rfl

theorem cpixel_suits (pf : PixelFormat) : pf.cpixel.Suits pf.bpp := by
  obtain ⟨bpp, bigEndian, redMax, greenMax, blueMax, redShift, greenShift, blueShift⟩ := pf
  cases bpp with
  | bpp8 => exact .inl rfl
  | bpp16 => exact .inl rfl
  | bpp32 => exact .inr rfl

/-- What `writeRect` wrote is read to the end, and gives the pixels of `actual` as the packing keeps them. -/
theorem readRect_writeRect (hz : zlib.Delivers Sync) (pf : PixelFormat) (image : Nat → Nat → Card pf.bpp) (r : Rect)
    (hline : 0 < r.h → worstCaseLine (pf.cpixel.size pf.bpp) r.w ≤ maxLen) {zos : σ} {zis : τ} (hsync : Sync zos zis) :
    ∃ written, writeRect zlib pf image r zos = some written ∧
      (written.actual.x = r.x ∧ written.actual.y = r.y ∧ written.actual.w = r.w ∧ (0 < r.h → 0 < written.actual.h)) ∧
      ∀ window rest, ∃ window' zis',
      readRect zlib pf written.actual window zis (written.bytes ++ rest) = some (window', zis', rest) ∧
      Sync written.zos zis' ∧ ∀ p, window' p =
        if written.actual.x ≤ p.1 ∧ p.1 < written.actual.x + written.actual.w ∧ written.actual.y ≤ p.2 ∧
          p.2 < written.actual.y + written.actual.h then pf.cpixel.kept (image p.1 p.2) else window p := by
  have hcount : (r.h + 64 - 1) / 64 = (r.h + 63) / 64 := rfl
  obtain ⟨n, added, zos', hencode, ⟨hn, hfirst⟩, hlen, hsynced, hdecodes⟩ := zrleEncode_spec hz (cpixel_suits pf) image r
    ((r.h + 63) / 64) 0 (fun hpos => hline (by omega)) (fun j hj => by omega) hsync (fun _ => rfl)
    (by rw [List.length_nil]; decide)
  rw [List.nil_append] at hlen
  rw [List.nil_append, Nat.zero_add, ← List.range_eq_range'] at hencode
  rw [writeRect, steps, hcount, hencode]
  dsimp only [Option.bind_eq_bind, Option.bind_some]
  refine ⟨_, rfl, ⟨rfl, rfl, rfl, fun hpos => ?_⟩, fun window rest => ?_⟩
  · have hn' := hfirst rfl (by omega)
    dsimp only
    split <;> omega
  dsimp only
  rw [readRect, List.append_assoc, readU32_writeU32 (by omega)]
  dsimp only [Option.bind_eq_bind, Option.bind_some]
  rw [if_pos hlen, readBytes_append rfl]
  dsimp only [Option.bind_some]
  have htiles := actual_tiles r rfl hn
  have hread := hdecodes window []
  rw [← htiles, List.append_nil] at hread
  have hdecode : zrleDecode pf.cpixel { r with h := if n = (r.h + 63) / 64 then r.h else 64 * n } window
      (zlib.inflate zis added).1 = _ := hread
  rw [hdecode]
  refine ⟨_, _, rfl, hsynced, fun p => ?_⟩
  dsimp only
  rw [Xvnc.tilesShown_eq]
  simp only [Xvnc.tilesOf_cover (show 0 < 64 by decide)]

/-- A line that is too wide gives an exception. -/
theorem writeRect_wide (pf : PixelFormat) (image : Nat → Nat → Card pf.bpp) {r : Rect} (hr : 0 < r.h)
    (hline : maxLen < worstCaseLine (pf.cpixel.size pf.bpp) r.w) (zos : σ) : writeRect zlib pf image r zos = none := by
  have hsteps : steps r.h 64 = 0 :: (List.range' 1 ((r.h - 1) / 64)).map (64 * ·) := by
    have hcount : (r.h + 64 - 1) / 64 = (r.h - 1) / 64 + 1 := by omega
    rw [steps, hcount, List.range_eq_range', List.range'_succ]
    rfl
  rw [writeRect, hsteps, zrleEncode, if_pos (by rw [List.length_nil]; omega), if_pos rfl]
  rfl

end Colama.Vnc4.Zrle

import Mathlib.Tactic

namespace Colama.Xvnc

inductive Encoding
  | raw | copyRect | rre | coRRE | hextile | zlib | tight
  | xCursor | richCursor | pointerPos | lastRect
  deriving DecidableEq

structure RectHeader where
  x : Nat
  y : Nat
  w : Nat
  h : Nat
  encoding : Encoding
  deriving DecidableEq

/-- The product of two ints. -/
def intMul (a b : Nat) : Int := Int.bmod (a * b) (2 ^ 32)

def MIN_SPLIT_RECT_SIZE : Nat := 4096
def MIN_SOLID_SUBRECT_SIZE : Nat := 2048
def MAX_SPLIT_TILE_SIZE : Nat := 16

structure TightConf where
  maxRectSize : Nat
  maxRectWidth : Nat

def tightConf : Fin 10 → TightConf
  | 0 => ⟨512, 32⟩
  | 1 => ⟨2048, 128⟩
  | 2 => ⟨6144, 256⟩
  | 3 => ⟨10240, 1024⟩
  | 4 => ⟨16384, 2048⟩
  | 5 => ⟨32768, 2048⟩
  | 6 => ⟨65536, 2048⟩
  | 7 => ⟨65536, 2048⟩
  | 8 => ⟨65536, 2048⟩
  | 9 => ⟨65536, 2048⟩

/-- The settings of a client that decide how its rectangles are split. -/
structure TightClient where
  tightCompressLevel : Fin 10
  enableLastRectEncoding : Bool

def subrectMaxWidth (level : Fin 10) (w : Nat) : Nat :=
  if w > (tightConf level).maxRectWidth then (tightConf level).maxRectWidth else w

def subrectMaxHeight (level : Fin 10) (w : Nat) : Nat :=
  (tightConf level).maxRectSize / subrectMaxWidth level w

/-- The rectangle is sent as more than one, if it is not split by colour. -/
def needsSplit (level : Fin 10) (w h : Nat) : Bool :=
  decide (w > (tightConf level).maxRectWidth) || decide (intMul w h > (tightConf level).maxRectSize)

def rfbNumCodedRectsTight (cl : TightClient) (w h : Nat) : Nat :=
  if cl.enableLastRectEncoding && decide (intMul w h ≥ MIN_SPLIT_RECT_SIZE) then 0
  else if needsSplit cl.tightCompressLevel w h then
    ((w - 1) / (tightConf cl.tightCompressLevel).maxRectWidth + 1) *
      ((h - 1) / subrectMaxHeight cl.tightCompressLevel w + 1)
  else 1

/-- The values `0, step, 2 * step, …` below `n` that a loop goes through. -/
def steps (n step : Nat) : List Nat := (List.range ((n + step - 1) / step)).map (step * ·)

def sendSubrect (x y w h : Nat) : List RectHeader := [⟨x, y, w, h, .tight⟩]

def sendRectSimple (level : Fin 10) (x y w h : Nat) : List RectHeader :=
  if needsSplit level w h then
    (steps h (subrectMaxHeight level w)).flatMap fun dy =>
      (steps w (tightConf level).maxRectWidth).flatMap fun dx =>
        let rw := if dx + (tightConf level).maxRectWidth < w then (tightConf level).maxRectWidth else w - dx
        let rh := if dy + subrectMaxHeight level w < h then subrectMaxHeight level w else h - dy
        sendSubrect (x + dx) (y + dy) rw rh
  else sendSubrect x y w h

section Solid

variable {α : Type*} [DecidableEq α] (fb : Nat → Nat → α)

/-- The colour of a rectangle of one colour, which `needSameColor` may prescribe. -/
def checkSolidTile (x y w h : Nat) (needSameColor : Option α) : Option α :=
  let colorValue := fb x y
  if needSameColor.any fun color => colorValue ≠ color then none
  else if (List.range h).all fun dy => (List.range w).all fun dx => fb (x + dx) (y + dy) = colorValue then
    some colorValue
  else none

def tileLength (pos limit : Nat) : Nat :=
  if pos + MAX_SPLIT_TILE_SIZE ≤ limit then MAX_SPLIT_TILE_SIZE else limit - pos

/-- The end of the tiles of the colour that follow one another from `dx` on. -/
def solidRunEnd (dy dh : Nat) (color : α) (limit dx : Nat) : Nat :=
  if dx < limit then
    if (checkSolidTile fb dx dy (tileLength dx limit) dh (some color)).isNone then dx
    else solidRunEnd dy dh color limit (dx + tileLength dx limit)
  else dx
termination_by limit - dx
decreasing_by
  unfold tileLength MAX_SPLIT_TILE_SIZE
  split <;> omega

/-- The loop over the rows of tiles of `FindBestSolidArea`; `best` are `w_best` and `h_best`. -/
@[grind] def findBestRows (x y h : Nat) (color : α) : List Nat → Nat → Nat × Nat → Nat × Nat
  | [], _, best => best
  | dy :: dys, wPrev, best =>
    let dh := tileLength dy (y + h)
    let dw := if wPrev > MAX_SPLIT_TILE_SIZE then MAX_SPLIT_TILE_SIZE else wPrev
    if (checkSolidTile fb x dy dw dh (some color)).isNone then best
    else
      let wPrev := solidRunEnd fb dy dh color (x + wPrev) (x + dw) - x
      let best := if wPrev * (dy + dh - y) > best.1 * best.2 then (wPrev, dy + dh - y) else best
      findBestRows x y h color dys wPrev best

def findBestSolidArea (x y w h : Nat) (color : α) : Nat × Nat :=
  findBestRows fb x y h color ((steps h MAX_SPLIT_TILE_SIZE).map (y + ·)) w (0, 0)

/-- The lowest position reached from `pos` downwards to `limit` through positions that pass. -/
@[grind] def extendDown (pass : Nat → Bool) (limit : Nat) : Nat → Nat
  | 0 => 0
  | pos + 1 => if limit ≤ pos ∧ pass pos then extendDown pass limit pos else pos + 1

/-- The highest position reached from `pos` upwards to `limit`, with `n` positions left. -/
@[grind] def extendUp (pass : Nat → Bool) (pos : Nat) : Nat → Nat
  | 0 => pos
  | n + 1 => if pass pos then extendUp pass (pos + 1) n else pos

structure Area where
  x : Nat
  y : Nat
  w : Nat
  h : Nat

def extendSolidArea (x y w h : Nat) (color : α) (area : Area) : Area :=
  let row cy := (checkSolidTile fb area.x cy area.w 1 (some color)).isSome
  let top := extendDown row y area.y
  let bottom := extendUp row (area.y + area.h) (y + h - (area.y + area.h))
  let column cx := (checkSolidTile fb cx top 1 (bottom - top) (some color)).isSome
  let left := extendDown column x area.x
  let right := extendUp column (area.x + area.w) (x + w - (area.x + area.w))
  { x := left, y := top, w := right - left, h := bottom - top }

/-- The loop over the tiles of a row: a solid area that is large enough, extended. -/
def findSolidInRow (x y w h dy : Nat) : List Nat → Option Area
  | [] => none
  | dx :: dxs =>
    match checkSolidTile fb dx dy (tileLength dx (x + w)) (tileLength dy (y + h)) none with
    | none => findSolidInRow x y w h dy dxs
    | some color =>
      let best := findBestSolidArea fb dx dy (w - (dx - x)) (h - (dy - y)) color
      if best.1 * best.2 ≠ w * h ∧ best.1 * best.2 < MIN_SOLID_SUBRECT_SIZE then
        findSolidInRow x y w h dy dxs
      else some (extendSolidArea fb x y w h color { x := dx, y := dy, w := best.1, h := best.2 })

/-- The loop over the rows of tiles: what has been sent, what is left of the rectangle, and the area. -/
def findSolid (level : Fin 10) (x w nMaxRows : Nat) : List Nat → Nat → Nat →
    List RectHeader × Nat × Nat × Option Area
  | [], y, h => ([], y, h, none)
  | dy :: dys, y, h =>
    let upper := decide (dy - y ≥ nMaxRows)
    let sent := if upper then sendRectSimple level x y w nMaxRows else []
    let y' := if upper then y + nMaxRows else y
    let h' := if upper then h - nMaxRows else h
    match findSolidInRow fb x y' w h' dy ((steps w MAX_SPLIT_TILE_SIZE).map (x + ·)) with
    | some area => (sent, y', h', some area)
    | none =>
      let rest := findSolid level x w nMaxRows dys y' h'
      (sent ++ rest.1, rest.2)

/-- What is sent if there is something left on a side. -/
def sendIf (left : Prop) [Decidable left] (send : Option (List RectHeader)) : Option (List RectHeader) :=
  if left then send else some []

/-- The headers of a rectangle, if `fuel` is enough for its recursive calls. -/
def rfbSendRectEncodingTight (cl : TightClient) : Nat → Nat → Nat → Nat → Nat → Option (List RectHeader)
  | 0, _, _, _, _ => none
  | fuel + 1, x, y, w, h =>
    if !cl.enableLastRectEncoding || decide (intMul w h < MIN_SPLIT_RECT_SIZE) then
      some (sendRectSimple cl.tightCompressLevel x y w h)
    else
      let nMaxRows := subrectMaxHeight cl.tightCompressLevel w
      match findSolid fb cl.tightCompressLevel x w nMaxRows
          ((steps h MAX_SPLIT_TILE_SIZE).map (y + ·)) y h with
      | (sent, y, h, none) => some (sent ++ sendRectSimple cl.tightCompressLevel x y w h)
      | (sent, y, h, some best) => do
        let top := if best.y ≠ y then sendRectSimple cl.tightCompressLevel x y w (best.y - y) else []
        let left ← sendIf (best.x ≠ x) (rfbSendRectEncodingTight cl fuel x best.y (best.x - x) best.h)
        let right ← sendIf (best.x + best.w ≠ x + w)
          (rfbSendRectEncodingTight cl fuel (best.x + best.w) best.y (w - (best.x - x) - best.w) best.h)
        let bottom ← sendIf (best.y + best.h ≠ y + h)
          (rfbSendRectEncodingTight cl fuel x (best.y + best.h) w (h - (best.y - y) - best.h))
        some (sent ++ top ++ left ++ [⟨best.x, best.y, best.w, best.h, .tight⟩] ++ right ++ bottom)

end Solid

end Colama.Xvnc

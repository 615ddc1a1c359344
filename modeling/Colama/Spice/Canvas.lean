import Mathlib.Data.BitVec
import Mathlib.Data.Finset.Prod
import Mathlib.Data.Finset.Max
import Mathlib.Order.Interval.Finset.Basic
import Mathlib.Data.Int.Interval

namespace Colama.Spice

abbrev SpicePoint := Int × Int

/-- A pixman region, as the points it holds. -/
abbrev Region := Finset SpicePoint

structure SpiceRect where
  left : Int
  top : Int
  right : Int
  bottom : Int
deriving DecidableEq

/-- The order of the integers whose intervals compute. -/
local instance (priority := high) intPreorder : Preorder Int := Int.instLinearOrder.toPreorder

def SpiceRect.points (r : SpiceRect) : Region := Finset.Ico r.left r.right ×ˢ Finset.Ico r.top r.bottom

inductive SpiceClip
  | none
  | rects (rects : List SpiceRect)
deriving DecidableEq

def SpiceClip.clip : SpiceClip → Region → Region
  | .none, rgn => rgn
  | .rects l, rgn => rgn.filter fun p => ∃ r ∈ l, p ∈ r.points

inductive SpiceROP
  | clear
  | and
  | andReverse
  | copy
  | andInverted
  | noop
  | xor
  | or
  | nor
  | equiv
  | invert
  | orReverse
  | copyInverted
  | orInverted
  | nand
  | set
deriving DecidableEq

/-- The `RASTER_OP` of `pixman_utils.c` for pixels of `w` bits. -/
def SpiceROP.apply (src dst : BitVec w) : SpiceROP → BitVec w
  | .clear => 0
  | .and => src &&& dst
  | .andReverse => src &&& ~~~dst
  | .copy => src
  | .andInverted => ~~~src &&& dst
  | .noop => dst
  | .xor => src ^^^ dst
  | .or => src ||| dst
  | .nor => ~~~src &&& ~~~dst
  | .equiv => ~~~src ^^^ dst
  | .invert => ~~~dst
  | .orReverse => src ||| ~~~dst
  | .copyInverted => ~~~src
  | .orInverted => ~~~src ||| dst
  | .nand => ~~~src ||| ~~~dst
  | .set => BitVec.allOnes w

inductive ROPInput
  | src
  | brush
  | dest

namespace ROPD

def inversSrc : BitVec 16 := 1 <<< 0
def inversBrush : BitVec 16 := 1 <<< 1
def inversDest : BitVec 16 := 1 <<< 2
def opPut : BitVec 16 := 1 <<< 3
def opOr : BitVec 16 := 1 <<< 4
def opAnd : BitVec 16 := 1 <<< 5
def opXor : BitVec 16 := 1 <<< 6
def opBlackness : BitVec 16 := 1 <<< 7
def opWhiteness : BitVec 16 := 1 <<< 8
def opInvers : BitVec 16 := 1 <<< 9
def inversRes : BitVec 16 := 1 <<< 10

end ROPD

def ROPInput.invertMask : ROPInput → BitVec 16
  | .src => ROPD.inversSrc
  | .brush => ROPD.inversBrush
  | .dest => ROPD.inversDest

def normalizeDescriptor (old : BitVec 16) (srcInput destInput : ROPInput) : BitVec 16 :=
  let desc := old &&& ~~~(ROPD.inversSrc ||| ROPD.inversDest)
  let desc := if old &&& srcInput.invertMask ≠ 0 then desc ||| ROPD.inversSrc else desc
  if old &&& destInput.invertMask ≠ 0 then desc ||| ROPD.inversDest else desc

/-- `ropd_descriptor_to_rop`, after the two inversions were moved to `INVERS_SRC` and `INVERS_DEST`. -/
def descriptorToRop (desc : BitVec 16) : SpiceROP :=
  if desc &&& ROPD.opPut ≠ 0 then
    if desc &&& ROPD.inversSrc ≠ 0 then
      if desc &&& ROPD.inversRes ≠ 0 then .copy else .copyInverted
    else if desc &&& ROPD.inversRes ≠ 0 then .copyInverted
    else .copy
  else if desc &&& ROPD.opOr ≠ 0 then
    if desc &&& ROPD.inversRes ≠ 0 then
      if desc &&& ROPD.inversSrc ≠ 0 then
        if desc &&& ROPD.inversDest ≠ 0 then .and else .andReverse
      else if desc &&& ROPD.inversDest ≠ 0 then .andInverted
      else .nor
    else if desc &&& ROPD.inversSrc ≠ 0 then
      if desc &&& ROPD.inversDest ≠ 0 then .nand else .orInverted
    else if desc &&& ROPD.inversDest ≠ 0 then .orReverse
    else .or
  else if desc &&& ROPD.opAnd ≠ 0 then
    if desc &&& ROPD.inversRes ≠ 0 then
      if desc &&& ROPD.inversSrc ≠ 0 then
        if desc &&& ROPD.inversDest ≠ 0 then .or else .orReverse
      else if desc &&& ROPD.inversDest ≠ 0 then .orInverted
      else .nand
    else if desc &&& ROPD.inversSrc ≠ 0 then
      if desc &&& ROPD.inversDest ≠ 0 then .nor else .andInverted
    else if desc &&& ROPD.inversDest ≠ 0 then .andReverse
    else .and
  else if desc &&& ROPD.opXor ≠ 0 then
    if desc &&& ROPD.inversRes ≠ 0 then
      if desc &&& ROPD.inversSrc ≠ 0 then
        if desc &&& ROPD.inversDest ≠ 0 then .equiv else .xor
      else if desc &&& ROPD.inversDest ≠ 0 then .xor
      else .equiv
    else if desc &&& ROPD.inversSrc ≠ 0 then
      if desc &&& ROPD.inversDest ≠ 0 then .xor else .equiv
    else if desc &&& ROPD.inversDest ≠ 0 then .equiv
    else .xor
  else if desc &&& ROPD.opBlackness ≠ 0 then .clear
  else if desc &&& ROPD.opWhiteness ≠ 0 then .set
  else if desc &&& ROPD.opInvers ≠ 0 then .invert
  else .copy

def ropdDescriptorToRop (desc : BitVec 16) (srcInput destInput : ROPInput) : SpiceROP :=
  descriptorToRop (normalizeDescriptor desc srcInput destInput)

/-- The address of an image. -/
abbrev SpiceImage := Nat

structure SpicePattern where
  pat : SpiceImage
  pos : SpicePoint
deriving DecidableEq

inductive SpiceBrush
  | none
  | solid (color : BitVec 32)
  | pattern (pattern : SpicePattern)
deriving DecidableEq

structure SpiceQMask where
  flags : BitVec 8
  pos : SpicePoint
  bitmap : Option SpiceImage
deriving DecidableEq

structure SpiceFill where
  brush : SpiceBrush
  ropDescriptor : BitVec 16
  mask : SpiceQMask
deriving DecidableEq

structure SpicePathSeg where
  flags : BitVec 32
  points : List SpicePoint
deriving DecidableEq

structure SpicePath where
  segments : List SpicePathSeg
deriving DecidableEq

/-- `style` holds the `style_nseg` dash lengths. -/
structure SpiceLineAttr where
  flags : BitVec 8
  style : List Int
deriving DecidableEq

structure SpiceStroke where
  path : SpicePath
  attr : SpiceLineAttr
  brush : SpiceBrush
  foreMode : BitVec 16
  backMode : BitVec 16
deriving DecidableEq

/-- The types whose drawing is not read here. -/
inductive QxlType
  | nop
  | drawOpaque
  | copy
  | blend
  | blackness
  | whiteness
  | invers
  | rop3
  | transparent
  | alphaBlend
  | text
deriving DecidableEq

inductive QxlDraw
  | fill (fill : SpiceFill)
  | stroke (stroke : SpiceStroke)
  | copyBits (srcPos : SpicePoint)
  | other (type : QxlType)
deriving DecidableEq

abbrev Picture (w : Nat) := SpicePoint → BitVec w

structure Tile (w : Nat) where
  width : Nat
  height : Nat
  pixel : Nat → Nat → BitVec w

def Tile.source (tile : Tile w) (offset p : SpicePoint) : BitVec w :=
  tile.pixel ((p.1 - offset.1) % tile.width).toNat ((p.2 - offset.2) % tile.height).toNat

/-- A canvas of `w` bits a pixel, with what its drawing takes from elsewhere: the decoded images, the
mask region `canvas_mask_pixman` intersects with (mask, destination and position given), the spans
and boxes that `lines.c` fills for a path, each in the foreground or not, and the drawing of the other
types, which stays within the area it is given. -/
structure Canvas (w : Nat) where
  bits_pos : 0 < w
  canvasRegion : Region
  getImage : SpiceImage → Tile w
  maskRegion : SpiceQMask → Region → SpicePoint → Region
  strokeLines : SpicePath → SpiceLineAttr → List (Region × Bool)
  drawOther : QxlDraw → Region → Picture w → Picture w
  drawOther_outside : ∀ u dest pic p, p ∉ dest → drawOther u dest pic p = pic p

namespace Canvas

variable (canvas : Canvas w)

def fillSolidRects (rects : Region) (color : BitVec 32) (pic : Picture w) : Picture w :=
  fun p => if p ∈ rects then color.setWidth w else pic p

def fillSolidRectsRop (rects : Region) (color : BitVec 32) (rop : SpiceROP) (pic : Picture w) : Picture w :=
  fun p => if p ∈ rects then rop.apply (color.setWidth w) (pic p) else pic p

def fillTiledRects (rects : Region) (tile : Tile w) (offset : SpicePoint) (pic : Picture w) : Picture w :=
  fun p => if p ∈ rects then tile.source offset p else pic p

def fillTiledRectsRop (rects : Region) (tile : Tile w) (offset : SpicePoint) (rop : SpiceROP)
    (pic : Picture w) : Picture w :=
  fun p => if p ∈ rects then rop.apply (tile.source offset p) (pic p) else pic p

def drawBrush (region : Region) (brush : SpiceBrush) (rop : SpiceROP) (pic : Picture w) : Picture w :=
  match brush with
  | .solid color =>
    if rop = .copy then fillSolidRects region color pic else fillSolidRectsRop region color rop pic
  | .pattern pattern =>
    if rop = .copy then fillTiledRects region (canvas.getImage pattern.pat) pattern.pos pic
    else fillTiledRectsRop region (canvas.getImage pattern.pat) pattern.pos rop pic
  | .none => fillSolidRectsRop region 0 rop pic

/-- `canvas_clip_pixman` on the region of `bbox`. -/
def clipPixman (bbox : SpiceRect) (clip : SpiceClip) : Region :=
  clip.clip (bbox.points ∩ canvas.canvasRegion)

def maskPixman (dest : Region) (mask : SpiceQMask) (pos : SpicePoint) : Region :=
  match mask.bitmap with
  | none => dest
  | some _ => dest ∩ canvas.maskRegion mask dest pos

def drawFill (bbox : SpiceRect) (clip : SpiceClip) (fill : SpiceFill) (pic : Picture w) : Picture w :=
  let dest := canvas.maskPixman (canvas.clipPixman bbox clip) fill.mask (bbox.left, bbox.top)
  let rop := ropdDescriptorToRop fill.ropDescriptor .brush .dest
  if rop = .noop ∨ dest = ∅ then pic else canvas.drawBrush dest fill.brush rop pic

/-- One call of `stroke_fill_spans` for one span, or of `stroke_fill_rects`. -/
def strokeFill (dest : Region) (stroke : SpiceStroke) (pic : Picture w) (area : Region × Bool) : Picture w :=
  let foreRop := ropdDescriptorToRop stroke.foreMode .brush .dest
  let backRop := ropdDescriptorToRop stroke.backMode .brush .dest
  canvas.drawBrush (area.1 ∩ dest) stroke.brush (if area.2 then foreRop else backRop) pic

def drawStroke (bbox : SpiceRect) (clip : SpiceClip) (stroke : SpiceStroke) (pic : Picture w) : Picture w :=
  let dest := canvas.clipPixman bbox clip
  if dest = ∅ then pic
  else (canvas.strokeLines stroke.path stroke.attr).foldl (canvas.strokeFill dest stroke) pic

def draw (bbox : SpiceRect) (clip : SpiceClip) (pic : Picture w) : QxlDraw → Picture w
  | .fill fill => canvas.drawFill bbox clip fill pic
  | .stroke stroke => canvas.drawStroke bbox clip stroke pic
  | u => canvas.drawOther u (canvas.clipPixman bbox clip) pic

end Canvas

end Colama.Spice

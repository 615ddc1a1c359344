import Colama.Spice.Canvas

namespace Colama.Spice

inductive QxlEffect
  | effectBlend
  | effectOpaque
  | effectRevertOnDup
  | effectBlacknessOnDup
  | effectWhitenessOnDup
  | effectNopOnDup
  | effectNop
  | effectOpaqueBrush
deriving DecidableEq

/-- `surfacesDest` and `surfacesRects` name up to three source surfaces and their areas, `selfBitmap`
the area of its own surface that is read. -/
structure RedDrawable where
  surfaceId : Nat
  effect : QxlEffect
  bbox : SpiceRect
  clip : SpiceClip
  selfBitmap : Option SpiceRect
  surfacesDest : Fin 3 → Option Nat
  surfacesRects : Fin 3 → SpiceRect
  u : QxlDraw
deriving DecidableEq

/-- The region `red_process_drawable` gives the tree item. -/
def RedDrawable.region (d : RedDrawable) : Region := d.clip.clip d.bbox.points

/-- The source area of a copy, with the part of it that later drawables cover. -/
structure Shadow where
  rgn : Region
  onHold : Region
deriving DecidableEq

/-- A drawable and its item in the tree, with the region that is left of it. -/
structure DrawItem where
  drawable : RedDrawable
  rgn : Region
  shadow : Option Shadow
  containerRoot : Bool
deriving DecidableEq

/-- The item of a drawable that is being processed. -/
def DrawItem.start (d : RedDrawable) : DrawItem := ⟨d, d.region, none, false⟩

def DrawItem.effect (item : DrawItem) : QxlEffect := item.drawable.effect

def isEqualSeg (seg1 seg2 : SpicePathSeg) : Bool :=
  seg1.flags = seg2.flags ∧ seg1.points.length = seg2.points.length ∧
    (seg1.points.zip seg2.points).all fun (p1, p2) => p1.1 = p2.1 ∧ p1.2 = p2.2

def isEqualPath (path1 path2 : SpicePath) : Bool :=
  path1.segments.length = path2.segments.length ∧
    (path1.segments.zip path2.segments).all fun (seg1, seg2) => isEqualSeg seg1 seg2

/-- The colour is compared with itself. -/
def isEqualBrush : SpiceBrush → SpiceBrush → Bool
  | .solid c1, .solid _ => c1 = c1
  | _, _ => false

def isEqualLineAttr (a1 a2 : SpiceLineAttr) : Bool :=
  a1.flags = a2.flags ∧ a1.style.length = a2.style.length ∧ a1.style.length = 0

def isSameGeometry (d1 d2 : RedDrawable) : Bool :=
  match d1.u, d2.u with
  | .stroke s1, .stroke s2 => isEqualLineAttr s1.attr s2.attr && isEqualPath s1.path s2.path
  | .fill _, .fill _ => d1.bbox = d2.bbox
  | _, _ => false

def isSameDrawable (d1 d2 : RedDrawable) : Bool :=
  isSameGeometry d1 d2 &&
    match d1.u, d2.u with
    | .stroke s1, .stroke s2 => isEqualBrush s1.brush s2.brush
    | .fill f1, .fill f2 => isEqualBrush f1.brush f2.brush
    | _, _ => false

/-- What becomes of the two drawables. -/
inductive Merge
  | replaceOther
  | removeBoth
  | dropItem
deriving DecidableEq

/-- The decision of `red_current_add_equal`; `none` where it returns `FALSE`. -/
def redCurrentAddEqual (item other : DrawItem) : Option Merge :=
  if item.shadow.isSome || other.shadow.isSome || item.effect ≠ other.effect then none
  else match item.effect with
    | .effectOpaque => some .replaceOther
    | .effectRevertOnDup => if isSameDrawable item.drawable other.drawable then some .removeBoth else none
    | .effectOpaqueBrush => if isSameGeometry item.drawable other.drawable then some .replaceOther else none
    | .effectNopOnDup => if isSameDrawable item.drawable other.drawable then some .dropItem else none
    | _ => none

/-- The drawables that remain, the oldest first. -/
def Merge.remaining (item other : RedDrawable) : Merge → List RedDrawable
  | .replaceOther => [item]
  | .removeBoth => []
  | .dropItem => [other]

end Colama.Spice

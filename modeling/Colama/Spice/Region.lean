import Mathlib.Tactic
import Colama.Lib.Pieces

namespace Colama.Spice

open Lib

structure Box where
  x1 : Int
  y1 : Int
  x2 : Int
  y2 : Int
  deriving DecidableEq

/-- `pixman_region32_t`: `data` is `NULL` when the region is the rectangle `extents`. -/
structure QRegion where
  extents : Box
  data : Option (List Box)
  deriving DecidableEq

namespace QRegion

/-- `PIXREGION_RECTS`, as long as `PIXREGION_NUMRECTS` says. -/
def rectangles (r : QRegion) : List Box :=
  match r.data with
  | none => [r.extents]
  | some boxes => boxes

def notEmpty (r : QRegion) : Bool := r.data ≠ some []

end QRegion

/-- The boxes overlap. -/
def extentCheck (r1 r2 : Box) : Bool :=
  !(r1.x2 ≤ r2.x1 || r1.x1 ≥ r2.x2 || r1.y2 ≤ r2.y1 || r1.y1 ≥ r2.y2)

/-- The box `r1` contains the box `r2`. -/
def subsumes (r1 r2 : Box) : Bool :=
  r1.x1 ≤ r2.x1 && r1.x2 ≥ r2.x2 && r1.y1 ≤ r2.y1 && r1.y2 ≥ r2.y2

inductive Flag
  | leftExclusive | rightExclusive | shared
  deriving DecidableEq

def Flag.bit : Flag → UInt32
  | .leftExclusive => 1
  | .rightExclusive => 2
  | .shared => 4

def regionTestAll : UInt32 := Flag.leftExclusive.bit ||| Flag.rightExclusive.bit ||| Flag.shared.bit

/-- The bits of `res` and `query` that lie in `REGION_TEST_ALL`. -/
abbrev Mask := Flag → Bool

namespace Mask

def zero : Mask := fun _ => false

def ofBits (w : UInt32) : Mask := fun f => w &&& f.bit ≠ 0

def bits (m : Mask) : UInt32 :=
  (if m .leftExclusive then Flag.leftExclusive.bit else 0) |||
    (if m .rightExclusive then Flag.rightExclusive.bit else 0) |||
    (if m .shared then Flag.shared.bit else 0)

/-- `res |= f` -/
def set (res : Mask) (f : Flag) : Mask := fun g => res g || g = f

/-- `res |= f` under a condition -/
def setIf (res : Mask) (c : Bool) (f : Flag) : Mask := if c then res.set f else res

/-- `res & query` -/
def and (res query : Mask) : Mask := fun f => res f && query f

/-- `(res & query) == query` -/
def covers (res query : Mask) : Bool :=
  (query .leftExclusive ≤ res .leftExclusive) && (query .rightExclusive ≤ res .rightExclusive) &&
    (query .shared ≤ res .shared)

end Mask

/-- The bits that one pair of rectangles adds in `test_band`. -/
def testBandRects (res : Mask) (r1 r2 : Box) : Mask :=
  if max r1.x1 r2.x1 < min r1.x2 r2.x2 then
    ((res.set .shared).setIf (r1.x1 < r2.x1 || r1.x2 > r2.x2) .leftExclusive).setIf
      (r2.x1 < r1.x1 || r2.x2 > r1.x2) .rightExclusive
  else if r1.x1 < r2.x1 then res.set .leftExclusive
  else res.set .rightExclusive

def testBand (query : Mask) (res : Mask) : List Box → List Box → Mask
  | r1 :: t1, r2 :: t2 =>
    let x2 := min r1.x2 r2.x2
    let res := testBandRects res r1 r2
    if res.covers query then res
    else testBand query res (if r1.x2 = x2 then t1 else r1 :: t1) (if r2.x2 = x2 then t2 else r2 :: t2)
  | _ :: _, [] => res.set .leftExclusive
  | [], _ :: _ => res.set .rightExclusive
  | [], [] => res
termination_by r1 r2 => r1.length + r2.length
decreasing_by
  split <;> split <;> simp only [List.length_cons] <;> omega

/-- `FIND_BAND`: the rectangles of the band that starts with `r`, and those behind it. -/
def findBand (r : Box) (t : List Box) : List Box × List Box :=
  (r :: t.takeWhile (·.y1 = r.y1), t.dropWhile (·.y1 = r.y1))

/-- Which region has rows of its own above the next intersection, if any. -/
def exclusiveRows (ybot : Int) (r1 r2 : Box) : Option Flag :=
  if r1.y1 < r2.y1 then
    if max r1.y1 ybot ≠ min r1.y2 r2.y1 then some .leftExclusive else none
  else if r2.y1 < r1.y1 then
    if max r2.y1 ybot ≠ min r2.y2 r1.y1 then some .rightExclusive else none
  else none

def Mask.setOption (res : Mask) : Option Flag → Mask
  | none => res
  | some f => res.set f

def testGenericLoop (query : Mask) (ybot : Int) (res : Mask) : List Box → List Box → Mask
  | r1 :: t1, r2 :: t2 =>
    let excl := exclusiveRows ybot r1 r2
    let res := res.setOption excl
    if excl.isSome && res.covers query then res.and query
    else
      let ytop := if r1.y1 < r2.y1 then r2.y1 else r1.y1
      let ybot := min r1.y2 r2.y2
      let res :=
        if ybot > ytop then testBand query res (findBand r1 t1).1 (findBand r2 t2).1 else res
      if ybot > ytop && res.covers query then res.and query
      else testGenericLoop query ybot res
        (if r1.y2 = ybot then (findBand r1 t1).2 else r1 :: t1)
        (if r2.y2 = ybot then (findBand r2 t2).2 else r2 :: t2)
  | _ :: _, [] => (res.set .leftExclusive).and query
  | [], _ :: _ => (res.set .rightExclusive).and query
  | [], [] => res.and query
termination_by r1 r2 => r1.length + r2.length
decreasing_by
  have h1 := (List.dropWhile_sublist (fun b : Box => decide (b.y1 = r1.y1)) (l := t1)).length_le
  have h2 := (List.dropWhile_sublist (fun b : Box => decide (b.y1 = r2.y1)) (l := t2)).length_le
  simp only [findBand]
  split <;> split <;> simp only [List.length_cons] <;> omega

def testGeneric (reg1 reg2 : QRegion) (query : Mask) : Mask :=
  match reg1.rectangles, reg2.rectangles with
  | r1 :: t1, r2 :: t2 => testGenericLoop query (min r1.y1 r2.y1) .zero (r1 :: t1) (r2 :: t2)
  | _, _ => .zero

/-- The regions are read through pointers, so that `reg1 == reg2` compares these. -/
def regionTest (rgn : Nat → QRegion) (reg1 reg2 : Nat) (query : UInt32) : UInt32 :=
  let query := Mask.ofBits (if query ≠ 0 then query &&& regionTestAll else regionTestAll)
  let r1 := rgn reg1
  let r2 := rgn reg2
  if !r1.notEmpty || !r2.notEmpty || !extentCheck r1.extents r2.extents then
    (((Mask.zero.setIf r1.notEmpty .leftExclusive).setIf r2.notEmpty .rightExclusive).and query).bits
  else if r1.data = none ∧ r2.data = none then
    ((((Mask.zero.set .shared).setIf (!subsumes r1.extents r2.extents) .rightExclusive).setIf
      (!subsumes r2.extents r1.extents) .leftExclusive).and query).bits
  else if r2.data = none ∧ subsumes r2.extents r1.extents then
    (((Mask.zero.set .shared).set .rightExclusive).and query).bits
  else if r1.data = none ∧ subsumes r1.extents r2.extents then
    (((Mask.zero.set .shared).set .leftExclusive).and query).bits
  else if reg1 = reg2 then ((Mask.zero.set .shared).and query).bits
  else (testGeneric r1 r2 query).bits

/-- Both sides are read from `rgn1`, as in the source. -/
def regionBoundsIntersects (rgn : Nat → QRegion) (rgn1 _rgn2 : Nat) : Bool :=
  extentCheck (rgn rgn1).extents (rgn rgn1).extents

def regionIntersects (rgn : Nat → QRegion) (rgn1 rgn2 : Nat) : Bool :=
  regionBoundsIntersects rgn rgn1 rgn2 && regionTest rgn rgn1 rgn2 Flag.shared.bit ≠ 0

def regionContains (rgn : Nat → QRegion) (rgn1 other : Nat) : Bool :=
  regionTest rgn rgn1 other Flag.rightExclusive.bit = 0

/-- `pixman_region32_equal` compares the extents first, also those of empty regions. -/
def regionIsEqual (reg1 reg2 : QRegion) : Bool :=
  reg1.extents = reg2.extents && reg1.rectangles = reg2.rectangles

/-- The value `intersect` is what `pixman_region32_intersect` leaves in a region that
`pixman_region32_init` has set up. -/
def slowRegionTest (intersect : QRegion → QRegion → QRegion) (rgn other : QRegion)
    (query : UInt32) : UInt32 :=
  let intersection := intersect rgn other
  (((Mask.zero.setIf (query &&& Flag.shared.bit ≠ 0 && intersection.notEmpty) .shared).setIf
    (query &&& Flag.leftExclusive.bit ≠ 0 && !regionIsEqual intersection rgn) .leftExclusive).setIf
    (query &&& Flag.rightExclusive.bit ≠ 0 && !regionIsEqual intersection other)
    .rightExclusive).bits

end Colama.Spice

import Colama.Vnc4.UpdateTracker

namespace Colama.Vnc4

open Xvnc (Pixel RegionRec BoxRec)

variable {α : Type*}

def blockSize : Int := 16

/-- From `lo` in steps of a block, as long as it is below `hi`. -/
def blockSteps (lo hi : Int) : List Int :=
  (List.range ((hi - lo + blockSize - 1) / blockSize).toNat).map fun (i : Nat) => lo + blockSize * i

def rowsOf (r : BoxRec) : List BoxRec :=
  (List.range (r.y2 - r.y1).toNat).map fun (i : Nat) => { r with y1 := r.y1 + i, y2 := r.y1 + i + 1 }

/-- `FullFramePixelBuffer::copyRect`. Each row is moved as a whole. -/
def copyRect (data : Pixel → α) (rect : BoxRec) (moveByDelta : Pixel) : Pixel → α :=
  (if moveByDelta.2 ≤ 0 then rowsOf rect else (rowsOf rect).reverse).foldl
    (fun data row => Xvnc.copyRect data row moveByDelta.1 moveByDelta.2) data

/-- `FullFramePixelBuffer::imageRect`, with the pixels that are at the same place in `src`. -/
def imageRect (data : Pixel → α) (r : BoxRec) (src : Pixel → α) : Pixel → α := fun p =>
  if r.Has p then src p else data p

def blocksOf (r : BoxRec) : List BoxRec :=
  (blockSteps r.y1 r.y2).flatMap fun blockTop => (blockSteps r.x1 r.x2).map fun blockLeft =>
    { x1 := blockLeft, y1 := blockTop
      x2 := min (blockLeft + blockSize) r.x2, y2 := min (blockTop + blockSize) r.y2 }

def enclosedBy (r s : BoxRec) : Bool :=
  decide (s.x1 ≤ r.x1) && decide (s.y1 ≤ r.y1) && decide (r.x2 ≤ s.x2) && decide (r.y2 ≤ s.y2)

/-- `ComparingUpdateTracker`. -/
structure ComparingUpdateTracker (α : Type*) where
  tracker : UpdateTracker
  oldFb : Pixel → α
  firstCompare : Bool

namespace ComparingUpdateTracker

/-- A new tracker. The old framebuffer has no size yet. -/
def create (screen : BoxRec) (oldFb : Pixel → α) : ComparingUpdateTracker α where
  tracker := { changed := rectRegion screen, copied := ∅, copyDelta := (0, 0), copyEnabled := true }
  oldFb
  firstCompare := true

variable [DecidableEq α]

/-- The rows of a block are compared from the top. From the first that differs on they are copied. -/
def compareBlock (fb : Pixel → α) (acc : (Pixel → α) × List BoxRec) (block : BoxRec) :
    (Pixel → α) × List BoxRec :=
  match (rowsOf block).find? fun row => decide (∃ p ∈ rectRegion row, acc.1 p ≠ fb p) with
  | none => acc
  | some row => (imageRect acc.1 { block with y1 := row.y1 } fb, acc.2 ++ [block])

def compareRect (screen : BoxRec) (fb : Pixel → α) (acc : (Pixel → α) × RegionRec) (r : BoxRec) :
    (Pixel → α) × RegionRec :=
  if enclosedBy r screen then
    let (oldFb, changedBlocks) := (blocksOf r).foldl (compareBlock fb) (acc.1, [])
    (oldFb, changedBlocks.foldl (fun region block => region ∪ rectRegion block) acc.2)
  else acc

/-- `compare`, with the rectangles of what is copied and of what is to be checked. -/
def compare (ct : ComparingUpdateTracker α) (screen : BoxRec) (fb : Pixel → α)
    (copyRects checkRects : List BoxRec) : ComparingUpdateTracker α :=
  if ct.firstCompare then
    let oldFb := (blockSteps screen.y1 screen.y2).foldl (fun oldFb y =>
      imageRect oldFb { screen with y1 := y, y2 := min screen.y2 (y + blockSize) } fb) ct.oldFb
    { ct with oldFb, firstCompare := false }
  else
    let delta := ct.tracker.copyDelta
    let oldFb := (getRects copyRects (decide (delta.1 ≤ 0)) (decide (delta.2 ≤ 0))).foldl
      (fun oldFb r => copyRect oldFb r delta) ct.oldFb
    let (oldFb, newChanged) := (getRects checkRects true true).foldl (compareRect screen fb) (oldFb, ∅)
    { tracker := { ct.tracker with copied := ct.tracker.copied \ newChanged, changed := newChanged }
      oldFb
      firstCompare := false }

end ComparingUpdateTracker

/-- The rectangles with which a tracker compares. -/
structure CompareRects (ut : UpdateTracker) (copyRects checkRects : List BoxRec) : Prop where
  copied : RectsOf ut.copied copyRects
  toCheck : RectsOf (ut.changed ∪ ut.copied) checkRects

/-- The picture with the reported copy made. -/
def moved (ut : UpdateTracker) (picture : Pixel → α) : Pixel → α := fun p =>
  if p ∈ ut.copied then picture (ut.source p) else picture p

/-- What a viewer makes of its picture: the copy, and then the changed pixels. -/
def present (ut : UpdateTracker) (fb picture : Pixel → α) : Pixel → α := fun p =>
  if p ∈ ut.changed then fb p else moved ut picture p

/-- The framebuffer and the tracker that compares it, with what was there at the last compare and what
has been reported since. -/
structure Comparing (α : Type*) where
  fb : Pixel → α
  comparer : ComparingUpdateTracker α
  compared : Option (Pixel → α)
  reported : RegionRec

def Comparing.create (screen : BoxRec) (fb oldFb : Pixel → α) : Comparing α where
  fb
  comparer := ComparingUpdateTracker.create screen oldFb
  compared := none
  reported := ∅

inductive CompareEvent (α : Type*)
  | paint (fb : Pixel → α)
  | addChanged (region : RegionRec)
  | addCopied (dest : RegionRec) (delta : Pixel)
  | compare (copyRects checkRects : List BoxRec)
  | clear

namespace CompareEvent

variable [DecidableEq α] (screen : BoxRec)

def run (s : Comparing α) : CompareEvent α → Comparing α
  | .paint fb => { s with fb }
  | .addChanged region =>
    { s with
      comparer := { s.comparer with tracker := s.comparer.tracker.addChanged region }
      reported := s.reported ∪ region }
  | .addCopied dest delta =>
    { s with
      comparer := { s.comparer with tracker := s.comparer.tracker.addCopied dest delta }
      reported := s.reported ∪ dest }
  | .compare copyRects checkRects =>
    { s with
      comparer := s.comparer.compare screen s.fb copyRects checkRects
      compared := some s.fb
      reported := ∅ }
  | .clear => { s with comparer := { s.comparer with tracker := s.comparer.tracker.clear } }

/-- The regions are inside the framebuffer, and at a compare all that really changed has been reported.
The tracker is cleared only when it has nothing to report but what the last compare left. -/
def Valid (s : Comparing α) : CompareEvent α → Prop
  | .paint _ => True
  | .addChanged region => ∀ p ∈ region, screen.Has p
  | .addCopied dest delta => ∀ p ∈ dest, screen.Has p ∧ screen.Has (p.move (-delta.1) (-delta.2))
  | .compare copyRects checkRects => CompareRects s.comparer.tracker copyRects checkRects ∧
      ∀ picture, s.compared = some picture → ∀ p, screen.Has p → s.fb p ≠ picture p → p ∈ s.reported
  | .clear => s.reported = ∅ ∧ s.compared ≠ none

end CompareEvent

/-- A region made of whole blocks of the rectangles, each with a pixel that is not the same in both
pictures. -/
def ChangedBlocks (region : RegionRec) (checkRects : List BoxRec) (picture fb : Pixel → α) : Prop :=
  ∃ blocks : List BoxRec,
    (∀ b ∈ blocks, (∃ r ∈ checkRects, b ∈ blocksOf r) ∧ ∃ p, b.Has p ∧ picture p ≠ fb p) ∧
    ∀ p, p ∈ region ↔ ∃ b ∈ blocks, b.Has p

/-- What a compare from `s` to `s'` is to establish. The first one leaves the whole screen to be sent. -/
structure Exact (screen : BoxRec) (s s' : Comparing α) (checkRects : List BoxRec) : Prop where
  oldFb : ∀ p, screen.Has p → s'.comparer.oldFb p = s'.fb p
  present : ∀ picture, s.compared = some picture → ∀ p, screen.Has p →
    present s'.comparer.tracker s'.fb picture p = s'.fb p
  blocks : ∀ picture, s.compared = some picture →
    ChangedBlocks s'.comparer.tracker.changed checkRects (moved s.comparer.tracker picture) s'.fb
  first : s.compared = none → s'.comparer.tracker = s.comparer.tracker ∧
    ∀ p, screen.Has p → p ∈ s'.comparer.tracker.changed

end Colama.Vnc4

import Colama.Vnc4.Comparing

namespace Colama.Vnc4

open Xvnc (Pixel RegionRec BoxRec)

variable {α : Type*}

def intersectRect (r s : BoxRec) : BoxRec where
  x1 := max r.x1 s.x1
  y1 := max r.y1 s.y1
  x2 := max (min r.x2 s.x2) (max r.x1 s.x1)
  y2 := max (min r.y2 s.y2) (max r.y1 s.y1)

def translateRect (r : BoxRec) (delta : Pixel) : BoxRec :=
  ⟨r.x1 + delta.1, r.y1 + delta.2, r.x2 + delta.1, r.y2 + delta.2⟩

def isEmptyRect (r : BoxRec) : Bool := decide (r.x1 ≥ r.x2) || decide (r.y1 ≥ r.y2)

/-- `Rect::clear`. -/
def noRect : BoxRec := ⟨0, 0, 0, 0⟩

def boundingRect (region : RegionRec) : BoxRec :=
  if h : region.Nonempty then
    { x1 := (region.image Prod.fst).min' (h.image _), y1 := (region.image Prod.snd).min' (h.image _)
      x2 := (region.image Prod.fst).max' (h.image _) + 1, y2 := (region.image Prod.snd).max' (h.image _) + 1 }
  else noRect

/-- A cursor, with the pixels that its mask shows. -/
structure Cursor (α : Type*) where
  width : Int
  height : Int
  hotspot : Pixel
  image : Pixel → Option α

/-- A `VNCServerST` with its one client: `pb` to `renderedCursor` are the server's, `updates` to
`useCopyRect` those of the `VNCSConnectionST`, and `picture` is what the client shows. -/
structure Session (α : Type*) where
  pb : Pixel → α
  comparer : ComparingUpdateTracker α
  cursor : Cursor α
  cursorPos : Pixel
  renderedCursorInvalid : Bool
  renderedCursorArea : BoxRec
  renderedCursor : Pixel → α
  updates : UpdateTracker
  requested : RegionRec
  drawRenderedCursor : Bool
  removeRenderedCursor : Bool
  renderedCursorRect : BoxRec
  pointerEventPos : Pixel
  supportsLocalCursor : Bool
  useCopyRect : Bool
  picture : Pixel → α

/-- What a call of `writeFramebufferUpdate` meets: whether the last pointer event is old enough for
`needRenderedCursor`, in `checkUpdate` and after it, `needFakeUpdate`, the rectangles of the regions,
and how much of each changed rectangle the encoder wrote if not all. -/
structure Writing where
  lateInCheck : Bool
  late : Bool
  needFakeUpdate : Bool
  copyRects : List BoxRec
  checkRects : List BoxRec
  copied : List BoxRec
  changed : List (BoxRec × Option BoxRec)

namespace Session

def needRenderedCursor (s : Session α) (late : Bool) : Bool :=
  !s.supportsLocalCursor || (decide (s.cursorPos ≠ s.pointerEventPos) && late)

def cursorTL (s : Session α) : Pixel := (s.cursorPos.1 - s.cursor.hotspot.1, s.cursorPos.2 - s.cursor.hotspot.2)

/-- `cursor.getRect(cursorTL())`. -/
def cursorRect (s : Session α) : BoxRec :=
  ⟨s.cursorTL.1, s.cursorTL.2, s.cursorTL.1 + s.cursor.width, s.cursorTL.2 + s.cursor.height⟩

def renderedCursorChange (s : Session α) (late : Bool) : Session α :=
  { s with
    removeRenderedCursor := true
    drawRenderedCursor := s.needRenderedCursor late || s.drawRenderedCursor }

/-- `VNCServerST::setCursor`, up to where a client that draws the cursor may be sent an update. -/
def setCursor (s : Session α) (cursor : Cursor α) (late : Bool) : Session α :=
  { s with cursor, renderedCursorInvalid := true }.renderedCursorChange late

def setCursorPos (s : Session α) (pos : Pixel) (late : Bool) : Session α :=
  if s.cursorPos = pos then s
  else { s with cursorPos := pos, renderedCursorInvalid := true }.renderedCursorChange late

/-- `SetEncodings` with or without the cursor pseudo-encoding. -/
def setSupportsLocalCursor (s : Session α) (supports : Bool) : Session α :=
  if supports then
    { s with supportsLocalCursor := true, removeRenderedCursor := true, drawRenderedCursor := false }
  else { s with supportsLocalCursor := false }

variable [DecidableEq α] (screen : BoxRec) (compareFB : Bool) (w : Writing)

def checkUpdate (s : Session α) : Session α :=
  let renderCursor := s.needRenderedCursor w.lateInCheck
  if s.comparer.tracker.isEmpty && !(renderCursor && s.renderedCursorInvalid) then s
  else
    let toCheck := s.comparer.tracker.changed ∪ s.comparer.tracker.copied
    let clippedCursorRect := intersectRect s.cursorRect screen
    let renderCursor := renderCursor &&
      (s.renderedCursorInvalid || decide (toCheck ∩ rectRegion clippedCursorRect ≠ ∅))
    let comparer := if compareFB then s.comparer.compare screen s.pb w.copyRects w.checkRects else s.comparer
    { s with
      comparer := { comparer with tracker := comparer.tracker.clear }
      renderedCursorInvalid := s.renderedCursorInvalid && !renderCursor
      renderedCursorArea := if renderCursor then clippedCursorRect else s.renderedCursorArea
      renderedCursor := if renderCursor then
          fun p => (s.cursor.image (p.move (-s.cursorTL.1) (-s.cursorTL.2))).getD (s.pb p)
        else s.renderedCursor
      updates := (s.updates.addCopied comparer.tracker.copied comparer.tracker.copyDelta).addChanged
        comparer.tracker.changed }

/-- What a copy would take from the rendered cursor is sent instead. -/
def addBogusCopiedCursor (s : Session α) : Session α :=
  if s.updates.copied ≠ ∅ ∧ isEmptyRect s.renderedCursorRect = false then
    let bogusCopiedCursor := intersectRect (translateRect s.renderedCursorRect s.updates.copyDelta) screen
    if s.updates.copied ∩ rectRegion bogusCopiedCursor ≠ ∅ then
      { s with updates := s.updates.addChanged (rectRegion bogusCopiedCursor) }
    else s
  else s

def removeOldCursor (s : Session α) : Session α :=
  if s.removeRenderedCursor then
    { s with
      updates := s.updates.addChanged (rectRegion s.renderedCursorRect)
      renderedCursorRect := noRect
      removeRenderedCursor := false }
  else s

/-- The first part of `writeFramebufferUpdate`, up to where it returns with nothing to send. -/
def prepareUpdate (s : Session α) : Session α :=
  ((s.checkUpdate screen compareFB w).addBogusCopiedCursor screen).removeOldCursor

/-- The rendered cursor as it is after the update. -/
def placeCursor (s : Session α) : Session α :=
  if s.needRenderedCursor w.late then
    let renderedCursorRect := intersectRect s.renderedCursorArea (boundingRect s.requested)
    { s with
      renderedCursorRect
      drawRenderedCursor :=
        if isEmptyRect renderedCursorRect then false
        else s.drawRenderedCursor ||
          decide ((s.updates.changed ∪ s.updates.copied) ∩ rectRegion renderedCursorRect ≠ ∅) }
  else s

end Session

/-- A changed rectangle is written and the client puts its pixels. What the encoder left out is taken
from the updated region. -/
def writeRect (pb : Pixel → α) (acc : (Pixel → α) × RegionRec) (rect : BoxRec × Option BoxRec) :
    (Pixel → α) × RegionRec :=
  match rect.2 with
  | none => (imageRect acc.1 rect.1 pb, acc.2)
  | some actual => (imageRect acc.1 actual pb, acc.2 \ rectRegion rect.1 ∪ rectRegion actual)

/-- `writeRects` and what the client does with it: its picture, and the region that was updated. -/
def writeRects (w : Writing) (ui : UpdateTracker) (pb picture : Pixel → α) : (Pixel → α) × RegionRec :=
  let picture := (getRects w.copied (decide (ui.copyDelta.1 ≤ 0)) (decide (ui.copyDelta.2 ≤ 0))).foldl
    (fun picture r => Xvnc.copyRect picture r ui.copyDelta.1 ui.copyDelta.2) picture
  w.changed.foldl (writeRect pb) (picture, ui.changed ∪ ui.copied)

namespace Session

variable [DecidableEq α] (screen : BoxRec) (compareFB : Bool) (w : Writing)

/-- `getUpdateInfo`, with what it leaves in the tracker. -/
def getUpdateInfo (s : Session α) : UpdateTracker × UpdateTracker :=
  let updates := s.updates.enableCopyrect s.useCopyRect
  let updates := { updates with copied := updates.copied \ updates.changed }
  (updates, { updates with changed := updates.changed ∩ s.requested, copied := updates.copied ∩ s.requested })

/-- The second part of `writeFramebufferUpdate`. -/
def sendUpdate (s : Session α) : Session α :=
  let s := s.placeCursor w
  let (updates, update) := s.getUpdateInfo
  if update.isEmpty && !w.needFakeUpdate && !s.drawRenderedCursor then { s with updates }
  else
    let (picture, updatedRegion) := writeRects w update s.pb s.picture
    { s with
      updates := updates.subtract updatedRegion
      picture := if s.drawRenderedCursor then imageRect picture s.renderedCursorRect s.renderedCursor else picture
      drawRenderedCursor := false
      requested := ∅ }

def writeFramebufferUpdate (s : Session α) : Session α :=
  if s.requested = ∅ then s
  else
    let s := s.prepareUpdate screen compareFB w
    if s.updates.isEmpty && !w.needFakeUpdate && !s.drawRenderedCursor then s else s.sendUpdate w

/-- `framebufferUpdateRequest`, before it writes an update. -/
def addRequest (s : Session α) (r : BoxRec) (incremental : Bool) : Session α :=
  let s := { s with requested := s.requested ∪ rectRegion r }
  if incremental then s
  else
    { s with
      updates := s.updates.addChanged (rectRegion r)
      comparer := { s.comparer with tracker := s.comparer.tracker.addChanged (rectRegion r) } }

end Session

inductive ViewEvent (α : Type*)
  | addChanged (region : RegionRec) (pb : Pixel → α)
  | addCopied (dest : RegionRec) (delta : Pixel) (pb : Pixel → α)
  | setCursor (cursor : Cursor α) (late : Bool)
  | setCursorPos (pos : Pixel) (late : Bool)
  | pointerEvent (pos : Pixel)
  | setSupportsLocalCursor (supports : Bool)
  | request (r : BoxRec) (incremental : Bool) (w : Writing)
  | writeFramebufferUpdate (w : Writing)

namespace ViewEvent

variable [DecidableEq α] (screen : BoxRec) (compareFB : Bool)

def run (s : Session α) : ViewEvent α → Session α
  | .addChanged region pb =>
    { s with pb, comparer := { s.comparer with tracker := s.comparer.tracker.addChanged region } }
  | .addCopied dest delta pb =>
    { s with pb, comparer := { s.comparer with tracker := s.comparer.tracker.addCopied dest delta } }
  | .setCursor cursor late => s.setCursor cursor late
  | .setCursorPos pos late => s.setCursorPos pos late
  | .pointerEvent pos => { s with pointerEventPos := pos }
  | .setSupportsLocalCursor supports => s.setSupportsLocalCursor supports
  | .request r incremental w => (s.addRequest r incremental).writeFramebufferUpdate screen compareFB w
  | .writeFramebufferUpdate w => s.writeFramebufferUpdate screen compareFB w

/-- The state in which `writeFramebufferUpdate` is called, if it is. -/
def atWrite (s : Session α) : ViewEvent α → Option (Session α × Writing)
  | .request r incremental w => some (s.addRequest r incremental, w)
  | .writeFramebufferUpdate w => some (s, w)
  | _ => none

end ViewEvent

section

variable [DecidableEq α] (screen : BoxRec) (compareFB : Bool)

/-- The rectangles are those of the regions, and the encoder writes parts of them. -/
structure Writing.Valid (w : Writing) (s : Session α) : Prop where
  compare : CompareRects s.comparer.tracker w.copyRects w.checkRects
  copied : RectsOf (s.prepareUpdate screen compareFB w).getUpdateInfo.2.copied w.copied
  changed : RectsOf (s.prepareUpdate screen compareFB w).getUpdateInfo.2.changed (w.changed.map Prod.fst)
  actual : ∀ rect ∈ w.changed, ∀ actual, rect.2 = some actual → ∀ p, actual.Has p → rect.1.Has p

/-- Changes and copies are inside the screen, and the pixels change as they say. -/
def ViewEvent.Valid (s : Session α) (e : ViewEvent α) : Prop :=
  (∀ s' w, e.atWrite s = some (s', w) → w.Valid screen compareFB s') ∧
  match e with
  | .addChanged region pb => ∀ p, (p ∈ region → screen.Has p) ∧ (p ∉ region → pb p = s.pb p)
  | .addCopied dest delta pb =>
    (∀ p ∈ dest, screen.Has p ∧ screen.Has (p.move (-delta.1) (-delta.2)) ∧
      pb p = s.pb (p.move (-delta.1) (-delta.2))) ∧ ∀ p ∉ dest, pb p = s.pb p
  | _ => True

/-- What the encoder writes of a changed rectangle. -/
def written (rect : BoxRec × Option BoxRec) : BoxRec := rect.2.getD rect.1

/-- The update puts something new at the pixel. -/
def Writing.Sends (w : Writing) (update : UpdateTracker) (p : Pixel) : Prop :=
  p ∈ update.copied ∨ ∃ rect ∈ w.changed, (written rect).Has p

/-- An update that has got past the early return keeps track of the cursor, which is not left where the
client still shows it, and of the copy, of which nothing stays that comes from pixels sent now. -/
structure Writing.Keeps (w : Writing) (s : Session α) : Prop where
  cursor : ∀ p, screen.Has p → s.renderedCursorRect.Has p → ¬ (s.placeCursor w).renderedCursorRect.Has p →
    p ∈ s.updates.changed ∪ s.updates.copied ∨ s.picture p = s.pb p
  copied : ∀ p ∈ s.getUpdateInfo.1.copied, p ∉ s.requested →
    w.Sends s.getUpdateInfo.2 (s.updates.source p) →
    ¬ (s.placeCursor w).renderedCursorRect.Has (s.updates.source p) → s.pb p = s.pb (s.updates.source p)

/-- A full request stays inside the screen and any other within what a region can hold, and updates keep
track of the cursor and of the copy. -/
def ViewEvent.Keeps (s : Session α) (e : ViewEvent α) : Prop :=
  (∀ s' w, e.atWrite s = some (s', w) → s'.requested ≠ ∅ →
    ((s'.prepareUpdate screen compareFB w).updates.isEmpty && !w.needFakeUpdate &&
      !(s'.prepareUpdate screen compareFB w).drawRenderedCursor) = false →
    w.Keeps screen (s'.prepareUpdate screen compareFB w)) ∧
  match e with
  | .request r incremental _ =>
    (incremental = false → ∀ p, r.Has p → screen.Has p) ∧ r.x2 < 2 ^ 15 ∧ r.y2 < 2 ^ 15
  | _ => True

end

/-- Outside the pending regions and the cursor the client shows what the server shows, and a pixel that
is still to be copied is where the copy takes it from. -/
structure ClientAgrees (screen : BoxRec) (s : Session α) : Prop where
  outside : ∀ p, screen.Has p → p ∉ s.updates.changed → p ∉ s.updates.copied → ¬ s.renderedCursorRect.Has p →
    p ∉ s.comparer.tracker.changed ∪ s.comparer.tracker.copied → s.picture p = s.pb p
  copied : ∀ p ∈ s.updates.copied, p ∉ s.updates.changed → ¬ s.renderedCursorRect.Has (s.updates.source p) →
    p ∉ s.comparer.tracker.changed ∪ s.comparer.tracker.copied → s.pb p = s.picture (s.updates.source p)

/-- A server that has just been started for a client. -/
structure NewSession (screen : BoxRec) (s : Session α) : Prop where
  comparer : ∃ oldFb, s.comparer = ComparingUpdateTracker.create screen oldFb
  changed : s.updates.changed = rectRegion screen
  copied : s.updates.copied = ∅
  renderedCursorRect : s.renderedCursorRect = noRect

end Colama.Vnc4

import Colama.Xvnc.CopyRegion

namespace Colama.Xvnc

abbrev Pixel := Int × Int

/-- A region is the set of its pixels. -/
abbrev RegionRec := Finset Pixel

def Pixel.move (p : Pixel) (dx dy : Int) : Pixel := (p.1 + dx, p.2 + dy)

def translate (region : RegionRec) (dx dy : Int) : RegionRec := region.image fun p => Pixel.move p dx dy

def extent (coords : Finset Int) : Int :=
  if h : coords.Nonempty then coords.max' h - coords.min' h + 1 else 0

/-- The area of the smallest rectangle around a region. -/
def extentsArea (region : RegionRec) : Int := extent (region.image Prod.fst) * extent (region.image Prod.snd)

/-- What the server keeps for a client that uses CopyRect. -/
structure ClientRegions where
  modifiedRegion : RegionRec
  copyRegion : RegionRec
  copyDX : Int
  copyDY : Int
  requestedRegion : RegionRec

def rfbCopyRegion (cl : ClientRegions) (src dst : RegionRec) (dx dy : Int) : ClientRegions :=
  let src := src \ cl.modifiedRegion
  let combine (cl : ClientRegions) (src : RegionRec) : ClientRegions :=
    let modifiedRegion := cl.modifiedRegion ∪ dst ∪ cl.copyRegion
    let copyRegion := translate src dx dy ∩ dst
    { cl with
      modifiedRegion := modifiedRegion \ copyRegion
      copyRegion
      copyDX := if copyRegion.Nonempty then cl.copyDX + dx else 0
      copyDY := if copyRegion.Nonempty then cl.copyDY + dy else 0 }
  if cl.copyRegion.Nonempty then
    let tmp := src ∩ cl.copyRegion
    if tmp.Nonempty then combine cl tmp
    else if extentsArea cl.copyRegion > extentsArea src then
      let copyRegion := cl.copyRegion \ dst
      { cl with
        modifiedRegion := cl.modifiedRegion ∪ dst
        copyRegion
        copyDX := if copyRegion.Nonempty then cl.copyDX else 0
        copyDY := if copyRegion.Nonempty then cl.copyDY else 0 }
    else
      combine { cl with
        modifiedRegion := cl.modifiedRegion ∪ cl.copyRegion, copyRegion := ∅, copyDX := 0, copyDY := 0 } src
  else combine cl src

/-- What an update sends: pixels, and copies by `dx`, `dy`. -/
structure Update where
  updateRegion : RegionRec
  updateCopyRegion : RegionRec
  dx : Int
  dy : Int

/-- The first part of `rfbSendFramebufferUpdate`, up to where it sends; `sendCursor` if it will send a
shape or a position of the cursor. -/
def takeUpdate (cl : ClientRegions) (sendCursor : Bool) : ClientRegions × Option Update :=
  let copyRegion := cl.copyRegion \ cl.modifiedRegion
  let updateRegion := cl.requestedRegion ∩ (copyRegion ∪ cl.modifiedRegion)
  if ¬ updateRegion.Nonempty ∧ sendCursor = false then ({ cl with copyRegion }, none)
  else
    let updateCopyRegion := (copyRegion ∩ cl.requestedRegion) ∩ translate cl.requestedRegion cl.copyDX cl.copyDY
    let updateRegion := updateRegion \ updateCopyRegion
    ({ modifiedRegion := ((cl.modifiedRegion ∪ copyRegion) \ updateRegion) \ updateCopyRegion
       copyRegion := ∅, copyDX := 0, copyDY := 0, requestedRegion := ∅ },
      some { updateRegion, updateCopyRegion, dx := cl.copyDX, dy := cl.copyDY })

/-- What a FramebufferUpdateRequest does to the regions, before an update is sent. -/
def addRequest (cl : ClientRegions) (incremental : Bool) (region : RegionRec) : ClientRegions :=
  if incremental then { cl with requestedRegion := cl.requestedRegion ∪ region }
  else
    { cl with
      requestedRegion := cl.requestedRegion ∪ region
      modifiedRegion := cl.modifiedRegion ∪ region
      copyRegion := cl.copyRegion \ region }

/-- `FB_UPDATE_PENDING`, with `cursorPending` for what concerns the cursor. -/
def updatePending (cl : ClientRegions) (cursorPending : Bool) : Bool :=
  cursorPending || decide cl.copyRegion.Nonempty || decide cl.modifiedRegion.Nonempty

structure BoxRec where
  x1 : Int
  y1 : Int
  x2 : Int
  y2 : Int

def BoxRec.Has (box : BoxRec) (p : Pixel) : Prop := box.x1 ≤ p.1 ∧ p.1 < box.x2 ∧ box.y1 ≤ p.2 ∧ p.2 < box.y2

instance (box : BoxRec) (p : Pixel) : Decidable (box.Has p) := by
  unfold BoxRec.Has
  infer_instance

/-- Rectangles as a region keeps them: in bands from top to bottom, from left to right in a band. -/
def Banded (boxes : List BoxRec) : Prop :=
  boxes.Pairwise fun b c => b.y1 = c.y1 ∧ b.y2 = c.y2 ∧ b.x2 ≤ c.x1 ∨ b.y1 < c.y1 ∧ b.y2 ≤ c.y1

variable {α : Type*}

/-- A CopyRect rectangle on the client, which takes all its pixels before it puts one. -/
def copyRect (client : Pixel → α) (box : BoxRec) (dx dy : Int) : Pixel → α := fun p =>
  if box.Has p then client (p.move (-dx) (-dy)) else client p

/-- Both pictures, and what the server knows about that of the client. -/
structure System (α : Type*) where
  server : Pixel → α
  client : Pixel → α
  regions : ClientRegions

/-- The client applies the copies in the order they are sent, and then the pixels. -/
def applyUpdate (s : System α) (update : Update) (boxes : List BoxRec) : Pixel → α :=
  let client := (rfbSendCopyRegion BoxRec.y1 boxes update.dx update.dy).foldl
    (fun client box => copyRect client box update.dx update.dy) s.client
  fun p => if p ∈ update.updateRegion then s.server p else client p

/-- A drawing operation that changes pixels of `region`. -/
def draw (s : System α) (region : RegionRec) (pixels : Pixel → α) : System α :=
  { s with
    server := pixels
    regions := { s.regions with modifiedRegion := s.regions.modifiedRegion ∪ region } }

/-- What the cursor adds to an update: the pixels that change as it is put up or removed, and the
pseudo-rectangles. A shape that is too large for the buffer makes the update end there. -/
structure CursorUpdate (α : Type*) where
  sprite : RegionRec
  pixels : Pixel → α
  sendShape : Bool
  shapeFits : Bool
  sendPos : Bool

def CursorUpdate.sends (cursor : CursorUpdate α) : Bool := cursor.sendShape || cursor.sendPos

/-- `rfbSendFramebufferUpdate` once the cursor is drawn, with the rectangles of the region that is copied. -/
def sendUpdate (s : System α) (cursor : CursorUpdate α) (boxes : List BoxRec) : System α :=
  match takeUpdate s.regions cursor.sends with
  | (regions, none) => { s with regions }
  | (regions, some update) =>
    if cursor.sendShape && !cursor.shapeFits then { s with regions }
    else { s with regions, client := applyUpdate s update boxes }

inductive Event (α : Type*)
  | draw (region : RegionRec) (pixels : Pixel → α)
  /-- A copy on the screen. Where the source of a pixel is not in `src` anything may appear. -/
  | copy (src dst : RegionRec) (dx dy : Int) (pixels : Pixel → α)
  | request (incremental : Bool) (region : RegionRec) (cursorPending : Bool) (cursor : CursorUpdate α)
    (boxes : List BoxRec)
  /-- The deferred update. -/
  | update (cursor : CursorUpdate α) (boxes : List BoxRec)

/-- The state from which an update is sent, if one is. -/
def Event.atSend (s : System α) : Event α → Option (System α × CursorUpdate α × List BoxRec)
  | .draw .. | .copy .. => none
  | .request incremental region cursorPending cursor boxes =>
    let s := { s with regions := addRequest s.regions incremental region }
    if updatePending s.regions cursorPending then
      some (Xvnc.draw s cursor.sprite cursor.pixels, cursor, boxes)
    else none
  | .update cursor boxes => some (Xvnc.draw s cursor.sprite cursor.pixels, cursor, boxes)

def Event.run (s : System α) (e : Event α) : System α :=
  match e.atSend s with
  | some (s, cursor, boxes) => sendUpdate s cursor boxes
  | none =>
    match e with
    | .draw region pixels => Xvnc.draw s region pixels
    | .copy src dst dx dy pixels => { s with server := pixels, regions := rfbCopyRegion s.regions src dst dx dy }
    | .request incremental region .. => { s with regions := addRequest s.regions incremental region }
    | .update .. => s

/-- The rectangles are those of the region that an update sent now would copy. -/
def BoxesOf (regions : ClientRegions) (sendCursor : Bool) (boxes : List BoxRec) : Prop :=
  ∀ update, (takeUpdate regions sendCursor).2 = some update →
    Banded boxes ∧ ∀ p, p ∈ update.updateCopyRegion ↔ ∃ box ∈ boxes, box.Has p

/-- The pixels change as the event says, and the rectangles are those of the region. -/
def Event.Valid (s : System α) (e : Event α) : Prop :=
  (∀ s' cursor boxes, e.atSend s = some (s', cursor, boxes) →
    (∀ p ∉ cursor.sprite, cursor.pixels p = s.server p) ∧ BoxesOf s'.regions cursor.sends boxes) ∧
  match e with
  | .draw region pixels => ∀ p ∉ region, pixels p = s.server p
  | .copy src dst dx dy pixels => (∀ p ∉ dst, pixels p = s.server p) ∧
      ∀ p ∈ dst, p.move (-dx) (-dy) ∈ src → pixels p = s.server (p.move (-dx) (-dy))
  | .request .. | .update .. => True

/-- The client and what the server knows about it agree with what the server shows. -/
structure Consistent (s : System α) : Prop where
  outside : ∀ p, p ∉ s.regions.modifiedRegion → p ∉ s.regions.copyRegion → s.client p = s.server p
  copied : ∀ p ∈ s.regions.copyRegion, p ∉ s.regions.modifiedRegion →
    s.server p = s.client (p.move (-s.regions.copyDX) (-s.regions.copyDY))
  delta : s.regions.copyRegion = ∅ → s.regions.copyDX = 0 ∧ s.regions.copyDY = 0
  same : s.regions.modifiedRegion = ∅ → s.regions.copyRegion = ∅ → s.client = s.server

/-- The early return of `rfbSendFramebufferUpdate` with nothing left of a copy that was drawn over. -/
def LosesCopy (regions : ClientRegions) (sendCursor : Bool) : Prop :=
  regions.copyRegion.Nonempty ∧ regions.copyRegion ⊆ regions.modifiedRegion ∧
    (regions.copyDX ≠ 0 ∨ regions.copyDY ≠ 0) ∧
    Disjoint regions.requestedRegion regions.modifiedRegion ∧ sendCursor = false

/-- The update that the event sends does not stop at the shape of the cursor, nor before it with
nothing left of a copy. -/
def Event.Keeps (s : System α) (e : Event α) : Prop :=
  ∀ s' cursor boxes, e.atSend s = some (s', cursor, boxes) →
    ¬ LosesCopy s'.regions cursor.sends ∧ (cursor.sendShape = true → cursor.shapeFits = true)

/-- A client that has just connected: all of the screen is to be sent. -/
structure NewClient (s : System α) : Prop where
  copyRegion : s.regions.copyRegion = ∅
  copyDX : s.regions.copyDX = 0
  copyDY : s.regions.copyDY = 0
  requestedRegion : s.regions.requestedRegion = ∅
  screen : ∀ p ∉ s.regions.modifiedRegion, s.client p = s.server p

end Colama.Xvnc

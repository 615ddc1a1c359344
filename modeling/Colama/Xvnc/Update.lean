import Colama.Xvnc.Tight
import Colama.Xvnc.CopyRegion

namespace Colama.Xvnc

/-- A rectangle of a region. It is not empty, and the coordinates have 16 bits. -/
structure Box where
  x1 : Nat
  y1 : Nat
  x2 : Nat
  y2 : Nat
  hx : x1 < x2
  hy : y1 < y2
  hx2 : x2 < 2 ^ 16
  hy2 : y2 < 2 ^ 16

def Box.w (box : Box) : Nat := box.x2 - box.x1
def Box.h (box : Box) : Nat := box.y2 - box.y1

theorem Box.w_pos (box : Box) : 0 < box.w := Nat.sub_pos_of_lt box.hx

theorem Box.h_pos (box : Box) : 0 < box.h := Nat.sub_pos_of_lt box.hy

inductive PreferredEncoding
  | raw | rre | coRRE | hextile | zlib | tight
  deriving DecidableEq

structure Client extends TightClient where
  preferredEncoding : PreferredEncoding
  correMaxWidth : Nat := 48
  correMaxHeight : Nat := 48
  correMaxWidth_pos : 0 < correMaxWidth := by decide
  correMaxHeight_pos : 0 < correMaxHeight := by decide
  /-- `format.bitsPerPixel / 8` -/
  bytesPerPixel : Nat
  useRichCursorEncoding : Bool

structure Cursor where
  width : Nat
  height : Nat
  xhot : Nat
  yhot : Nat

/-- The framebuffer, and what the encoders make of it: `rreTooLarge` where the subrectangles of RRE and
CoRRE would take more than the pixels. A cursor of one transparent pixel counts as none. -/
structure Screen (α : Type*) where
  fb : Nat → Nat → α
  bytesPerPixel : Nat
  rreTooLarge : Nat → Nat → Nat → Nat → Bool
  cursor : Option Cursor

inductive Status
  | sent
  /-- The function returns `FALSE` and leaves the connection open. -/
  | refused
  /-- The function returns `FALSE` after `rfbCloseSock`. -/
  | closed
  deriving DecidableEq

/-- The headers that a function has put into the stream, with what became of it. -/
structure Sent where
  headers : List RectHeader := []
  status : Status := .sent

def Sent.andThen (a b : Sent) : Sent :=
  if a.status = .sent then { headers := a.headers ++ b.headers, status := b.status } else a

def sendEach {β : Type*} (send : β → Sent) : List β → Sent
  | [] => {}
  | b :: bs => (send b).andThen (sendEach send bs)

def UPDATE_BUF_SIZE : Nat := 30000
def sz_rfbFramebufferUpdateRectHeader : Nat := 12
def sz_rfbXCursorColors : Nat := 6

/-- After the lines that fit behind the header the others go into buffers of their own. -/
def rfbSendRectEncodingRaw (cl : Client) (x y w h : Nat) : Sent :=
  let bytesPerLine := w * cl.bytesPerPixel
  let nlines := (UPDATE_BUF_SIZE - sz_rfbFramebufferUpdateRectHeader) / bytesPerLine
  { headers := [⟨x, y, w, h, .raw⟩]
    status := if h ≤ nlines then .sent else if UPDATE_BUF_SIZE / bytesPerLine = 0 then .closed else .sent }

section Screen

variable {α : Type*} [DecidableEq α] (cl : Client) (screen : Screen α)

def rfbSendRectEncodingRRE (x y w h : Nat) : Sent :=
  if screen.rreTooLarge x y w h then rfbSendRectEncodingRaw cl x y w h
  else { headers := [⟨x, y, w, h, .rre⟩] }

def rfbSendSmallRectEncodingCoRRE (x y w h : Nat) : Sent :=
  if screen.rreTooLarge x y w h then rfbSendRectEncodingRaw cl x y w h
  else { headers := [⟨x, y, w, h, .coRRE⟩] }

def rfbSendRectEncodingCoRRE (x y w h : Nat) : Sent :=
  if h > cl.correMaxHeight then
    (rfbSendRectEncodingCoRRE x y w cl.correMaxHeight).andThen
      (rfbSendRectEncodingCoRRE x (y + cl.correMaxHeight) w (h - cl.correMaxHeight))
  else if w > cl.correMaxWidth then
    (rfbSendRectEncodingCoRRE x y cl.correMaxWidth h).andThen
      (rfbSendRectEncodingCoRRE (x + cl.correMaxWidth) y (w - cl.correMaxWidth) h)
  else rfbSendSmallRectEncodingCoRRE cl screen x y w h
termination_by w + h
decreasing_by
  all_goals
    have := cl.correMaxHeight_pos
    have := cl.correMaxWidth_pos
    omega

def rfbSendRectEncodingHextile (x y w h : Nat) : Sent := { headers := [⟨x, y, w, h, .hextile⟩] }

def VNC_ENCODE_ZLIB_MIN_COMP_SIZE : Nat := 17
def ZLIB_MAX_RECT_SIZE : Nat := 128 * 256
def ZLIB_MAX_SIZE (min : Nat) : Nat := if min * 2 > ZLIB_MAX_RECT_SIZE then min * 2 else ZLIB_MAX_RECT_SIZE

def rfbSendOneRectEncodingZlib (x y w h : Nat) : Sent :=
  if w * h * screen.bytesPerPixel < VNC_ENCODE_ZLIB_MIN_COMP_SIZE then rfbSendRectEncodingRaw cl x y w h
  else { headers := [⟨x, y, w, h, .zlib⟩] }

theorem ZLIB_MAX_SIZE_div_pos {w : Nat} (hw : 0 < w) : 0 < ZLIB_MAX_SIZE w / w := by
  apply Nat.div_pos _ hw
  unfold ZLIB_MAX_SIZE ZLIB_MAX_RECT_SIZE
  split <;> omega

/-- The loop of `rfbSendRectEncodingZlib`. -/
def zlibLoop (maxLines : Nat) (hmax : 0 < maxLines) (x y w linesRemaining : Nat) : Sent :=
  if linesRemaining > 0 then
    let linesToComp := if maxLines < linesRemaining then maxLines else linesRemaining
    (rfbSendOneRectEncodingZlib cl screen x y w linesToComp).andThen
      (zlibLoop maxLines hmax x (y + linesToComp) w (linesRemaining - linesToComp))
  else {}
termination_by linesRemaining
decreasing_by
  split <;> omega

def rfbSendRectEncodingZlib (x y w h : Nat) (hw : 0 < w) : Sent :=
  zlibLoop cl screen (ZLIB_MAX_SIZE w / w) (ZLIB_MAX_SIZE_div_pos hw) x y w h

def rfbSendRect (box : Box) : Sent :=
  match cl.preferredEncoding with
  | .raw => rfbSendRectEncodingRaw cl box.x1 box.y1 box.w box.h
  | .rre => rfbSendRectEncodingRRE cl screen box.x1 box.y1 box.w box.h
  | .coRRE => rfbSendRectEncodingCoRRE cl screen box.x1 box.y1 box.w box.h
  | .hextile => rfbSendRectEncodingHextile box.x1 box.y1 box.w box.h
  | .zlib => rfbSendRectEncodingZlib cl screen box.x1 box.y1 box.w box.h box.w_pos
  | .tight =>
    { headers := (rfbSendRectEncodingTight screen.fb cl.toTightClient (box.w + box.h + 1)
        box.x1 box.y1 box.w box.h).getD [] }

/-- A shape that does not fit into the buffer is not sent, when the header of the message already is. -/
def rfbSendCursorShape : Sent :=
  let encoding := if cl.useRichCursorEncoding then .richCursor else .xCursor
  match screen.cursor with
  | none => { headers := [⟨0, 0, 0, 0, encoding⟩] }
  | some cursor =>
    let bitmapRowBytes := (cursor.width + 7) / 8
    let maskBytes := bitmapRowBytes * cursor.height
    let dataBytes := if cl.useRichCursorEncoding then cursor.width * cursor.height * cl.bytesPerPixel else maskBytes
    if sz_rfbFramebufferUpdateRectHeader + sz_rfbXCursorColors + maskBytes + dataBytes > UPDATE_BUF_SIZE then
      { status := .refused }
    else { headers := [⟨cursor.xhot, cursor.yhot, cursor.width, cursor.height, encoding⟩] }

def rfbSendCursorPos (x y : Nat) : Sent := { headers := [⟨x, y, 0, 0, .pointerPos⟩] }

def rfbSendLastRectMarker : Sent := { headers := [⟨0, 0, 0, 0, .lastRect⟩] }

end Screen

/-- The sum of two ints. -/
def intAdd (a b : Int) : Int := Int.bmod (a + b) (2 ^ 32)

/-- The loop that counts for Tight, which stops at a rectangle of unknown number. -/
def countTight (cl : Client) : Int → List Box → Int
  | n, [] => n
  | n, box :: boxes =>
    if rfbNumCodedRectsTight cl.toTightClient box.w box.h = 0 then 0xFFFF
    else countTight cl (intAdd n (rfbNumCodedRectsTight cl.toTightClient box.w box.h)) boxes

def nUpdateRegionRects (cl : Client) (boxes : List Box) : Int :=
  match cl.preferredEncoding with
  | .coRRE => boxes.foldl (fun n box =>
      intAdd n (intMul ((box.w - 1) / cl.correMaxWidth + 1) ((box.h - 1) / cl.correMaxHeight + 1))) 0
  | .zlib => boxes.foldl (fun n box => intAdd n ((box.h - 1) / (ZLIB_MAX_SIZE box.w / box.w) + 1 : Nat)) 0
  | .tight => countTight cl 0 boxes
  | _ => Int.bmod boxes.length (2 ^ 32)

/-- What is to be sent besides the pixels. -/
structure UpdateExtras where
  sendCursorShape : Bool
  sendCursorPos : Bool
  cursorX : Nat
  cursorY : Nat
  copyRects : List Box
  dx : Int
  dy : Int

structure Message where
  nRects : Nat
  sent : Sent

/-- The second part of `rfbSendFramebufferUpdate`, which sends what the first part has found. -/
def rfbSendFramebufferUpdate {α : Type*} [DecidableEq α] (cl : Client) (screen : Screen α)
    (extras : UpdateExtras) (updateRects : List Box) : Message :=
  let n := nUpdateRegionRects cl updateRects
  { nRects :=
      if n ≠ 0xFFFF then
        ((extras.copyRects.length + n + extras.sendCursorShape.toNat + extras.sendCursorPos.toNat) % 2 ^ 16).toNat
      else 0xFFFF
    sent :=
      (if extras.sendCursorShape then rfbSendCursorShape cl screen else {}).andThen <|
      (if extras.sendCursorPos then rfbSendCursorPos extras.cursorX extras.cursorY else {}).andThen <|
      (sendEach (fun box => { headers := [⟨box.x1, box.y1, box.w, box.h, .copyRect⟩] })
        (rfbSendCopyRegion (fun box : Box => (box.y1 : Int)) extras.copyRects extras.dx extras.dy)).andThen <|
      (sendEach (rfbSendRect cl screen) updateRects).andThen <|
      if n = 0xFFFF then rfbSendLastRectMarker else {} }

/-- The field is the number of the rectangles, or says that a marker ends them, to a client that knows it. -/
def Message.Counted (cl : Client) (message : Message) : Prop :=
  (message.nRects = message.sent.headers.length ∧ ∀ hdr ∈ message.sent.headers, hdr.encoding ≠ .lastRect) ∨
  (message.nRects = 0xFFFF ∧ cl.enableLastRectEncoding = true ∧
    ∃ hdrs, message.sent.headers = hdrs ++ [⟨0, 0, 0, 0, .lastRect⟩] ∧ ∀ hdr ∈ hdrs, hdr.encoding ≠ .lastRect)

end Colama.Xvnc

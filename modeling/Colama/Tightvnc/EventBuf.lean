import Colama.Tightvnc.Modifiers

namespace Colama.Tightvnc

/-- The bytes of a message. -/
def Msg.size : Msg → Nat
  | .key _ _ => 8
  | .pointer _ _ _ => 6

/-- The size of `eventBuf`. -/
def eventBufSize : Nat := 80

def eventBufLen (msgs : List Msg) : Nat := (msgs.map Msg.size).sum

/-- The viewer with its special keys panel. The messages of `keys` are those that are in `eventBuf`, and
`written` is what has been in it at each write: what does not fit would have thrown, and is counted. -/
structure Viewer where
  keys : State
  transposeRightMods : Bool
  boxes : Modifier → Bool
  written : List (List Msg)

/-- The write of an event that throws an `IOException`. -/
inductive OsWrite
  | fakePress | first | second
  deriving DecidableEq

namespace Viewer

/-- `eventBufLen = 0`, what is put into `eventBuf`, and its write. The other result is the viewer as the
exception leaves it. -/
def batch (put : State → State) (throws : Bool) (v : Viewer) : Except Viewer Viewer :=
  let keys := put { v.keys with os := [] }
  let v := { v with keys, written := v.written ++ [keys.os] }
  if throws then .error v else .ok v

def setOldModifiers (oldModifiers : Mask) (v : Viewer) : Viewer := { v with keys := { v.keys with oldModifiers } }

def setLastAltPressed (lastAltPressed : Int) (v : Viewer) : Viewer :=
  { v with keys := { v.keys with lastAltPressed } }

/-- The check boxes of the panel. -/
def panelBoxes : List Modifier := [.altR, .altL, .ctrlR, .ctrlL, .shiftR, .shiftL, .windows]

def getModifier (boxes : Modifier → Bool) : Mask :=
  panelBoxes.foldl (fun menuModifier b => if boxes b then menuModifier ||| b.mask else menuModifier) 0

def toggle (v : Viewer) (b : Modifier) : Viewer := { v with boxes := Function.update v.boxes b (!v.boxes b) }

/-- `resetAll`, which showing and hiding the panel both call. -/
def resetAll (v : Viewer) : Viewer := { v with boxes := fun _ => false }

/-- The panel is left after a key. -/
def hideSplKeysMenu (v : Viewer) : Viewer :=
  { v.resetAll with keys := { v.keys with useMenuModifiers := false, winkey := 0 } }

/-- The button that closes the panel. -/
def close (v : Viewer) : Viewer := v.hideSplKeysMenu.setOldModifiers 0

/-- The check box of a modifier key. -/
def modifierBox : KeyLocation → KeyCode → Option Modifier
  | .left, .vkControl => some .ctrlL
  | .left, .vkShift => some .shiftL
  | .left, .vkAlt => some .altL
  | .right, .vkControl => some .ctrlR
  | .right, .vkShift => some .shiftR
  | .right, .vkAlt => some .altR
  | _, _ => none

/-- What the panel makes of a key that has no character, if it is the Windows key or has a box. -/
def panelKey (v : Viewer) (evt : KeyEvent) : Option Viewer :=
  if evt.keyChar = charUndefined ∧ v.keys.useMenuModifiers ∧ ¬(evt.keyPressed ∧ ¬evt.keyCode.isActionKey) then
    if evt.keyCode = .vkWindows then some (if evt.keyReleased then v.toggle .windows else v)
    else (modifierBox evt.keyLoc evt.keyCode).map v.toggle
  else none

def setBrokenKeyPressed (brokenKeyPressed : Bool) (v : Viewer) : Viewer :=
  { v with keys := { v.keys with brokenKeyPressed } }

/-- The press that is faked for a release without one. -/
def writeFakedPress (evt : KeyEvent) (keySym : Nat) (throws : Bool) (v : Viewer) : Except Viewer Viewer :=
  if evt.keyReleased && !v.keys.brokenKeyPressed then
    v.batch (fun s => (s.writeModifierKeyEvents (evt.keyMod ||| winMask s.winkey)).writeKey keySym true) throws
  else .ok v

/-- The press of a key that only reports its release is faked. -/
def fakeKeyPress (evt : KeyEvent) (keySym : Nat) (throws : Bool) (v : Viewer) : Except Viewer Viewer :=
  if keySym ∈ fakedKeySyms then
    (writeFakedPress evt keySym throws (if evt.keyPressed then v.setBrokenKeyPressed true else v)).map fun v =>
      if evt.keyReleased then v.setBrokenKeyPressed false else v
  else .ok v

/-- A key that is typed while the panel is shown. -/
def panelType (evt : KeyEvent) (isEscape : Bool) (keySym : Nat) (throws : Option OsWrite) (v : Viewer) :
    Except Viewer Viewer :=
  if evt.keyReleased then
    let keyMod := getModifier v.boxes
    let v := v.setOldModifiers 0
    if isEscape && keyMod = 0 then .ok v.hideSplKeysMenu
    else do
      let v ← v.batch (fun s => (s.writeModifierKeyEvents keyMod).writeKey keySym true) (throws = some .first)
      let v ← v.batch
        (fun s => ((s.writeModifierKeyEvents keyMod).writeKey keySym false).writeModifierKeyEvents 0)
        (throws = some .second)
      .ok v.hideSplKeysMenu
  else .ok v

/-- `writeKeyEvent(KeyEvent)`, of a key whose code may be that of Escape. -/
def writeKeyEvent (evt : KeyEvent) (isEscape : Bool) (throws : Option OsWrite) (v : Viewer) : Except Viewer Viewer :=
  match v.panelKey evt with
  | some v => .ok v
  | none =>
    match eventAction v.transposeRightMods v.keys evt with
    | .ignore => .ok v
    | .winPressed => .ok { v with keys := { v.keys with winkey := 1 } }
    | .showSplKeysMenu => v.resetAll.batch initilizeModifierMenu (throws = some .first)
    | .releaseModifier b keyMod => do
      let released := decide (evt.keyCode = .vkAlt) && evt.keyReleased
      let v ← (if released then v.setLastAltPressed evt.currentTimeMillis else v).batch
        (fun s => (s.writeModifierKeyEvents keyMod).writeKey (keySymOf b) false) (throws = some .first)
      .ok (v.setOldModifiers (v.keys.oldModifiers &&& ~~~keyMod))
    | .sendKey keySym winkey => do
      let v ← fakeKeyPress evt keySym (throws = some .fakePress) { v with keys := { v.keys with winkey } }
      if v.keys.useMenuModifiers then panelType evt isEscape keySym throws v
      else v.batch (sendKeyEvent evt keySym) (throws = some .first)

/-- What a mouse event puts into `eventBuf`. -/
def putPointer (pointerMask : Nat) (evt : MouseEvent) (s : State) : State :=
  let s := { s with pointerMask }.writeModifierKeyEvents (mouseModifiers evt)
  let s := s.send (.pointer pointerMask (evt.x.toNat % 65536) (evt.y.toNat % 65536))
  if pointerMask = 0 then s.writeModifierKeyEvents 0 else s

def writePointerEvent (reverseMouseButtons2And3 : Bool) (evt : MouseEvent) (throws : Option OsWrite) (v : Viewer) :
    Except Viewer Viewer := do
  let pointerMask := newPointerMask reverseMouseButtons2And3 v.keys evt
  let v ← v.batch (putPointer pointerMask evt) (throws = some .first)
  .ok (if pointerMask = 8 ∨ pointerMask = 16 then { v with keys := { v.keys with pointerMask := 0 } } else v)

def releaseKeys (bs : List Modifier) (s : State) : State := bs.foldl (fun s b => s.writeKey b.keySym false) s

def sendFakeModifiersRelease (throws : Option OsWrite) (v : Viewer) : Except Viewer Viewer := do
  let v ← v.batch (releaseKeys [.ctrlL, .shiftL, .altL, .windows]) (throws = some .first)
  let v ← v.batch (releaseKeys [.ctrlR, .shiftR, .altR]) (throws = some .second)
  .ok (v.setOldModifiers 0)

/-- An event of the viewer, and which of its writes throws. The escape key is one of the other key codes. -/
inductive Input
  | key (evt : KeyEvent) (isEscape : Bool) (throws : Option OsWrite)
  | mouse (evt : MouseEvent) (throws : Option OsWrite)
  | box (b : Modifier)
  | transposeRightMods
  | close
  | sendFakeModifiersRelease (throws : Option OsWrite)

/-- What is left of an event: an exception is printed, and the viewer goes on. -/
def caught : Except Viewer Viewer → Viewer
  | .ok v => v
  | .error v => v

def handle (reverseMouseButtons2And3 : Bool) (v : Viewer) : Input → Viewer
  | .key evt isEscape throws => caught (v.writeKeyEvent evt isEscape throws)
  | .mouse evt throws => caught (v.writePointerEvent reverseMouseButtons2And3 evt throws)
  | .box b => v.toggle b
  | .transposeRightMods => { v with transposeRightMods := !v.transposeRightMods }
  | .close => v.close
  | .sendFakeModifiersRelease throws => caught (v.sendFakeModifiersRelease throws)

end Viewer

end Colama.Tightvnc

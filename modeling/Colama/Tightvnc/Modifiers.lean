import Mathlib.Tactic

namespace Colama.Tightvnc

/-- The modifiers with a bit in a mask and a keysym, in the order in which they are written. -/
inductive Modifier
  | windows | ctrlL | shiftL | metaL | altL | ctrlR | shiftR | altR | metaR
  deriving DecidableEq

abbrev Mask := BitVec 32

def Modifier.bit : Modifier → Nat
  | .shiftL => 0
  | .ctrlL => 1
  | .metaL => 2
  | .altL => 3
  | .windows => 14
  | .ctrlR => 15
  | .shiftR => 16
  | .altR => 17
  | .metaR => 18

def Modifier.mask (b : Modifier) : Mask := BitVec.twoPow 32 b.bit

def Modifier.keySym : Modifier → Nat
  | .windows => 0xffeb
  | .ctrlL => 0xffe3
  | .shiftL => 0xffe1
  | .metaL => 0xffe7
  | .altL => 0xffe9
  | .ctrlR => 0xffe4
  | .shiftR => 0xffe2
  | .altR => 0xffea
  | .metaR => 0xffe8

def modifierOrder : List Modifier :=
  [.windows, .ctrlL, .shiftL, .metaL, .altL, .ctrlR, .shiftR, .altR, .metaR]

inductive KeyCode
  | vkControl | vkShift | vkAlt | vkMeta | vkWindows
  | vkHome | vkLeft | vkUp | vkRight | vkDown | vkPageUp | vkPageDown | vkEnd | vkInsert
  | vkF1 | vkF2 | vkF3 | vkF4 | vkF5 | vkF6 | vkF7 | vkF8 | vkF9 | vkF10 | vkF11 | vkF12
  | vkScrollLock | vkPrintScreen | vkPause | vkCapsLock | vkNumLock
  | other (isActionKey : Bool)
  deriving DecidableEq

def KeyCode.isActionKey : KeyCode → Bool
  | .vkControl | .vkShift | .vkAlt | .vkMeta => false
  | .other isActionKey => isActionKey
  | _ => true

def actionKeySym : KeyCode → Option Nat
  | .vkHome => some 0xff50
  | .vkLeft => some 0xff51
  | .vkUp => some 0xff52
  | .vkRight => some 0xff53
  | .vkDown => some 0xff54
  | .vkPageUp => some 0xff55
  | .vkPageDown => some 0xff56
  | .vkEnd => some 0xff57
  | .vkInsert => some 0xff63
  | .vkF1 => some 0xffbe
  | .vkF2 => some 0xffbf
  | .vkF3 => some 0xffc0
  | .vkF4 => some 0xffc1
  | .vkF5 => some 0xffc2
  | .vkF6 => some 0xffc3
  | .vkF7 => some 0xffc4
  | .vkF8 => some 0xffc5
  | .vkF9 => some 0xffc6
  | .vkF10 => some 0xffc7
  | .vkF11 => some 0xffc8
  | .vkF12 => some 0xffc9
  | .vkScrollLock => some 0xff14
  | .vkPrintScreen => some 0xff61
  | .vkPause => some 0xff13
  | .vkCapsLock => some 0xffe5
  | .vkNumLock => some 0xff7f
  | _ => none

inductive KeyId
  | keyPressed | keyReleased | keyTyped
  deriving DecidableEq

inductive KeyLocation
  | left | right | other
  deriving DecidableEq

def charUndefined : Fin 65536 := 65535

/-- A key event of AWT, with the six bits of its modifiers and the time at which it is handled. -/
structure KeyEvent where
  id : KeyId
  keyCode : KeyCode
  keyChar : Fin 65536
  keyLoc : KeyLocation
  modifiers : BitVec 6
  currentTimeMillis : Int

def KeyEvent.keyMod (evt : KeyEvent) : Mask := evt.modifiers.setWidth 32

def KeyEvent.keyPressed (evt : KeyEvent) : Bool := evt.id = .keyPressed

def KeyEvent.keyReleased (evt : KeyEvent) : Bool := evt.id = .keyReleased

def KeyEvent.isControlDown (evt : KeyEvent) : Bool := evt.keyMod &&& Modifier.ctrlL.mask ≠ 0

inductive MouseId
  | mousePressed | mouseReleased | mouseWheel (rotation : Int) | other
  deriving DecidableEq

structure MouseEvent where
  id : MouseId
  modifiers : BitVec 6
  x : Int
  y : Int

inductive Msg
  | key (keySym : Nat) (down : Bool)
  | pointer (pointerMask x y : Nat)
  deriving DecidableEq

/-- The viewer's own state, and all the key and pointer events that it has sent. -/
structure State where
  oldModifiers : Mask
  winkey : Nat
  brokenKeyPressed : Bool
  useMenuModifiers : Bool
  lastAltPressed : Int
  pointerMask : Nat
  os : List Msg

def State.send (s : State) (msg : Msg) : State := { s with os := s.os ++ [msg] }

def State.writeKey (s : State) (keySym : Nat) (down : Bool) : State := s.send (.key keySym down)

def State.writeModifier (newModifiers : Mask) (s : State) (b : Modifier) : State :=
  if newModifiers &&& b.mask ≠ s.oldModifiers &&& b.mask then s.writeKey b.keySym (newModifiers &&& b.mask ≠ 0) else s

def State.writeModifierKeyEvents (s : State) (newModifiers : Mask) : State :=
  { modifierOrder.foldl (State.writeModifier newModifiers) s with oldModifiers := newModifiers }

section Viewer

variable (transposeRightMods reverseMouseButtons2And3 : Bool)

/-- The modifier whose key it is: what its release is sent as. -/
def modifierKey : KeyLocation → KeyCode → Option Modifier
  | .left, .vkMeta => some .metaL
  | .left, .vkControl => some .ctrlL
  | .left, .vkShift => some .shiftL
  | .left, .vkAlt => some .altL
  | .right, .vkMeta => some .metaR
  | .right, .vkControl => some (if transposeRightMods then .ctrlL else .ctrlR)
  | .right, .vkShift => some (if transposeRightMods then .shiftL else .shiftR)
  | .right, .vkAlt => some (if transposeRightMods then .altL else .altR)
  | _, _ => none

def maskOf (b : Option Modifier) : Mask := b.elim 0 Modifier.mask

def keySymOf (b : Option Modifier) : Nat := b.elim 0 Modifier.keySym

/-- The keysym of a key that is not an action key, if it has one. -/
def normalKeySym (evt : KeyEvent) : Option Nat :=
  let keyChar := evt.keyChar.val
  if keyChar < 0x20 then
    if evt.isControlDown then some (keyChar + 0x60)
    else
      match keyChar with
      | 8 => some 0xff08
      | 9 => some 0xff09
      | 10 => some 0xff0d
      | 27 => some 0xff1b
      | _ => some keyChar
  else if keyChar = 0x7f then some 0xffff
  else if keyChar > 0xff then
    if (keyChar < 0xff00 ∨ keyChar > 0xffff) ∧ ¬(keyChar ≥ 0x20a0 ∧ keyChar ≤ 0x20af) then none else some keyChar
  else some keyChar

/-- The keys of which only the release may be reported. -/
def fakedKeySyms : List Nat := [0xe5, 0xc5, 0xe4, 0xc4, 0xf6, 0xd6, 0xa7, 0xbd, 0xa3]

/-- What a key event comes to, before anything is written. -/
inductive KeyAction
  | ignore
  | winPressed
  | showSplKeysMenu
  | releaseModifier (b : Option Modifier) (keyMod : Mask)
  | sendKey (keySym winkey : Nat)
  deriving DecidableEq

def winMask (winkey : Nat) : Mask := if winkey = 1 then Modifier.windows.mask else 0

/-- The keys that are not modifiers, and the Windows key. -/
def keyAction (s : State) (evt : KeyEvent) : KeyAction :=
  if evt.keyCode.isActionKey then
    if evt.keyCode = .vkWindows then
      if evt.keyPressed then .winPressed
      else if evt.keyReleased then .sendKey 0 (if s.winkey = 1 then 2 else 0)
      else .sendKey 0 s.winkey
    else
      match actionKeySym evt.keyCode with
      | none => .ignore
      | some keySym => .sendKey keySym s.winkey
  else
    match normalKeySym evt with
    | none => .ignore
    | some keySym => .sendKey keySym s.winkey

def eventAction (s : State) (evt : KeyEvent) : KeyAction :=
  if evt.keyChar = charUndefined then
    if evt.keyPressed && !evt.keyCode.isActionKey then .ignore
    else if evt.keyCode = .vkAlt && evt.keyReleased && decide (evt.currentTimeMillis - s.lastAltPressed < 500) then
      .showSplKeysMenu
    else if evt.keyCode ∈ [KeyCode.vkControl, .vkShift, .vkMeta, .vkAlt] then
      let b := modifierKey transposeRightMods evt.keyLoc evt.keyCode
      .releaseModifier b (evt.keyMod ||| maskOf b ||| winMask s.winkey)
    else if evt.keyCode.isActionKey then keyAction s evt
    else .ignore
  else keyAction s evt

/-- The menu is shown: the state of the modifiers is forgotten, and a release of Alt faked. -/
def initilizeModifierMenu (s : State) : State :=
  let s := { s with useMenuModifiers := true, oldModifiers := 0, winkey := 0 }
  (s.writeModifierKeyEvents Modifier.altL.mask).writeKey Modifier.altL.keySym false

/-- The press of a key that only reports its release is faked. -/
def fakeKeyPress (evt : KeyEvent) (keySym : Nat) (s : State) : State :=
  if keySym ∈ fakedKeySyms then
    let s := if evt.keyPressed then { s with brokenKeyPressed := true } else s
    let s :=
      if evt.keyReleased && !s.brokenKeyPressed then
        (s.writeModifierKeyEvents (evt.keyMod ||| winMask s.winkey)).writeKey keySym true
      else s
    if evt.keyReleased then { s with brokenKeyPressed := false } else s
  else s

/-- A key is sent, with the Windows key as a modifier, or as a key in itself. -/
def sendKeyEvent (evt : KeyEvent) (keySym : Nat) (s : State) : State :=
  match s.winkey with
  | 1 => (s.writeModifierKeyEvents (evt.keyMod ||| Modifier.windows.mask)).writeKey keySym evt.keyPressed
  | 2 =>
    ({ s with winkey := 0 }.writeModifierKeyEvents (evt.keyMod ||| Modifier.windows.mask)).writeKey
      Modifier.windows.keySym evt.keyPressed
  | _ => (s.writeModifierKeyEvents evt.keyMod).writeKey keySym evt.keyPressed

/-- The handling of a key event outside of the special keys panel. -/
def writeKeyEvent (s : State) (evt : KeyEvent) : State :=
  match eventAction transposeRightMods s evt with
  | .ignore => s
  | .winPressed => { s with winkey := 1 }
  | .showSplKeysMenu => initilizeModifierMenu s
  | .releaseModifier b keyMod =>
    let s := if evt.keyCode = .vkAlt && evt.keyReleased then { s with lastAltPressed := evt.currentTimeMillis } else s
    let s := (s.writeModifierKeyEvents keyMod).writeKey (keySymOf b) false
    -- the modifiers that are still held are cleared too
    { s with oldModifiers := s.oldModifiers &&& ~~~keyMod }
  | .sendKey keySym winkey => sendKeyEvent evt keySym (fakeKeyPress evt keySym { s with winkey := winkey })

def hasButton2 (evt : MouseEvent) : Bool := evt.modifiers.setWidth 32 &&& Modifier.altL.mask ≠ 0

def hasButton3 (evt : MouseEvent) : Bool := evt.modifiers.setWidth 32 &&& Modifier.metaL.mask ≠ 0

/-- The modifiers of a mouse event without the bits that stand for its button. -/
def mouseModifiers (evt : MouseEvent) : Mask :=
  let modifiers : Mask := evt.modifiers.setWidth 32
  if evt.id = .mousePressed ∨ evt.id = .mouseReleased then
    if hasButton2 evt then modifiers &&& ~~~Modifier.altL.mask
    else if hasButton3 evt then modifiers &&& ~~~Modifier.metaL.mask
    else modifiers
  else modifiers

def newPointerMask (s : State) (evt : MouseEvent) : Nat :=
  let mask2 := if reverseMouseButtons2And3 then 4 else 2
  let mask3 := if reverseMouseButtons2And3 then 2 else 4
  match evt.id with
  | .mousePressed => if hasButton2 evt then mask2 else if hasButton3 evt then mask3 else 1
  | .mouseReleased => 0
  | .mouseWheel rotation => if rotation < 0 then 8 else 16
  | .other => s.pointerMask

def writePointerEvent (s : State) (evt : MouseEvent) : State :=
  let pointerMask := newPointerMask reverseMouseButtons2And3 s evt
  let s := { s with pointerMask := pointerMask }.writeModifierKeyEvents (mouseModifiers evt)
  let s := s.send (.pointer pointerMask (evt.x.toNat % 65536) (evt.y.toNat % 65536))
  let s := if pointerMask = 0 then s.writeModifierKeyEvents 0 else s
  if pointerMask = 8 ∨ pointerMask = 16 then { s with pointerMask := 0 } else s

end Viewer

/-- The keys that are released, none of them a Meta key. -/
def fakelyReleased : List Modifier := [.ctrlL, .shiftL, .altL, .windows, .ctrlR, .shiftR, .altR]

def sendFakeModifiersRelease (s : State) : State :=
  { fakelyReleased.foldl (fun s b => s.writeKey b.keySym false) s with oldModifiers := 0 }

end Colama.Tightvnc

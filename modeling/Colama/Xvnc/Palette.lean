import Mathlib.Data.BitVec
import Mathlib.Logic.Function.Basic

namespace Colama.Xvnc

/-- `COLOR_LIST`. A pointer is an index into `list`. -/
structure ColorList where
  next : Option Nat
  idx : Nat
  rgb : BitVec 32

structure PaletteEntry where
  listNode : Nat
  numPixels : Nat

/-- `PALETTE`, with `paletteNumColors`. -/
structure Palette where
  entry : Nat → PaletteEntry
  hash : Nat → Option Nat
  list : Nat → ColorList
  numColors : Nat

namespace Palette

/-- `HASH_FUNC16` and `HASH_FUNC32`. -/
def hashKey (bpp16 : Bool) (rgb : BitVec 32) : Nat :=
  if bpp16 then ((rgb >>> 8 + rgb) &&& 0xFF).toNat else ((rgb >>> 16 + rgb >>> 8) &&& 0xFF).toNat

/-- `PaletteReset`. -/
def reset (pal : Palette) : Palette := { pal with numColors := 0, hash := fun _ => none }

def setEntry (pal : Palette) (i : Nat) (e : PaletteEntry) : Palette :=
  { pal with entry := Function.update pal.entry i e }

def setNode (pal : Palette) (node : Nat) (l : ColorList) : Palette :=
  { pal with list := Function.update pal.list node l }

def setIdx (pal : Palette) (node idx : Nat) : Palette := pal.setNode node { pal.list node with idx }

/-- The walk through a hash list: the node with the colour, if there is one, and `prev_pnode`. It is given up after
`fuel` nodes. -/
def findNode (pal : Palette) (rgb : BitVec 32) : (fuel : Nat) → (prev pnode : Option Nat) →
    Option (Option Nat × Option Nat)
  | _, prev, none => some (none, prev)
  | 0, _, some _ => none
  | fuel + 1, prev, some node =>
    if (pal.list node).rgb = rgb then some (some node, prev) else findNode pal rgb fuel (some node) (pal.list node).next

/-- The loops that move the entries with fewer pixels up by one, from `idx` down, and the entry that is left free. -/
@[grind] def moveEntries (count : Nat) : (idx : Nat) → Palette → Palette × Nat
  | 0, pal => (pal, 0)
  | idx + 1, pal =>
    if (pal.entry idx).numPixels < count then
      moveEntries count idx ((pal.setEntry (idx + 1) (pal.entry idx)).setIdx (pal.entry idx).listNode (idx + 1))
    else (pal, idx + 1)

/-- An entry that exists gets more pixels. -/
def addPixels (pal : Palette) (pnode numPixels : Nat) : Palette :=
  let idx := (pal.list pnode).idx
  let count := (pal.entry idx).numPixels + numPixels
  let (moved, newIdx) := moveEntries count idx pal
  let moved :=
    if newIdx ≠ idx then
      (moved.setEntry newIdx { moved.entry newIdx with listNode := pnode }).setIdx pnode newIdx
    else moved
  moved.setEntry newIdx { moved.entry newIdx with numPixels := count }

/-- A new entry. Its node goes to the end of the hash list. -/
def addEntry (pal : Palette) (key : Nat) (rgb : BitVec 32) (numPixels : Nat) (prev : Option Nat) : Palette :=
  let (moved, idx) := moveEntries numPixels pal.numColors pal
  let pnode := pal.numColors
  let linked :=
    match prev with
    | some prev => moved.setNode prev { moved.list prev with next := some pnode }
    | none => { moved with hash := Function.update moved.hash key (some pnode) }
  { (linked.setNode pnode { next := none, idx, rgb }).setEntry idx { listNode := pnode, numPixels } with
    numColors := pal.numColors + 1 }

end Palette

open Palette in
/-- `PaletteInsert`, and what it returns. -/
def paletteInsert (paletteMaxColors : Nat) (bpp16 : Bool) (pal : Palette) (rgb : BitVec 32) (numPixels : Nat) :
    Option (Palette × Nat) := do
  let (found, prev) ← pal.findNode rgb 256 none (pal.hash (hashKey bpp16 rgb))
  match found with
  | some pnode => some (pal.addPixels pnode numPixels, pal.numColors)
  | none =>
    if pal.numColors = 256 ∨ pal.numColors = paletteMaxColors then some ({ pal with numColors := 0 }, 0)
    else some (pal.addEntry (hashKey bpp16 rgb) rgb numPixels prev, pal.numColors + 1)

/-- The palette after some calls of `PaletteInsert`. -/
def insertAll (paletteMaxColors : Nat) (bpp16 : Bool) (pal : Palette) (calls : List (BitVec 32 × Nat)) :
    Option Palette :=
  calls.foldlM (fun pal call => (paletteInsert paletteMaxColors bpp16 pal call.1 call.2).map Prod.fst) pal

end Colama.Xvnc

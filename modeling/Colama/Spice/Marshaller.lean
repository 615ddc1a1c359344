import Mathlib.Tactic
import Colama.Lib.Memory

namespace Colama.Spice.Marshaller

open Lib

/-- Where the data of an item may lie: in one of the chained 4K buffers, in an allocation made for
the item alone, or in memory that the caller refers to. -/
inductive Block
  | buffer (k : Nat)
  | own (k : Nat)
  | user (k : Nat)
  deriving DecidableEq

structure MarshallerItem where
  data : Loc Block
  len : Nat
  deriving DecidableEq

/-- `4096 - sizeof(void *) * 2` -/
def marshallerBufferSize : Nat := 4080

def nStaticItems : Nat := 4

/-- `sizeof(MarshallerItem)` -/
def sizeofItem : Int := 32

structure MarshallerRef where
  marshaller : Nat
  itemNr : Nat
  is64bit : Bool
  offset : Nat
  deriving DecidableEq

/-- A marshaller is known by its place in creation order. `itemsAddr` is the address of the array
that `items` points to, which has room for `itemsSize` items and holds those of `items`. -/
structure SpiceMarshaller where
  totalSize : Nat
  pointerRef : Option MarshallerRef
  items : List MarshallerItem
  itemsSize : Nat
  itemsAddr : Int
  deriving DecidableEq

/-- `SpiceMarshallerData` with the list of marshallers that starts at the root. `allocs` counts the
calls of the allocator. -/
structure SpiceMarshallerData where
  totalSize : Nat
  base : UInt64
  marshallers : List SpiceMarshaller
  currentBufferPosition : Nat
  currentBuffer : Nat
  currentBufferItem : Option Int
  allocs : Nat
  mem : Memory Block

/-- `&m->items[m->n_items - 1]` -/
def SpiceMarshaller.lastAddr (m : SpiceMarshaller) : Int :=
  m.itemsAddr + sizeofItem * (m.items.length - 1)

/-- A new marshaller whose `static_items` are at `addr`. -/
def spiceMarshallerInit (addr : Int) : SpiceMarshaller :=
  ⟨0, none, [], nStaticItems, addr⟩

def spiceMarshallerNew (addr : Int) (mem : Memory Block) : SpiceMarshallerData :=
  ⟨0, 0, [spiceMarshallerInit addr], 0, 0, none, 0, mem⟩

section Operations

-- the address that each call of the allocator returns
variable (alloc : Nat → Int)

namespace SpiceMarshallerData

def setMarshaller (d : SpiceMarshallerData) (i : Nat) (m : SpiceMarshaller) : SpiceMarshallerData :=
  { d with marshallers := d.marshallers.set i m }

/-- `spice_marshaller_add_item`, with the fields that its callers set in the new item. -/
def addItem (d : SpiceMarshallerData) (i : Nat) (m : SpiceMarshaller) (item : MarshallerItem) :
    SpiceMarshallerData × SpiceMarshaller :=
  if m.items.length = m.itemsSize then
    let m := { m with
      items := m.items ++ [item], itemsSize := m.itemsSize * 2, itemsAddr := alloc d.allocs }
    ({ d with allocs := d.allocs + 1 }.setMarshaller i m, m)
  else
    let m := { m with items := m.items ++ [item] }
    (d.setMarshaller i m, m)

/-- `d->total_size += size; m->total_size += size` -/
def addSize (d : SpiceMarshallerData) (i : Nat) (size : Nat) : SpiceMarshallerData :=
  { d with
    totalSize := d.totalSize + size
    marshallers := d.marshallers.modify i fun m => { m with totalSize := m.totalSize + size } }

def remainingBufferSize (d : SpiceMarshallerData) : Nat :=
  marshallerBufferSize - d.currentBufferPosition

/-- The test before an item is extended in place. -/
def piggyBacks (d : SpiceMarshallerData) (m : SpiceMarshaller) (size : Nat) : Bool :=
  d.currentBufferItem = some m.lastAddr && d.remainingBufferSize ≥ size

end SpiceMarshallerData

open SpiceMarshallerData

/-- `none` when the assertion fails; the returned location is `none` for `NULL`. -/
def spiceMarshallerReserveSpace (d : SpiceMarshallerData) (i : Nat) (size : Nat) :
    Option (SpiceMarshallerData × Option (Loc Block)) := do
  if size = 0 then return (d, none)
  let m ← d.marshallers[i]?
  if d.piggyBacks m size then
    let item ← m.items.getLast?
    let m := { m with items := m.items.dropLast ++ [{ item with len := item.len + size }] }
    let d := { d.setMarshaller i m with currentBufferPosition := d.currentBufferPosition + size }
    return (d.addSize i size, some ⟨item.data.block, item.data.off + item.len⟩)
  else if d.remainingBufferSize ≥ size then
    let data : Loc Block := ⟨.buffer d.currentBuffer, d.currentBufferPosition⟩
    let (d, m) := addItem alloc d i m ⟨data, size⟩
    let d := { d with
      currentBufferPosition := d.currentBufferPosition + size, currentBufferItem := some m.lastAddr }
    return (d.addSize i size, some data)
  else if size > marshallerBufferSize / 2 then
    let data : Loc Block := ⟨.own d.allocs, 0⟩
    let (d, _) := addItem alloc { d with allocs := d.allocs + 1 } i m ⟨data, size⟩
    return (d.addSize i size, some data)
  else
    let data : Loc Block := ⟨.buffer (d.currentBuffer + 1), 0⟩
    let (d, m) := addItem alloc d i m ⟨data, size⟩
    let d := { d with
      currentBuffer := d.currentBuffer + 1, currentBufferPosition := size,
      currentBufferItem := some m.lastAddr }
    return (d.addSize i size, some data)

/-- Room is reserved and filled with `bytes`, by the caller or by the function itself. -/
def reserveAndWrite (d : SpiceMarshallerData) (i : Nat) (bytes : List UInt8) :
    Option SpiceMarshallerData := do
  let (d, p) ← spiceMarshallerReserveSpace alloc d i bytes.length
  match p with
  | none => return d
  | some p => return { d with mem := d.mem.write p bytes }

def spiceMarshallerAdd (d : SpiceMarshallerData) (i : Nat) (bytes : List UInt8) :
    Option SpiceMarshallerData :=
  reserveAndWrite alloc d i bytes

/-- `spice_marshaller_add_uint8` to `spice_marshaller_add_uint64`: `width` bytes of `v`. -/
def spiceMarshallerAddUint (d : SpiceMarshallerData) (i : Nat) (width v : Nat) :
    Option SpiceMarshallerData :=
  reserveAndWrite alloc d i (littleEndian v width)

/-- The totals are not touched, as in the source. -/
def spiceMarshallerUnreserveSpace (d : SpiceMarshallerData) (i : Nat) (size : Nat) :
    Option SpiceMarshallerData := do
  if size = 0 then return d
  let m ← d.marshallers[i]?
  let item ← m.items.getLast?
  if item.len < size then none
  else
    let m := { m with items := m.items.dropLast ++ [{ item with len := item.len - size }] }
    return d.setMarshaller i m

/-- A reference to `size` bytes at `data`, where `none` is `NULL`. -/
structure UserData where
  data : Option (Nat × Nat)
  size : Nat

def spiceMarshallerAddRefFull (d : SpiceMarshallerData) (i : Nat) (u : UserData) :
    Option SpiceMarshallerData := do
  let m ← d.marshallers[i]?
  match u.data with
  | none => return d
  | some (k, off) =>
    if u.size = 0 then return d
    else
      let (d, _) := addItem alloc d i m ⟨⟨.user k, off⟩, u.size⟩
      return d.addSize i u.size

def spiceMarshallerAddRef (d : SpiceMarshallerData) (i : Nat) (u : UserData) :
    Option SpiceMarshallerData :=
  spiceMarshallerAddRefFull alloc d i u

def spiceMarshallerAddRefChunks (d : SpiceMarshallerData) (i : Nat) :
    List UserData → Option SpiceMarshallerData
  | [] => some d
  | u :: us => do
    let d ← spiceMarshallerAddRef alloc d i u
    spiceMarshallerAddRefChunks d i us

/-- A new marshaller at the end of the list, where `ref` is its `pointer_ref`. The address of its
`static_items` comes from its own allocation. -/
def appendMarshaller (d : SpiceMarshallerData) (ref : Option MarshallerRef) : SpiceMarshallerData :=
  { d with
    marshallers := d.marshallers ++ [{ spiceMarshallerInit (alloc d.allocs) with pointerRef := ref }]
    allocs := d.allocs + 1 }

def spiceMarshallerGetSubmarshaller (d : SpiceMarshallerData) : SpiceMarshallerData :=
  appendMarshaller alloc d none

def pointerSize (is64bit : Bool) : Nat := if is64bit then 8 else 4

def spiceMarshallerGetPtrSubmarshaller (d : SpiceMarshallerData) (i : Nat) (is64bit : Bool) :
    Option SpiceMarshallerData := do
  let size := pointerSize is64bit
  let d ← reserveAndWrite alloc d i (List.replicate size 0)
  let m ← d.marshallers[i]?
  let item ← m.items.getLast?
  return appendMarshaller alloc d (some ⟨i, m.items.length - 1, is64bit, item.len - size⟩)

def spiceMarshallerSetBase (d : SpiceMarshallerData) (base : UInt64) : SpiceMarshallerData :=
  { d with base }

/-- Only the root is kept, with the array its items have grown to. -/
def spiceMarshallerReset (d : SpiceMarshallerData) : SpiceMarshallerData :=
  { d with
    marshallers := d.marshallers.take 1 |>.map fun m => { m with items := [], totalSize := 0 }
    totalSize := 0, base := 0, currentBufferItem := none, currentBuffer := 0,
    currentBufferPosition := 0 }

end Operations

def lookupRef (d : SpiceMarshallerData) (ref : MarshallerRef) : Option (Loc Block) := do
  let m ← d.marshallers[ref.marshaller]?
  let item ← m.items[ref.itemNr]?
  return ⟨item.data.block, item.data.off + ref.offset⟩

/-- The offset of the `i`-th marshaller, where the loop stops when it meets it. -/
def spiceMarshallerGetOffset (d : SpiceMarshallerData) (i : Nat) : UInt64 :=
  .ofNat ((d.marshallers.take i).map (·.totalSize)).sum - d.base

def spiceMarshallerGetSize (m : SpiceMarshaller) : Nat := m.totalSize

def spiceMarshallerGetTotalSize (d : SpiceMarshallerData) : Nat := d.totalSize

/-- One round of the loop of `spice_marshaller_flush`, for the `i`-th marshaller. -/
def flushPointer (d : SpiceMarshallerData) (i : Nat) (m : SpiceMarshaller) : SpiceMarshallerData :=
  match m.pointerRef with
  | none => d
  | some ref =>
    if m.totalSize > 0 then
      match lookupRef d ref with
      | none => d
      | some p => { d with
          mem := d.mem.write p
            (littleEndian (spiceMarshallerGetOffset d i).toNat (pointerSize ref.is64bit)) }
    else d

def flushFrom (d : SpiceMarshallerData) (i : Nat) : List SpiceMarshaller → SpiceMarshallerData
  | [] => d
  | m :: ms => flushFrom (flushPointer d i m) (i + 1) ms

def spiceMarshallerFlush (d : SpiceMarshallerData) : SpiceMarshallerData :=
  flushFrom d 0 d.marshallers

/-- The items from `m` on, as the loops over `m->next` see them. -/
def allItems (d : SpiceMarshallerData) : List MarshallerItem := d.marshallers.flatMap (·.items)

/-- The copying loop of `spice_marshaller_linearize`. -/
def copyItems (mem : Memory Block) (skip : Nat) : List MarshallerItem → List UInt8
  | [] => []
  | item :: items =>
    if item.len ≤ skip then copyItems mem (skip - item.len) items
    else mem.read ⟨item.data.block, item.data.off + skip⟩ (item.len - skip) ++ copyItems mem 0 items

/-- The bytes that are returned, and the length that is reported. -/
def spiceMarshallerLinearize (d : SpiceMarshallerData) (skip : Nat) : List UInt8 × Nat :=
  match d.marshallers with
  | [] => ([], 0)
  | root :: _ =>
    match root.items with
    | [item] =>
      if item.len ≤ skip then ([], 0)
      else (d.mem.read ⟨item.data.block, item.data.off + skip⟩ (item.len - skip), item.len - skip)
    | _ => (copyItems d.mem skip (allItems d), d.totalSize - skip)

/-- The entries that `spice_marshaller_fill_iovec` writes. -/
def fillIovec (nVec : Nat) (skip : Nat) : List MarshallerItem → List (Loc Block × Nat)
  | [] => []
  | item :: items =>
    if item.len ≤ skip then fillIovec nVec (skip - item.len) items
    else match nVec with
      | 0 => []
      | n + 1 => (⟨item.data.block, item.data.off + skip⟩, item.len - skip) :: fillIovec n 0 items

def spiceMarshallerFillIovec (d : SpiceMarshallerData) (nVec skip : Nat) : List (Loc Block × Nat) :=
  fillIovec nVec skip (allItems d)

end Colama.Spice.Marshaller

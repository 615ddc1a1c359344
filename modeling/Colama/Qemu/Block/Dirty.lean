import Colama.Lib.PackedFlags

namespace Colama.Qemu.Block

def BDRV_SECTOR_BITS : Nat := 9
def BDRV_SECTOR_SIZE : Nat := 1 <<< BDRV_SECTOR_BITS
def BDRV_SECTORS_PER_DIRTY_CHUNK : Nat := 2048

/-- A device of `length` bytes. Of the allocation for the bitmap the words that lie wholly inside
it are kept: an index past them is an access outside of it. -/
structure BlockDriverState where
  length : Nat
  dirtyBitmap : Option (List (BitVec 64)) := none
  dirtyCount : Int := 0

def getlength (bs : BlockDriverState) : Nat := bs.length

/-- The bytes allocated for the bitmap of a device of `length` bytes. -/
def bitmapSize (length : Nat) : Nat :=
  ((length >>> BDRV_SECTOR_BITS) + BDRV_SECTORS_PER_DIRTY_CHUNK * 8 - 1) /
    (BDRV_SECTORS_PER_DIRTY_CHUNK * 8)

def setDirtyTracking (bs : BlockDriverState) (enable : Bool) : BlockDriverState :=
  if enable then
    match bs.dirtyBitmap with
    | none =>
      { bs with
        dirtyCount := 0
        dirtyBitmap := some (List.replicate (bitmapSize (getlength bs) / 8) 0) }
    | some _ => { bs with dirtyCount := 0 }
  else { bs with dirtyCount := 0, dirtyBitmap := none }

/-- `1 << bit` on a 32-bit int: the shift takes its count modulo 32, and the sign goes to the upper half. -/
def chunkMask (bit : Nat) : BitVec 64 := (1#32 <<< (bit % 32)).signExtend 64

def setDirtyChunk (dirty : Bool) (bs : BlockDriverState) (chunk : Nat) : Option BlockDriverState := do
  let bitmap ← bs.dirtyBitmap
  let idx := chunk / 64
  let bit := chunk % 64
  let val ← bitmap[idx]?
  if dirty then
    if val &&& chunkMask bit = 0 then
      some { bs with
        dirtyCount := bs.dirtyCount + 1
        dirtyBitmap := some (bitmap.set idx (val ||| chunkMask bit)) }
    else some { bs with dirtyBitmap := some (bitmap.set idx val) }
  else
    if val &&& chunkMask bit ≠ 0 then
      some { bs with
        dirtyCount := bs.dirtyCount - 1
        dirtyBitmap := some (bitmap.set idx (val &&& ~~~chunkMask bit)) }
    else some { bs with dirtyBitmap := some (bitmap.set idx val) }

/-- The chunks from `start` to `end`. With no sector before it, `end` is `-1 / 2048`, which is 0 in C
as it is here. -/
def touchedChunks (sectorNum nbSectors : Nat) : List Nat :=
  let first := sectorNum / BDRV_SECTORS_PER_DIRTY_CHUNK
  let last := (sectorNum + nbSectors - 1) / BDRV_SECTORS_PER_DIRTY_CHUNK
  List.range' first (last + 1 - first)

def setDirtyBitmap (bs : BlockDriverState) (sectorNum nbSectors : Nat) (dirty : Bool) :
    Option BlockDriverState :=
  (touchedChunks sectorNum nbSectors).foldlM (setDirtyChunk dirty) bs

def getDirty (bs : BlockDriverState) (sector : Nat) : Option (BitVec 32) :=
  let chunk := sector / BDRV_SECTORS_PER_DIRTY_CHUNK
  match bs.dirtyBitmap with
  | none => some 0
  | some bitmap =>
    if sector <<< BDRV_SECTOR_BITS < getlength bs then
      bitmap[chunk / 64]?.map fun word => (word &&& chunkMask (chunk % 64)).truncate 32
    else some 0

def resetDirty (bs : BlockDriverState) (curSector nrSectors : Nat) : Option BlockDriverState :=
  setDirtyBitmap bs curSector nrSectors false

def getDirtyCount (bs : BlockDriverState) : Int := bs.dirtyCount

inductive DirtyOp
  | write (sectorNum nbSectors : Nat)
  | reset (curSector nrSectors : Nat)

/-- The request passes `bdrv_check_request`. -/
def DirtyOp.Inside (length : Nat) : DirtyOp → Prop
  | .write sector nb => (sector + nb) * BDRV_SECTOR_SIZE ≤ length
  | .reset sector nb => (sector + nb) * BDRV_SECTOR_SIZE ≤ length

@[grind] def DirtyOp.run (bs : BlockDriverState) : DirtyOp → Option BlockDriverState
  | .write sector nb => if bs.dirtyBitmap.isSome then setDirtyBitmap bs sector nb true else some bs
  | .reset sector nb => resetDirty bs sector nb

/-- The device with tracking enabled. -/
def tracked (length : Nat) : BlockDriverState := setDirtyTracking { length } true

/-- Some sector of the request is in the chunk. -/
def Covers (sector nb chunk : Nat) : Prop :=
  ∃ x, sector ≤ x ∧ x < sector + nb ∧ x / BDRV_SECTORS_PER_DIRTY_CHUNK = chunk

/-- A write covered the chunk, and no reset after it did. -/
def Dirty (ops : List DirtyOp) (chunk : Nat) : Prop :=
  ∃ before sector nb later, ops = before ++ .write sector nb :: later ∧ Covers sector nb chunk ∧
    ∀ sector' nb', .reset sector' nb' ∈ later → ¬ Covers sector' nb' chunk

/-- No access was outside the allocation, none is for any sector of the device, and the
bits and the count are those of the dirty chunks. -/
def Exact (length : Nat) (ops : List DirtyOp) : Prop :=
  ∃ bs, ops.foldlM DirtyOp.run (tracked length) = some bs ∧
    (∀ sector, sector * BDRV_SECTOR_SIZE < length → ∃ bits, getDirty bs sector = some bits ∧
      (bits ≠ 0 ↔ Dirty ops (sector / BDRV_SECTORS_PER_DIRTY_CHUNK))) ∧
    ∃ chunks : Finset Nat, (∀ c, c ∈ chunks ↔ Dirty ops c) ∧ getDirtyCount bs = chunks.card

end Colama.Qemu.Block

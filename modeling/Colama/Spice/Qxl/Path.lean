import Colama.Lib.Memory
import Colama.Spice.Qxl.Parse

namespace Colama.Spice.Qxl

open Memslots DataChunks Lib Lib.Memory

def u32At (m : Nat → UInt8) (off : Nat) : UInt32 := UInt32.ofNat (ofLeBytes (readFrom m off 4))

def u64At (m : Nat → UInt8) (off : Nat) : UInt64 := UInt64.ofNat (ofLeBytes (readFrom m off 8))

/-- A `QXLPathSeg` and a `SpicePathSeg` have the same layout: `flags`, `count`, and `count` points of two words. -/
structure SpicePathSeg where
  flags : UInt32
  count : UInt32
  points : List (UInt32 × UInt32)
  deriving DecidableEq

def segAt (m : Nat → UInt8) (off : Nat) : SpicePathSeg :=
  let count := u32At m (off + 4)
  ⟨u32At m off, count, (List.range count.toNat).map fun i => (u32At m (off + 8 + 8 * i), u32At m (off + 12 + 8 * i))⟩

/-- The segments of the `SpicePath` that is stored at the address `red`. -/
def pathAt (m : Nat → UInt8) (red : UInt64) : List SpicePathSeg :=
  (List.range (u32At m 0).toNat).map fun k => segAt m (u64At m (8 + 8 * k) - red).toNat

def spiceAlign (a : UInt64) : UInt64 := (a + 3) &&& ~~~3

variable (host : HostMemory) (heap : Nat → UInt8) (canAlloc : UInt64 → Bool)

/-- The bytes that are copied, and how many are still missing behind the last chunk. -/
def copyChunks : List RedDataChunk → Nat → List UInt8 × Nat
  | [], size => ([], size)
  | chunk :: chunks, size =>
    if size = 0 then ([], 0)
    else
      let copy := min chunk.dataSize.toNat size
      let rest := copyChunks chunks (size - copy)
      (host.bytes chunk.data copy ++ rest.1, rest.2)

/-- The bytes from the data pointer on. Those behind the data that was asked for are whatever follows it. -/
def redLinearizeChunk (red : List RedDataChunk) (size : UInt64) : Parse (Nat → UInt8) :=
  match red with
  | [chunk] => do
    Parse.assert (size ≤ chunk.dataSize.toUInt64)
    return fun i => host (chunk.data + UInt64.ofNat i)
  | _ =>
    if canAlloc size then do
      let copied := copyChunks host red size.toNat
      Parse.assert (copied.2 = 0)
      return fun i => (copied.1[i]?).getD (heap i)
    else throw .noMemory

/-- The places in the data that are read, each with a length, and how the loops end. -/
structure PathRun (α : Type) where
  reads : List (Nat × Nat)
  outcome : Except Halt α

/-- What is written to the `SpicePath`, and the size that was allocated for it. -/
structure PathAlloc where
  memSize : UInt64
  writes : List (Nat × List UInt8)

variable (data : Nat → UInt8) (size : Nat)

/-- `&start->points[count]`. -/
def nextSeg (start : Nat) (count : UInt32) : Nat := start + 8 + 8 * count.toNat

/-- The first loop, which counts the segments and the memory for them. -/
def countSegs : Nat → Nat → Nat → UInt64 → List (Nat × Nat) → Option (PathRun (Nat × UInt64))
  | 0, _, _, _, _ => none
  | rounds + 1, start, nSegments, memSize, reads =>
    if start < size then
      if nSegments + 1 = 2 ^ 31 then some ⟨reads, .error .overflow⟩
      else
        let count := u32At data (start + 4)
        let segmentSize := 8 + count.toUInt64 * 8
        countSegs rounds (nextSeg start count) (nSegments + 1) (memSize + (8 + spiceAlign segmentSize))
          (reads ++ [(start + 4, 4)])
    else some ⟨reads, .ok (nSegments, memSize)⟩

def pointReads (start : Nat) (count : UInt32) : List (Nat × Nat) :=
  (List.range count.toNat).flatMap fun i => [(start + 8 + 8 * i, 4), (start + 12 + 8 * i, 4)]

def pointWrites (start seg : Nat) : Nat → List (Nat × List UInt8)
  | 0 => []
  | i + 1 => pointWrites start seg i ++
    [(seg + 8 + 8 * i, leBytes 4 (u32At data (start + 8 + 8 * i)).toNat),
      (seg + 12 + 8 * i, leBytes 4 (u32At data (start + 12 + 8 * i)).toNat)]

/-- `flags`, `count` and the points of the segment at `start`, as they are copied to `seg`. -/
def segWrites (start seg : Nat) (count : UInt32) : List (Nat × List UInt8) :=
  [(seg, leBytes 4 (u32At data start).toNat), (seg + 4, leBytes 4 count.toNat)] ++ pointWrites data start seg count.toNat

/-- The `ASSERT`s on a segment, before anything but its place is written. -/
def SegFits (memSize memSize2 : UInt64) (count : UInt32) : Prop :=
  memSize2 + 8 > memSize2 ∧ count.toNat < (2 ^ 32 - 1) / 8 ∧
    memSize2 + 8 + count.toUInt64 * 8 > memSize2 + 8 ∧ memSize2 + 8 + count.toUInt64 * 8 ≤ memSize

instance (memSize memSize2 : UInt64) (count : UInt32) : Decidable (SegFits memSize memSize2 count) :=
  inferInstanceAs (Decidable (_ ∧ _))

variable (red memSize : UInt64) (numSegments : Nat)

/-- The second loop, which copies the segments into the memory at `red`. -/
@[grind] def copySegs : Nat → Nat → Nat → Nat → UInt64 → List (Nat × Nat) → List (Nat × List UInt8) → Option (PathRun PathAlloc)
  | 0, _, _, _, _, _, _ => none
  | rounds + 1, start, nSegments, seg, memSize2, reads, writes =>
    if start < size then
      if nSegments + 1 = 2 ^ 31 then some ⟨reads, .error .overflow⟩
      else
        let count := u32At data (start + 4)
        if SegFits memSize memSize2 count then
          copySegs rounds (nextSeg start count) (nSegments + 1) (nextSeg seg count)
            (memSize2 + 8 + count.toUInt64 * 8)
            (reads ++ (start + 4, 4) :: (start, 4) :: pointReads start count)
            (writes ++ (8 + 8 * nSegments, leBytes 8 (red + UInt64.ofNat seg).toNat) :: segWrites data start seg count)
        else some ⟨reads ++ [(start + 4, 4)], .error .assert⟩
    else if nSegments = numSegments then some ⟨reads, .ok ⟨memSize, writes⟩⟩
    else some ⟨reads, .error .assert⟩

omit memSize numSegments in
/-- Both loops over the linearized data. -/
def pathLoops (rounds : Nat) : Option (PathRun PathAlloc) :=
  (countSegs data size rounds 0 0 8 []).bind fun run =>
    match run.outcome with
    | .error e => some ⟨run.reads, .error e⟩
    | .ok (nSegments, memSize) =>
      if canAlloc memSize then
        copySegs data size red memSize nSegments rounds 0 0 (8 + 8 * nSegments) 8 run.reads [(0, leBytes 4 nSegments)]
      else some ⟨run.reads, .error .noMemory⟩

/-- `sizeof(QXLPath)`. -/
def sizeofPath : UInt32 := 24

omit data size memSize numSegments in
/-- The linearized data, its size, and the run of the loops over it. -/
def redGetPath (info : RedMemSlotInfo) (groupId : Int32) (addr : UInt64) (rounds : Nat) :
    Parse ((Nat → UInt8) × UInt64 × PathRun PathAlloc) := do
  let qxl ← Parse.checked (getVirt info addr sizeofPath groupId)
  let (chunks, size) ← Parse.looping
    (redGetDataChunksPtr info host.chunks groupId (getMemslotId info addr) (qxl + 4) rounds)
  let data ← redLinearizeChunk host heap canAlloc chunks size
  let run ← ExceptT.mk ((pathLoops canAlloc data size.toNat red rounds).map .ok)
  return (data, size, run)

end Colama.Spice.Qxl

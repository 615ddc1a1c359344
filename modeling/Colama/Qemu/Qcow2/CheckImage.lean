import Colama.Qemu.Qcow2.ClusterOffset
import Colama.Qemu.Qcow2.OpenImage

namespace Colama.Qemu.Qcow2

open Lib

/-- `BdrvCheckResult`, with the refcounts that are being counted. -/
structure CheckState where
  refcounts : Nat → UInt16
  corruptions : Nat
  leaks : Nat
  checkErrors : Nat

namespace CheckState

def corrupted (st : CheckState) : CheckState := { st with corruptions := st.corruptions + 1 }

def failed (st : CheckState) : CheckState := { st with checkErrors := st.checkErrors + 1 }

def corruptedIf (p : Prop) [Decidable p] (st : CheckState) : CheckState := if p then st.corrupted else st

end CheckState

namespace OpenImage

variable (s : OpenImage)

def clusterSize : Nat := 2 ^ s.clusterBits

/-- `size_to_clusters` of the length of the file. -/
def nbClusters : Int := int32 ((s.file.length + (s.clusterSize - 1)) / s.clusterSize : Nat)

/-- `get_refcount`, unless a block cannot be read. The block that is cached is as it is in the file. -/
def getRefcount (clusterIndex : Nat) : Option Nat :=
  let refcountTableIndex := uint32 (clusterIndex / 2 ^ (s.clusterBits - 1) : Nat)
  let refcountBlockOffset := beEntry 8 s.refcountTable refcountTableIndex
  if refcountTableIndex ≥ s.refcountTableSize ∨ refcountBlockOffset = 0 then some 0
  else (bdrvPread s.file (int64 refcountBlockOffset) s.clusterSize).map fun block =>
    beEntry 2 block (clusterIndex % 2 ^ (s.clusterBits - 1))

/-- A round of `inc_refcounts`. -/
def incRefcount (st : CheckState) (cluster : Int) : CheckState :=
  let k := int32 cluster
  if k < 0 then st.corrupted
  else if k ≥ s.nbClusters then st.failed
  else
    let refcount := st.refcounts k.toNat + 1
    { st with refcounts := Function.update st.refcounts k.toNat refcount }.corruptedIf (refcount = 0)

def incRefcounts (st : CheckState) (offset size : Int) : CheckState :=
  if size ≤ 0 then st else (clusterRange s.clusterSize offset size).foldl s.incRefcount st

/-- The flag of an entry is to be set iff the refcount of the cluster is one. -/
def checkCopied (st : CheckState) (entry : BitVec 64) : Option CheckState :=
  (s.getRefcount ((clearCopied entry).toNat / s.clusterSize)).map fun refcount =>
    st.corruptedIf ((refcount = 1) ≠ (entry &&& qcowOflagCopied ≠ 0))

/-- Mark a cluster as used, which is to be at the start of one. -/
def markCluster (st : CheckState) (offset : BitVec 64) : CheckState :=
  (s.incRefcounts st offset.toInt s.clusterSize).corruptedIf (offset.toNat % s.clusterSize ≠ 0)

def csizeShift : Nat := 62 - (s.clusterBits - 8)

/-- The clusters of an entry that is compressed, with the sectors of its size. -/
def markCompressed (st : CheckState) (entry : BitVec 64) : CheckState :=
  let nbCsectors := (clearCopied entry).toNat / 2 ^ s.csizeShift % 2 ^ (s.clusterBits - 8) + 1
  let offset := (clearCopied entry).toNat % 2 ^ s.csizeShift
  s.incRefcounts (st.corruptedIf (entry &&& qcowOflagCopied ≠ 0)) (offset / 512 * 512 : Nat) (nbCsectors * 512)

/-- A round of `check_refcounts_l2`. -/
def checkL2Entry (checkCopied : Bool) (st : CheckState) (entry : BitVec 64) : Option CheckState :=
  if entry = 0 then some st
  else if isCompressed entry then some (s.markCompressed st entry)
  else do
    let st ← if checkCopied then s.checkCopied st entry else some st
    return s.markCluster st (clearCopied entry)

def checkRefcountsL2 (checkCopied : Bool) (st : CheckState) (l2Offset : BitVec 64) : Option CheckState := do
  let l2Table ← bdrvPread s.file l2Offset.toInt s.clusterSize
  (List.range (2 ^ (s.clusterBits - 3))).foldlM
    (fun st i => s.checkL2Entry checkCopied st (.ofNat 64 (beEntry 8 l2Table i))) st

/-- A round of `check_refcounts_l1`. -/
def checkL1Entry (checkCopied : Bool) (st : CheckState) (entry : BitVec 64) : Option CheckState :=
  if entry = 0 then some st
  else do
    let st ← if checkCopied then s.checkCopied st entry else some st
    s.checkRefcountsL2 checkCopied (s.markCluster st (clearCopied entry)) (clearCopied entry)

/-- `check_refcounts_l1`. The size of a table is negative for a negative number of entries, as an int64, and
too much to allocate, as a size. -/
def checkRefcountsL1 (checkCopied : Bool) (st : CheckState) (l1TableOffset : Nat) (l1Size : Int) : Option CheckState := do
  let st := s.incRefcounts st (int64 l1TableOffset) (l1Size * 8)
  guard (0 ≤ l1Size)
  let l1Table ← bdrvPread s.file (int64 l1TableOffset) (l1Size.toNat * 8)
  (List.range l1Size.toNat).foldlM (fun st i => s.checkL1Entry checkCopied st (.ofNat 64 (beEntry 8 l1Table i))) st

/-- The round for a refcount block. -/
def checkBlock (st : CheckState) (i : Nat) : CheckState :=
  let offset := beEntry 8 s.refcountTable i
  let cluster := offset / s.clusterSize
  if offset % s.clusterSize ≠ 0 then st.corrupted
  else if cluster ≥ uint64 s.nbClusters then st.corrupted
  else if offset = 0 then st
  else
    let st := s.incRefcounts st (int64 offset) s.clusterSize
    st.corruptedIf (st.refcounts cluster ≠ 1)

/-- The round that compares the refcounts of a cluster. -/
def compareRefcounts (st : CheckState) (i : Nat) : CheckState :=
  (s.getRefcount i).elim st.failed fun refcount1 =>
    let refcount2 := (st.refcounts i).toNat
    if refcount1 < refcount2 then st.corrupted
    else if refcount2 < refcount1 then { st with leaks := st.leaks + 1 }
    else st

/-- `qcow2_check_refcounts`, unless it returns an error. -/
def checkRefcounts : Option CheckState := do
  guard (0 ≤ s.nbClusters)
  let st := s.incRefcounts ⟨fun _ => 0, 0, 0, 0⟩ 0 s.clusterSize
  let st ← s.checkRefcountsL1 true st s.l1TableOffset s.l1Size
  let st ← s.snapshots.foldlM (fun st sn => s.checkRefcountsL1 false st sn.l1TableOffset (int32 sn.l1Size)) st
  let st := s.incRefcounts st (int64 s.snapshotsOffset) s.snapshotsSize
  let st := s.incRefcounts st (int64 s.refcountTableOffset) (s.refcountTableSize * 8)
  let st := (List.range s.refcountTableSize).foldl s.checkBlock st
  return (List.range s.nbClusters.toNat).foldl s.compareRefcounts st

end OpenImage

/-- What is to hold of the image that is made for a request: the loop ends, the entries that are counted are
in the refcount blocks, and the image opens and has no corruption and no leak. -/
def CreateRequest.Consistent (r : CreateRequest) : Prop :=
  ∃ fuel image, r.create fuel = some image ∧ (∀ i ∈ image.entries, 0 ≤ i ∧ i < image.blockEntries) ∧
    ∃ s, qcowOpen image.file = some s ∧
      ∃ st, s.checkRefcounts = some st ∧ st.corruptions = 0 ∧ st.leaks = 0

end Colama.Qemu.Qcow2

import Mathlib.Tactic

namespace Colama.Qemu.Qcow2

def qcowOflagCopied : BitVec 64 := BitVec.twoPow 64 63

def qcowOflagCompressed : BitVec 64 := BitVec.twoPow 64 62

/-- An entry without its copied flag. -/
def clearCopied (entry : BitVec 64) : BitVec 64 := entry &&& ~~~qcowOflagCopied

def isCompressed (entry : BitVec 64) : Bool := entry &&& qcowOflagCompressed ≠ 0

/-- The tables of an image as `qcow2_get_cluster_offset` finds them. An L2 table is loaded from an offset in
the file, which may fail; its entries are in the order of the host. -/
structure Tables where
  clusterBits : Nat
  minClusterBits : 9 ≤ clusterBits
  maxClusterBits : clusterBits ≤ 21
  l1Size : Nat
  isInt : l1Size < 2 ^ 31
  l1Table : Nat → BitVec 64
  l2Load : BitVec 64 → Option (Nat → BitVec 64)

/-- The arguments of `qcow2_get_cluster_offset`. -/
structure ClusterRequest where
  offset : Nat
  isUInt64 : offset < 2 ^ 64
  num : Nat
  pos : 1 ≤ num
  isInt : num < 2 ^ 31

/-- How many of the next `n` entries from `i` on satisfy the test, added to `i`. -/
def countWhile (test : Nat → Bool) : (n i : Nat) → Nat
  | 0, i => i
  | n + 1, i => if test i then countWhile test n (i + 1) else i

namespace Tables

def countContiguousClusters (nbClusters clusterSize : Nat) (l2Table : Nat → BitVec 64) (mask : BitVec 64) : Nat :=
  let offset := l2Table 0 &&& ~~~mask
  if offset = 0 then 0
  else countWhile (fun i => offset + BitVec.ofNat 64 (i * clusterSize) = l2Table i &&& ~~~mask) nbClusters 0

def countContiguousFreeClusters (nbClusters : Nat) (l2Table : Nat → BitVec 64) : Nat :=
  countWhile (fun i => l2Table i = 0) nbClusters 0

variable (t : Tables)

def clusterSize : Nat := 2 ^ t.clusterBits

def clusterSectors : Nat := 2 ^ (t.clusterBits - 9)

def l2Bits : Nat := t.clusterBits - 3

def l2Size : Nat := 2 ^ t.l2Bits

def l1Bits : Nat := t.l2Bits + t.clusterBits

def indexInCluster (offset : Nat) : Nat := (offset >>> 9) % t.clusterSectors

/-- `nb_available` before the tables are read: the sectors from the start of the cluster up to the end of
what the entry of the L1 table describes. -/
def nbAvailable (offset : Nat) : Nat :=
  (2 ^ t.l1Bits - offset % 2 ^ t.l1Bits) >>> 9 + t.indexInCluster offset

/-- `nb_needed`. -/
def nbNeeded (r : ClusterRequest) : Nat := min (r.num + t.indexInCluster r.offset) (t.nbAvailable r.offset)

def nbClusters (r : ClusterRequest) : Nat := (t.nbNeeded r <<< 9 + (t.clusterSize - 1)) >>> t.clusterBits

/-- What is found in the L1 table, with an unsigned int for its index: no table, or one that may not load. -/
def findL2 (offset : Nat) : Option (Option (Nat → BitVec 64)) :=
  let l1Index := (offset >>> t.l1Bits) % 2 ^ 32
  if l1Index ≥ t.l1Size then none
  else if t.l1Table l1Index = 0 then none
  else some (t.l2Load (clearCopied (t.l1Table l1Index)))

/-- `*num` and `*cluster_offset` from the number of sectors that are available. -/
def clusterResult (r : ClusterRequest) (nbAvailable : Nat) (clusterOffset : BitVec 64) : Int × BitVec 64 :=
  ((min nbAvailable (t.nbNeeded r) : Nat) - (t.indexInCluster r.offset : Nat), clearCopied clusterOffset)

/-- `qcow2_get_cluster_offset`, if it succeeds. -/
def getClusterOffset (r : ClusterRequest) : Option (Int × BitVec 64) :=
  match t.findL2 r.offset with
  | none => some (t.clusterResult r (t.nbAvailable r.offset) 0)
  | some none => none
  | some (some l2Table) =>
    let l2Index := (r.offset >>> t.clusterBits) % t.l2Size
    let clusterOffset := l2Table l2Index
    let c :=
      if clusterOffset = 0 then countContiguousFreeClusters (t.nbClusters r) fun i => l2Table (l2Index + i)
      else
        countContiguousClusters (t.nbClusters r) t.clusterSize (fun i => l2Table (l2Index + i)) qcowOflagCopied
    some (t.clusterResult r (c * t.clusterSectors) clusterOffset)

/-- The end of what `qcow_read` and `qcow_aio_read_cb` copy out of `cluster_cache`. -/
def cacheCopyEnd (offset : Nat) (num : Int) : Int := t.indexInCluster offset * 512 + 512 * num

end Tables

end Colama.Qemu.Qcow2

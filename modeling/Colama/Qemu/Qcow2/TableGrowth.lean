import Colama.Lib.Climb

namespace Colama.Qemu.Qcow2

open Lib

/-- Where `alloc_refcount_block` has to grow the refcount table: the caller has handed out the cluster, a
block for it has been taken from the free clusters, and the table has no entry for it. -/
structure TableGrowth where
  clusterBits : Nat
  minClusterBits : 9 ≤ clusterBits
  maxClusterBits : clusterBits ≤ 21
  refcountTableSize : Nat
  isUInt32 : refcountTableSize < 2 ^ 32
  freeClusterIndex : Nat
  clusterIndex : Nat
  handedOut : clusterIndex < freeClusterIndex
  /-- The offset of `new_block` is an `int64_t`. -/
  isOffset : (freeClusterIndex - 1) * 2 ^ clusterBits < 2 ^ 63
  mustGrow : refcountTableSize ≤ (clusterIndex >>> (clusterBits - 1)) % 2 ^ 32

/-- A step of the loop of `next_refcount_table_size`. -/
def growClusters (refcountTableClusters : Nat) : Nat := (refcountTableClusters * 3 + 1) % 2 ^ 32 / 2

namespace TableGrowth

variable (g : TableGrowth)

def clusterSize : Nat := 2 ^ g.clusterBits

def refcountBlockClusters : Nat := 2 ^ (g.clusterBits - 1)

/-- The entries of a cluster of the refcount table. -/
def clusterEntries : Nat := 2 ^ (g.clusterBits - 3)

def refcountTableIndex : Nat := (g.clusterIndex >>> (g.clusterBits - 1)) % 2 ^ 32

def sizeToClusters (size : Nat) : Nat := (size + (g.clusterSize - 1)) >>> g.clusterBits

/-- `next_refcount_table_size`. Its loop takes a step for each cluster at most, as each adds one. -/
def nextRefcountTableSize (minSize : Nat) : Nat :=
  let minClusters := (minSize >>> (g.clusterBits - 3)) + 1
  let refcountTableClusters := max 1 (g.refcountTableSize >>> (g.clusterBits - 3))
  climb growClusters minClusters minClusters refcountTableClusters <<< (g.clusterBits - 3) % 2 ^ 32

def blocksUsed : Nat := (g.freeClusterIndex + g.refcountBlockClusters - 1) / g.refcountBlockClusters

/-- `blocks_clusters` for a table of the size, which the loop takes for a size in bytes. -/
def blocksClusters (tableSize : Nat) : Nat :=
  1 + (g.sizeToClusters tableSize + g.refcountBlockClusters - 1) / g.refcountBlockClusters

/-- The blocks for `meta_clusters`. -/
def metaBlocks (tableSize : Nat) : Nat :=
  let metaClusters := g.sizeToClusters tableSize + g.blocksClusters tableSize
  (metaClusters + g.refcountBlockClusters - 1) / g.refcountBlockClusters

/-- The loop that computes `table_size`, with `blocks_clusters`, if it ends within `fuel` rounds. -/
@[grind] def tableSizeLoop : (fuel tableSize : Nat) → Option (Nat × Nat)
  | 0, _ => none
  | fuel + 1, lastTableSize =>
    let tableSize := g.nextRefcountTableSize ((g.blocksUsed + g.metaBlocks lastTableSize) % 2 ^ 32)
    if lastTableSize ≠ tableSize then tableSizeLoop fuel tableSize
    else some (tableSize, g.blocksClusters lastTableSize)

/-- `table_size` and `blocks_clusters`. -/
def grownTable (fuel : Nat) : Option (Nat × Nat) :=
  g.tableSizeLoop fuel (g.nextRefcountTableSize ((g.blocksUsed + 1) % 2 ^ 32))

def metaOffset : Nat := g.blocksUsed * g.refcountBlockClusters * g.clusterSize % 2 ^ 64

/-- `table_clusters` after the loop. -/
def tableClusters (tableSize : Nat) : Nat := g.sizeToClusters (tableSize * 8)

/-- What is to hold of the new table and the new blocks. A cluster that has been handed out is one before
`free_cluster_index`, or one with a count in the old table. -/
structure InBounds (tableSize blocksClusters : Nat) : Prop where
  blocks : g.blocksUsed + blocksClusters ≤ tableSize
  index : g.refcountTableIndex < tableSize
  entries : g.tableClusters tableSize + blocksClusters ≤ blocksClusters * g.refcountBlockClusters
  past : ∀ k, k < g.freeClusterIndex ∨ k < g.refcountTableSize * g.refcountBlockClusters →
    (k + 1) * g.clusterSize ≤ g.metaOffset

/-- Some size that the table grows to has room for one more block than are used, and takes two clusters less
than there are bytes in one at most. -/
def GrowsInside : Prop :=
  ∃ n, let clusters := (fun k => (k * 3 + 1) / 2)^[n] (max 1 (g.refcountTableSize / g.clusterEntries))
    g.blocksUsed + 1 < clusters * g.clusterEntries ∧ clusters + 2 ≤ g.clusterSize ∧
      clusters * g.clusterEntries < 2 ^ 32

end TableGrowth

end Colama.Qemu.Qcow2

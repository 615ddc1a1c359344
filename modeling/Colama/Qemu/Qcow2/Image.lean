import Colama.Lib.RefCounts

namespace Colama.Qemu.Qcow2

open Lib

def maxCryptClusters : Nat := 32

/-- What is fixed about an open image: its geometry, its cipher, its backing file and its decompressor.
A sector of `α` is 512 bytes; offsets in the file are counted in clusters where they name one. -/
structure Image (α : Type*) where
  clusterBits : Nat
  minClusterBits : 9 ≤ clusterBits
  maxClusterBits : clusterBits ≤ 21
  totalSectors : Nat
  sizeBound : totalSectors * 512 < 2 ^ 63
  cryptMethod : Bool
  encrypt : Nat → α → α
  decrypt : Nat → α → α
  decrypt_encrypt : ∀ n x, decrypt n (encrypt n x) = x
  /-- A sector of the backing file, or zeros where there is none. -/
  backing : Nat → α
  /-- The sector of a cluster that the given sectors hold from the given byte on. -/
  inflate : List α → Nat → Nat → α

namespace Image

variable {α : Type*} (C : Image α)

def clusterSize : Nat := 2 ^ C.clusterBits
def clusterSectors : Nat := 2 ^ (C.clusterBits - 9)
def l2Size : Nat := 2 ^ (C.clusterBits - 3)

theorem clusterSize_eq : C.clusterSize = C.clusterSectors * 512 := by
  have h := C.minClusterBits
  show 2 ^ C.clusterBits = 2 ^ (C.clusterBits - 9) * 2 ^ 9
  rw [← pow_add, Nat.sub_add_cancel h]

theorem clusterSectors_pos : 0 < C.clusterSectors := Nat.two_pow_pos _

theorem clusterSize_pos : 0 < C.clusterSize := Nat.two_pow_pos _

theorem l2Size_pos : 0 < C.l2Size := Nat.two_pow_pos _

theorem clusterSize_le : C.clusterSize ≤ 2 ^ 21 := Nat.pow_le_pow_right (by omega) C.maxClusterBits

theorem clusterSectors_le : C.clusterSectors ≤ 2 ^ 12 := by
  have h := C.clusterSize_le
  rw [C.clusterSize_eq] at h
  omega

def toFile (n : Nat) (x : α) : α := if C.cryptMethod then C.encrypt n x else x
def fromFile (n : Nat) (x : α) : α := if C.cryptMethod then C.decrypt n x else x

@[simp] theorem fromFile_toFile (n : Nat) (x : α) : C.fromFile n (C.toFile n x) = x := by
  cases h : C.cryptMethod with
  | true => simp [toFile, fromFile, h, C.decrypt_encrypt]
  | false => simp [toFile, fromFile, h]

end Image

/-- An entry of an L2 table: its flags and the place in the file it names. -/
inductive L2Entry where
  | free
  | standard (copied : Bool) (cluster : Nat)
  | compressed (coffset nbCsectors : Nat)
  deriving DecidableEq

inductive L1Entry where
  | free
  | table (copied : Bool) (cluster : Nat)
  deriving DecidableEq

/-- The part of an open image that changes. The tables stand for their contents: `l2` is indexed by
the guest's clusters and holds what the table named by `l1` holds for them. -/
structure BDRVQcowState (α : Type*) where
  l1 : Nat → L1Entry
  l2 : Nat → L2Entry
  file : Nat → α
  refcounts : List Nat
  freeClusterIndex : Nat

namespace BDRVQcowState

variable {α : Type*} (C : Image α) (s : BDRVQcowState α)

def entry (a : Nat) : L2Entry :=
  match s.l1 (a / C.l2Size) with
  | .free => .free
  | .table _ _ => s.l2 a

def refcount (i : Nat) : Nat := s.refcounts.getD i 0

end BDRVQcowState

/-- The first of the clusters of the file that an entry occupies, and their number. -/
def L2Entry.extent {α : Type*} (C : Image α) : L2Entry → Nat × Nat
  | .free => (0, 0)
  | .standard _ c => (c, 1)
  | .compressed coffset n =>
    let start := coffset / 512 * 512
    (start / C.clusterSize, (start + n * 512 - 1) / C.clusterSize + 1 - start / C.clusterSize)

def L2Entry.hosts {α : Type*} (C : Image α) (e : L2Entry) : List Nat :=
  List.range' (e.extent C).1 (e.extent C).2

def L1Entry.hosts : L1Entry → List Nat
  | .free => []
  | .table _ c => [c]

/-- The clusters of the file that an entry of the L1 table, on the left, or of an L2 table names. -/
def BDRVQcowState.hosts {α : Type*} (C : Image α) (s : BDRVQcowState α) : Nat ⊕ Nat → List Nat
  | .inl t => (s.l1 t).hosts
  | .inr a => (s.entry C a).hosts C

section Refcounts

variable {α : Type*} (C : Image α) (s : BDRVQcowState α)

/-- The counts with a function applied to those of a run of clusters. -/
def updateRefcount (rc : List Nat) (first n : Nat) (f : Nat → Nat) : List Nat :=
  (List.range (max rc.length (first + n))).map fun i =>
    if first ≤ i ∧ i < first + n then f (rc.getD i 0) else rc.getD i 0

/-- `qcow2_free_clusters`: a count that is zero already undoes the others, but not the lowered search
index. -/
def freeClusters (first n : Nat) : BDRVQcowState α :=
  let run := List.range' first n
  let done := run.takeWhile (s.refcount · != 0)
  { s with
    refcounts := if done.length = n then updateRefcount s.refcounts first n (· - 1) else s.refcounts
    freeClusterIndex :=
      done.foldl (fun f i => if s.refcount i = 1 ∧ i < f then i else f) s.freeClusterIndex }

def freeAnyClusters (e : L2Entry) : BDRVQcowState α := freeClusters s (e.extent C).1 (e.extent C).2

/-- The search of `alloc_clusters_noref`, from the next cluster with `i` free ones before it. -/
def searchFree (rc : List Nat) (nbClusters : Nat) : Nat → Nat → Nat → Nat
  | 0, next, _ => next
  | fuel + 1, next, i =>
    if i = nbClusters then next
    else if rc.getD next 0 = 0 then searchFree rc nbClusters fuel (next + 1) (i + 1)
    else searchFree rc nbClusters fuel (next + 1) 0

def allocClusters (size : Nat) : Nat × BDRVQcowState α :=
  let nbClusters := (size + (C.clusterSize - 1)) / C.clusterSize
  let next := searchFree s.refcounts nbClusters (s.refcounts.length + nbClusters + 1) s.freeClusterIndex 0
  (next - nbClusters,
    { s with
      freeClusterIndex := next
      refcounts := updateRefcount s.refcounts (next - nbClusters) nbClusters (· + 1) })

/-- `l2_allocate`: the entry of the L1 table gets a table of its own, a copy of the one it named. -/
def l2Allocate (t : Nat) : BDRVQcowState α :=
  let offset := allocClusters C s (C.l2Size * 8)
  { offset.2 with
    l1 := Function.update s.l1 t (.table true offset.1)
    l2 :=
      match s.l1 t with
      | .free => fun a => if a / C.l2Size = t then .free else s.l2 a
      | .table _ _ => s.l2 }

/-- `get_cluster_table`, for the table that maps the given guest cluster. -/
@[grind] def getClusterTable (a : Nat) : BDRVQcowState α :=
  match s.l1 (a / C.l2Size) with
  | .table true _ => s
  | .table false old => l2Allocate C (freeClusters s old 1) (a / C.l2Size)
  | .free => l2Allocate C s (a / C.l2Size)

end Refcounts

section Reading

variable {α : Type*} (C : Image α) (s : BDRVQcowState α)

/-- `qcow2_decompress_cluster`: the sectors of the file it inflates, and where the data starts in them. -/
def decompressCluster (coffset nbCsectors idx : Nat) : α :=
  C.inflate ((List.range' (coffset / 512) nbCsectors).map s.file) (coffset % 512) idx

/-- What `qcow_read` gives for a sector of the guest. -/
def qcowRead (x : Nat) : α :=
  match s.entry C (x / C.clusterSectors) with
  | .free => C.backing x
  | .compressed coffset n => decompressCluster C s coffset n (x % C.clusterSectors)
  | .standard _ c => C.fromFile x (s.file (c * C.clusterSectors + x % C.clusterSectors))

/-- Sectors of the file, from the given one on, replaced by sectors of the guest from `x` on. -/
def writeSectors (sector x : Nat) (buf : List α) : BDRVQcowState α :=
  { s with
    file := fun y =>
      if h : sector ≤ y ∧ y - sector < buf.length then C.toFile (x + (y - sector)) buf[y - sector] else s.file y }

/-- `copy_sectors`, with the cluster of the file counted in clusters. -/
def copySectors (startSect cluster nStart nEnd : Nat) : BDRVQcowState α :=
  writeSectors C s (cluster * C.clusterSectors + nStart) (startSect + nStart)
    ((List.range' (startSect + nStart) (nEnd - nStart)).map (qcowRead C s))

end Reading

end Colama.Qemu.Qcow2

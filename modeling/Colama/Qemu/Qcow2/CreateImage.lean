import Colama.Lib.Bytes
import Colama.Lib.Climb
import Colama.Lib.Files
import Colama.Qemu.Qcow2.Writes

namespace Colama.Qemu.Qcow2

open Lib

def int64 (z : Int) : Int := z.bmod (2 ^ 64)

/-- `get_bits_from_size`, which takes a step for each bit of the size. -/
def getBitsFromSize : (fuel size : Nat) → Option Nat
  | 0, _ => none
  | fuel + 1, size =>
    if size = 0 then none
    else if size = 1 then some 0
    else if size % 2 = 1 then none
    else (getBitsFromSize fuel (size / 2)).map (· + 1)

def alignOffset (offset : Int) (n : Nat) : Int := (offset + n - 1) / n * n

/-- The clusters that the bytes lie in, as `cluster_offset` runs over them. -/
def clusterRange (clusterSize : Nat) (offset size : Int) : List Int :=
  let start := offset / clusterSize
  let last := (offset + size - 1) / clusterSize
  (List.range (last + 1 - start).toNat).map fun i : Nat => start + i

def qcowMagic : Nat := 0x514649fb

def qcowVersion : Nat := 2

def qcowExtMagicBackingFormat : Nat := 0xe2792aca

structure QCowHeader where
  magic : Nat
  version : Nat
  backingFileOffset : Nat
  backingFileSize : Nat
  clusterBits : Nat
  size : Nat
  cryptMethod : Nat
  l1Size : Nat
  l1TableOffset : Nat
  refcountTableOffset : Nat
  refcountTableClusters : Nat
  nbSnapshots : Nat
  snapshotsOffset : Nat

namespace QCowHeader

def encode (h : QCowHeader) : List UInt8 :=
  beBytes 4 h.magic ++ (beBytes 4 h.version ++ (beBytes 8 h.backingFileOffset ++ (beBytes 4 h.backingFileSize ++
    (beBytes 4 h.clusterBits ++ (beBytes 8 h.size ++ (beBytes 4 h.cryptMethod ++ (beBytes 4 h.l1Size ++
      (beBytes 8 h.l1TableOffset ++ (beBytes 8 h.refcountTableOffset ++ (beBytes 4 h.refcountTableClusters ++
        (beBytes 4 h.nbSnapshots ++ beBytes 8 h.snapshotsOffset)))))))))))

def decode (bs : List UInt8) : QCowHeader where
  magic := beField bs 0 4
  version := beField bs 4 4
  backingFileOffset := beField bs 8 8
  backingFileSize := beField bs 16 4
  clusterBits := beField bs 20 4
  size := beField bs 24 8
  cryptMethod := beField bs 32 4
  l1Size := beField bs 36 4
  l1TableOffset := beField bs 40 8
  refcountTableOffset := beField bs 48 8
  refcountTableClusters := beField bs 56 4
  nbSnapshots := beField bs 60 4
  snapshotsOffset := beField bs 64 8

end QCowHeader

/-- What `qcow_create2` is called with, apart from preallocation. The size is in sectors. -/
structure CreateRequest where
  totalSize : Int
  backingFile : Option (List UInt8)
  backingFormat : Option (List UInt8)
  encrypt : Bool
  clusterSize : Nat
  clusterBits : Nat
  isClusterSize : getBitsFromSize 64 clusterSize = some clusterBits
  minClusterBits : 9 ≤ clusterBits
  maxClusterBits : clusterBits ≤ 21
  /-- `header_size` is an int, as are the lengths of the names. -/
  isInt : ((backingFormat.getD []).length + 15) / 8 * 8 + (backingFile.getD []).length + 79 < 2 ^ 31

/-- An image, with the entries that have been counted in the refcount blocks and how many these have. -/
structure CreatedImage where
  file : File
  entries : List Int
  blockEntries : Nat

/-- One more for an entry of the refcount blocks. -/
def countEntry (refcountBlock : Int → UInt16) (i : Int) : Int → UInt16 :=
  Function.update refcountBlock i (refcountBlock i + 1)

/-- Where the next bytes go: `lseek` leaves the place as it is for an offset that is negative. -/
def seek (pos : Nat) (offset : Int) : Nat := if 0 ≤ offset then offset.toNat else pos

namespace CreateRequest

variable (r : CreateRequest)

/-- `rounded_ext_bf_len`. -/
def roundedExtBfLen : Nat :=
  match r.backingFile, r.backingFormat with
  | some _, some backingFormat => (8 + backingFormat.length + 7) / 8 * 8
  | _, _ => 0

def backingFilenameLen : Nat := (r.backingFile.getD []).length

def headerSize : Nat := (72 + r.roundedExtBfLen + r.backingFilenameLen + 7) / 8 * 8

def shift : Nat := r.clusterBits + (r.clusterBits - 3)

/-- `total_size * 512`. -/
def size : Int := int64 (r.totalSize * 512)

def l1Size : Int := int32 (int64 (r.size + 2 ^ r.shift - 1) / 2 ^ r.shift)

def l1TableOffset : Int := alignOffset r.headerSize r.clusterSize

def refcountTableOffset : Nat := uint64 (r.l1TableOffset + alignOffset (r.l1Size * 8) r.clusterSize)

def numClusters (bytes : Nat) : Nat := uint64 (bytes + r.clusterSize - 1) / r.clusterSize

def reftableClusters (refClusters : Int) : Int := int32 (r.numClusters (uint64 (refClusters * 8)))

def imageClusters (refClusters : Int) : Nat :=
  uint64 (r.numClusters r.refcountTableOffset + refClusters + r.reftableClusters refClusters)

/-- `ref_clusters` for the clusters of an image. -/
def refClustersFor (imageClusters : Nat) : Int := int32 (r.numClusters (uint64 (imageClusters * 2)))

/-- The loop that computes `ref_clusters`, if it ends within `fuel` rounds. -/
def refClusters (fuel : Nat) : Option Int :=
  settle (fun refClusters => r.refClustersFor (r.imageClusters refClusters)) fuel
    (r.refClustersFor (r.numClusters r.refcountTableOffset))

variable (refClusters : Int)

/-- `reftable_clusters * s->cluster_size`. -/
def tableBytes : Int := int32 (r.reftableClusters refClusters * r.clusterSize)

/-- `ref_clusters * s->cluster_size`. -/
def blockBytes : Int := int32 (refClusters * r.clusterSize)

def refcountBlockOffset : Nat := uint64 (r.refcountTableOffset + r.tableBytes refClusters)

def refcountTable (i : Nat) : Nat :=
  if i < refClusters then uint64 (r.refcountBlockOffset refClusters + i * r.clusterSize) else 0

/-- The entries that the four calls of `qcow2_create_refcount_update` count. -/
def updatedEntries : List Int :=
  clusterRange r.clusterSize 0 r.headerSize ++ clusterRange r.clusterSize r.l1TableOffset (r.l1Size * 8) ++
    clusterRange r.clusterSize (int64 r.refcountTableOffset) (r.tableBytes refClusters) ++
      clusterRange r.clusterSize (int64 (r.refcountBlockOffset refClusters)) (r.blockBytes refClusters)

def refcountBlock : Int → UInt16 := (r.updatedEntries refClusters).foldl countEntry fun _ => 0

def header : QCowHeader where
  magic := qcowMagic
  version := qcowVersion
  backingFileOffset := if r.backingFile.isSome then 72 + r.roundedExtBfLen else 0
  backingFileSize := r.backingFilenameLen
  clusterBits := r.clusterBits
  size := uint64 r.size
  cryptMethod := if r.encrypt then 1 else 0
  l1Size := uint32 r.l1Size
  l1TableOffset := uint64 r.l1TableOffset
  refcountTableOffset := r.refcountTableOffset
  refcountTableClusters := uint32 (r.reftableClusters refClusters)
  nbSnapshots := 0
  snapshotsOffset := 0

/-- What follows the header: the extension, which is only written for a format that is not empty, and the
name. -/
def afterHeader : List UInt8 :=
  match r.backingFile, r.backingFormat with
  | none, _ => []
  | some backingFile, none => backingFile
  | some backingFile, some backingFormat =>
    if backingFormat.length = 0 then backingFile
    else beBytes 4 qcowExtMagicBackingFormat ++ beBytes 4 backingFormat.length ++ backingFormat ++
      List.replicate (r.roundedExtBfLen - (backingFormat.length + 8)) 0 ++ backingFile

/-- What is written before the first `lseek`. -/
def front : List UInt8 := (r.header refClusters).encode ++ r.afterHeader

def l1Table : List UInt8 := List.replicate (r.l1Size.toNat * 8) 0

def table : List UInt8 := beArray 8 ((r.tableBytes refClusters).toNat / 8) (r.refcountTable refClusters)

def blocks : List UInt8 :=
  beArray 2 ((r.blockBytes refClusters).toNat / 2) fun i => (r.refcountBlock refClusters i).toNat

def l1Pos : Nat := seek (r.front refClusters).length r.l1TableOffset

def tablePos : Nat := seek (r.l1Pos refClusters + r.l1Table.length) (int64 r.refcountTableOffset)

def blockPos : Nat :=
  seek (r.tablePos refClusters + (r.table refClusters).length) (int64 (r.refcountBlockOffset refClusters))

/-- The file, from one `lseek` to the next. -/
def writtenFile : File :=
  (((File.empty.write 0 (r.front refClusters)).write (r.l1Pos refClusters) r.l1Table).write
    (r.tablePos refClusters) (r.table refClusters)).write (r.blockPos refClusters) (r.blocks refClusters)

/-- `qcow_create2`, if the loop ends within `fuel` rounds. To allocate a negative number of bytes aborts. -/
def create (fuel : Nat) : Option CreatedImage :=
  (r.refClusters fuel).bind fun refClusters =>
    if r.tableBytes refClusters < 0 ∨ r.blockBytes refClusters < 0 then none
    else some {
      file := r.writtenFile refClusters
      entries := r.updatedEntries refClusters
      blockEntries := (r.blockBytes refClusters).toNat / 2 }

end CreateRequest

end Colama.Qemu.Qcow2

import Colama.Qemu.Qcow2.CreateImage

namespace Colama.Qemu.Qcow2

open Lib

/-- `bdrv_pread` of a size that is to be equal to the int it returns. -/
def bdrvPread (f : File) (offset : Int) (size : Nat) : Option (List UInt8) :=
  if size = 0 then some []
  else if 0 ≤ offset ∧ size < 2 ^ 31 then some (f.read offset.toNat size)
  else none

/-- What a buffer holds as a string. -/
def cString (bytes : List UInt8) : List UInt8 := bytes.takeWhile (· ≠ 0)

/-- What there is at a place where an extension is looked for. -/
inductive ExtensionRead
  | failed
  | ended
  | next (offset : Nat) (backingFormat : Option (List UInt8))

/-- The extension that starts with the eight bytes at the offset. -/
def extensionAt (f : File) (offset : Nat) (ext : List UInt8) : ExtensionRead :=
  let len := beField ext 4 4
  let next := uint64 (offset + 8 + len + 7) / 8 * 8
  if beField ext 0 4 = 0 then .ended
  else if beField ext 0 4 = qcowExtMagicBackingFormat then
    if 16 ≤ len then .failed
    else (bdrvPread f (int64 (offset + 8)) len).elim .failed fun format => .next next (some (cString format))
  else .next next none

/-- A round of `qcow_read_extensions`. -/
def readExtension (f : File) (offset : Nat) : ExtensionRead :=
  (bdrvPread f (int64 offset) 8).elim .failed (extensionAt f offset)

/-- The loop of `qcow_read_extensions`, which leaves the format of the last extension that has one. -/
def walkExtensions (read : Nat → ExtensionRead) (endOffset : Nat) :
    (fuel offset : Nat) → (backingFormat : List UInt8) → Option (List UInt8)
  | 0, _, _ => none
  | fuel + 1, offset, backingFormat =>
    if offset < endOffset then
      match read offset with
      | .failed => none
      | .ended => some backingFormat
      | .next offset format => walkExtensions read endOffset fuel offset (format.getD backingFormat)
    else some backingFormat

/-- `qcow_read_extensions`. There are fewer extensions than bytes. -/
def readExtensions (f : File) (startOffset endOffset : Nat) : Option (List UInt8) :=
  walkExtensions (readExtension f) endOffset (endOffset + 1) startOffset []

structure QCowSnapshot where
  l1TableOffset : Nat
  l1Size : Nat
  idStr : List UInt8
  name : List UInt8
  vmStateSize : Nat
  dateSec : Nat
  dateNsec : Nat
  vmClockNsec : Nat

/-- The snapshot at an offset, and the offset after it. -/
def readSnapshot (f : File) (offset : Int) : Option (QCowSnapshot × Int) :=
  let start := alignOffset offset 8
  (bdrvPread f start 40).bind fun h =>
    let idStrSize := beField h 12 2
    let nameSize := beField h 14 2
    let afterExtra := int64 (start + 40 + beField h 36 4)
    (bdrvPread f afterExtra idStrSize).bind fun idStr =>
      (bdrvPread f (int64 (afterExtra + idStrSize)) nameSize).map fun name =>
        ({ l1TableOffset := beField h 0 8
           l1Size := beField h 8 4
           idStr := cString idStr
           name := cString name
           vmStateSize := beField h 32 4
           dateSec := beField h 16 4
           dateNsec := beField h 20 4
           vmClockNsec := beField h 24 8 }, int64 (afterExtra + idStrSize + nameSize))

/-- The snapshots of `qcow2_read_snapshots` and the offset after them. -/
@[grind] def readSnapshots (f : File) : (n : Nat) → (offset : Int) → Option (List QCowSnapshot × Int)
  | 0, offset => some ([], offset)
  | n + 1, offset =>
    (readSnapshot f offset).bind fun (sn, next) =>
      (readSnapshots f n next).map fun (snapshots, last) => (sn :: snapshots, last)

/-- An image that is open. The tables are as they are in the file. -/
structure OpenImage where
  file : File
  clusterBits : Nat
  l1Size : Int
  l1TableOffset : Nat
  refcountTableOffset : Nat
  refcountTableSize : Nat
  refcountTable : List UInt8
  backingFormat : List UInt8
  backingFile : List UInt8
  snapshotsOffset : Nat
  snapshots : List QCowSnapshot
  snapshotsSize : Int

/-- `size_to_l1`. -/
def sizeToL1 (clusterBits size : Nat) : Int :=
  let shift := clusterBits + (clusterBits - 3)
  int32 (uint64 (size + 2 ^ shift - 1) / 2 ^ shift : Nat)

namespace QCowHeader

variable (header : QCowHeader)

/-- The tests of `qcow_open` before anything but the header is read. -/
def Accepted : Prop :=
  header.magic = qcowMagic ∧ header.version = qcowVersion ∧ 9 ≤ header.clusterBits ∧ header.clusterBits ≤ 21 ∧
    header.cryptMethod ≤ 1 ∧ sizeToL1 header.clusterBits header.size ≤ int32 header.l1Size

instance : Decidable header.Accepted := inferInstanceAs (Decidable (_ ∧ _ ∧ _ ∧ _ ∧ _ ∧ _))

/-- `s->refcount_table_size`. -/
def refcountTableSize : Nat := uint32 (header.refcountTableClusters * 2 ^ (header.clusterBits - 3))

/-- `qcow2_refcount_init`: the table is allocated with an int for its size in bytes, and read. -/
def refcountInit (f : File) : Option (List UInt8) :=
  let refcountTableSize2 := int32 (header.refcountTableSize * 8)
  if refcountTableSize2 < 0 then none
  else bdrvPread f (int64 header.refcountTableOffset) refcountTableSize2.toNat

/-- The L1 table is read, if it has entries, and then the refcount table. -/
def readTables (f : File) : Option (List UInt8) :=
  (bdrvPread f (int64 header.l1TableOffset) ((int32 header.l1Size).toNat * 8)).bind fun _ => header.refcountInit f

/-- Where the extensions end. -/
def extEnd : Nat := if header.backingFileOffset ≠ 0 then header.backingFileOffset else 2 ^ header.clusterBits

/-- The name of the backing file, cut off where the buffer ends. A negative length is left out, for which the
string would be ended before the buffer. -/
def readBackingFile (f : File) : Option (List UInt8) :=
  if header.backingFileOffset = 0 then some []
  else if int32 header.backingFileSize < 0 then none
  else (bdrvPread f (int64 header.backingFileOffset) (min header.backingFileSize 1023)).map cString

/-- The format that the extensions have and the name of the backing file. -/
def readNames (f : File) : Option (List UInt8 × List UInt8) :=
  (readExtensions f 72 header.extEnd).bind fun backingFormat =>
    (header.readBackingFile f).map fun backingFile => (backingFormat, backingFile)

/-- `qcow2_read_snapshots`, with `snapshots_size`. -/
def readSnapshots (f : File) : Option (List QCowSnapshot × Int) :=
  if header.nbSnapshots = 0 then some ([], 0)
  else if int32 header.nbSnapshots < 0 then none
  else (Qcow2.readSnapshots f header.nbSnapshots (int64 header.snapshotsOffset)).map fun (snapshots, offset) =>
    (snapshots, int32 (offset - int64 header.snapshotsOffset))

end QCowHeader

def qcowOpen (f : File) : Option OpenImage :=
  (bdrvPread f 0 72).bind fun bytes =>
    let header := QCowHeader.decode bytes
    if header.Accepted then
      (header.readTables f).bind fun refcountTable =>
        (header.readNames f).bind fun (backingFormat, backingFile) =>
          (header.readSnapshots f).map fun (snapshots, snapshotsSize) => {
            file := f
            clusterBits := header.clusterBits
            l1Size := int32 header.l1Size
            l1TableOffset := header.l1TableOffset
            refcountTableOffset := header.refcountTableOffset
            refcountTableSize := header.refcountTableSize
            refcountTable := refcountTable
            backingFormat := backingFormat
            backingFile := backingFile
            snapshotsOffset := header.snapshotsOffset
            snapshots := snapshots
            snapshotsSize := snapshotsSize }
    else none

end Colama.Qemu.Qcow2

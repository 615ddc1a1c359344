import Colama.Lib.Memory
import Colama.Qemu.Block.Dirty

namespace Colama.Qemu.Block.ByteIo

open Lib.Memory

/-- A device with its contents. The length in bytes of a device is an `int64_t`; its dirty chunks are tracked apart. -/
structure Device where
  totalSectors : Nat
  totalSectors_lt : totalSectors < 2 ^ 54
  hasDriver : Bool
  mediumPresent : Bool
  growable : Bool
  readOnly : Bool
  wrHighestSector : Int
  bytes : Nat → UInt8

/-- `driver` is an error of the driver itself, which is all that is known of it outside the device. -/
inductive Error
  | noMedium | io | access | driver
  deriving DecidableEq

/-- What is done to the device stays done when an error follows. -/
abbrev Io := EStateM Error Device

def int64 (x : Int) : Int := x.bmod (2 ^ 64)

/-- A `size_t`. -/
def uint64 (x : Int) : Nat := (x % 2 ^ 64).toNat

def bdrvIsInserted (d : Device) : Bool := d.hasDriver && d.mediumPresent

def bdrvGetlength (d : Device) : Int := int64 (d.totalSectors * BDRV_SECTOR_SIZE)

def bdrvCheckByteRequest (d : Device) (offset : Int) (size : Nat) : Except Error Unit :=
  if bdrvIsInserted d = false then .error .noMedium
  else if d.growable then .ok ()
  else
    let len := bdrvGetlength d
    if offset < 0 then .error .io
    else if offset > len ∨ uint64 (len - offset) < size then .error .io
    else .ok ()

def bdrvCheckRequest (d : Device) (sectorNum nbSectors : Int) : Except Error Unit :=
  bdrvCheckByteRequest d (int64 (sectorNum * BDRV_SECTOR_SIZE)) (uint64 (nbSectors * BDRV_SECTOR_SIZE))

/-- The sectors of the request are sectors of the device. -/
def InDevice (d : Device) (sectorNum nbSectors : Int) : Prop :=
  0 ≤ sectorNum ∧ 0 ≤ nbSectors ∧ sectorNum + nbSectors ≤ d.totalSectors

instance (d : Device) (sectorNum nbSectors : Int) : Decidable (InDevice d sectorNum nbSectors) :=
  inferInstanceAs (Decidable (_ ∧ _))

/-- Where a sector is in the contents. -/
def sectorStart (sectorNum : Int) : Nat := sectorNum.toNat * BDRV_SECTOR_SIZE

def drvRead (sectorNum nbSectors : Int) : Io (List UInt8) := fun d =>
  if InDevice d sectorNum nbSectors then
    .ok (readFrom d.bytes (sectorStart sectorNum) (sectorStart nbSectors)) d
  else .error .driver d

def drvWrite (sectorNum : Int) (buf : List UInt8) (nbSectors : Int) : Io Unit := fun d =>
  if InDevice d sectorNum nbSectors then
    .ok () { d with bytes := writeFrom d.bytes (sectorStart sectorNum) (buf.take (sectorStart nbSectors)) }
  else .error .driver d

def bdrvRead (sectorNum nbSectors : Int) : Io (List UInt8) := fun d =>
  if d.hasDriver = false then .error .noMedium d
  else
    match bdrvCheckRequest d sectorNum nbSectors with
    | .error _ => .error .io d
    | .ok () => drvRead sectorNum nbSectors d

def bdrvWrite (sectorNum : Int) (buf : List UInt8) (nbSectors : Int) : Io Unit := fun d =>
  if d.hasDriver = false then .error .noMedium d
  else if d.readOnly then .error .access d
  else
    match bdrvCheckRequest d sectorNum nbSectors with
    | .error _ => .error .io d
    | .ok () =>
      drvWrite sectorNum buf nbSectors { d with wrHighestSector := max d.wrHighestSector (sectorNum + nbSectors - 1) }

/-- The bytes of `offset` in its sector. -/
def inSector (offset : Int) : Nat := (offset % BDRV_SECTOR_SIZE).toNat

/-- The bytes from `offset` up to the start of a sector, as far as they are asked for. -/
def headLength (offset count1 : Int) : Int := min ((BDRV_SECTOR_SIZE - offset) % BDRV_SECTOR_SIZE) count1

/-- The sectors that are read in place, and what is needed of the one behind them. -/
def preadRest (sectorNum count : Int) : Io (List UInt8) := do
  let nbSectors := count / BDRV_SECTOR_SIZE
  let whole ← if nbSectors > 0 then bdrvRead sectorNum nbSectors else pure []
  let sectorNum := if nbSectors > 0 then sectorNum + nbSectors else sectorNum
  let count := if nbSectors > 0 then count - nbSectors * BDRV_SECTOR_SIZE else count
  if count > 0 then do
    let tmpBuf ← bdrvRead sectorNum 1
    return whole ++ tmpBuf.take count.toNat
  else return whole

/-- The bytes that end up in the buffer; the call itself returns `count1`. -/
def bdrvPread (offset count1 : Int) : Io (List UInt8) :=
  let len := headLength offset count1
  let sectorNum := offset / BDRV_SECTOR_SIZE
  if len > 0 then do
    let tmpBuf ← bdrvRead sectorNum 1
    let head := (tmpBuf.drop (inSector offset)).take len.toNat
    if count1 - len = 0 then return head
    else do
      let rest ← preadRest (sectorNum + 1) (count1 - len)
      return head ++ rest
  else preadRest sectorNum count1

/-- `memcpy` of `bs` into the sector buffer. -/
def splice (tmpBuf : List UInt8) (off : Nat) (bs : List UInt8) : List UInt8 :=
  tmpBuf.take off ++ bs ++ tmpBuf.drop (off + bs.length)

def pwriteRest (sectorNum : Int) (buf : List UInt8) (count : Int) : Io Unit := do
  let nbSectors := count / BDRV_SECTOR_SIZE
  if nbSectors > 0 then bdrvWrite sectorNum buf nbSectors else pure ()
  let sectorNum := if nbSectors > 0 then sectorNum + nbSectors else sectorNum
  let buf := if nbSectors > 0 then buf.drop (sectorStart nbSectors) else buf
  let count := if nbSectors > 0 then count - nbSectors * BDRV_SECTOR_SIZE else count
  if count > 0 then do
    let tmpBuf ← bdrvRead sectorNum 1
    bdrvWrite sectorNum (splice tmpBuf 0 (buf.take count.toNat)) 1
  else pure ()

def bdrvPwrite (offset : Int) (buf : List UInt8) (count1 : Int) : Io Unit :=
  let len := headLength offset count1
  let sectorNum := offset / BDRV_SECTOR_SIZE
  if len > 0 then do
    let tmpBuf ← bdrvRead sectorNum 1
    bdrvWrite sectorNum (splice tmpBuf (inSector offset) (buf.take len.toNat)) 1
    if count1 - len = 0 then pure ()
    else pwriteRest (sectorNum + 1) (buf.drop len.toNat) (count1 - len)
  else pwriteRest sectorNum buf count1

end Colama.Qemu.Block.ByteIo

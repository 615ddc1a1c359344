import Colama.Qemu.Block.DirtyRuns

namespace Colama.Qemu.Block

def BLK_MIG_FLAG_DEVICE_BLOCK : Nat := 0x01
def BLK_MIG_FLAG_EOS : Nat := 0x02
def BLK_MIG_FLAG_PROGRESS : Nat := 0x04

/-- A block of the device, with what its buffer has for each sector. -/
structure BlkMigBlock (α : Type) where
  sector : Nat
  buf : Nat → α

/-- A read that was submitted for a block. The sectors in `left` have still to be read. -/
structure BlkMigRead (α : Type) extends BlkMigBlock α where
  nrSectors : Nat
  left : Nat → Bool

structure BlkMigDevState where
  bulkCompleted : Bool
  sharedBase : Bool
  curSector : Nat
  curDirty : Nat
  completedSectors : Nat
  totalSectors : Nat

/-- A word of the stream, and the device name and the block that follow it. -/
structure Record (α : Type) where
  addr : Nat
  block : Option (String × (Nat → α)) := none

/-- A write of the guest. The sectors in `left` have still to land on the disk. -/
structure GuestWrite (α : Type) where
  sector : Nat
  nbSectors : Nat
  data : Nat → α
  left : Nat → Bool

/-- Where `block_save_live` is: before the first stage, between two calls, in the loop of stage 2 or past
it, in the loop of stage 3, and at its end. -/
inductive MigrationPhase
  | before | idle | stage2 | noMoreDirty | stage3 | done
  deriving DecidableEq

/-- The device, the requests in flight and the state of the migration; `f` is the section that is being
put on the stream after `sections`. `written` has the chunks that the guest has written to since they were
last read, which is what the bitmap should tell. -/
structure Migration (α : Type) where
  deviceName : String
  bs : BlockDriverState
  disk : Nat → α
  isAllocated : Nat → Bool
  writes : List (GuestWrite α)
  reads : List (BlkMigRead α)
  sharedBase : Bool
  bmds : Option BlkMigDevState
  blkList : List (BlkMigBlock α)
  submitted : Nat
  totalSectorSum : Nat
  prevProgress : Int
  bulkCompleted : Bool
  totalTime : Int
  f : List (Record α)
  sections : List (List (Record α))
  phase : MigrationPhase
  written : Finset Nat

variable {α : Type}

def blkSend (s : Migration α) (blk : BlkMigBlock α) : Migration α :=
  { s with
    f := s.f ++ [{
      addr := blk.sector <<< BDRV_SECTOR_BITS ||| BLK_MIG_FLAG_DEVICE_BLOCK
      block := some (s.deviceName, blk.buf) }] }

/-- The loop of `mig_save_device_bulk` over what a shared base has: from a sector on that is not allocated
`bdrv_is_allocated` counts `more` others that are not. -/
@[semireducible] def skipUnallocated (isAllocated : Nat → Bool) (more : Nat → Nat) (totalSectors curSector : Nat) : Nat :=
  if curSector < totalSectors ∧ isAllocated curSector = false then
    skipUnallocated isAllocated more totalSectors (curSector + (more curSector + 1))
  else curSector
termination_by totalSectors - curSector

/-- The sector from which the bulk phase goes on. -/
def bulkSector (s : Migration α) (bmds : BlkMigDevState) (more : Nat → Nat) : Nat :=
  if bmds.sharedBase then skipUnallocated s.isAllocated more bmds.totalSectors bmds.curSector
  else bmds.curSector

def blockSectors (totalSectors sector : Nat) : Nat :=
  if totalSectors - sector < BDRV_SECTORS_PER_DIRTY_CHUNK then totalSectors - sector
  else BDRV_SECTORS_PER_DIRTY_CHUNK

/-- `bdrv_reset_dirty` for a block that has been read or is going to be. -/
def resetBlock (s : Migration α) (sector nrSectors : Nat) : Option (Migration α) := do
  let bs ← resetDirty s.bs sector nrSectors
  some { s with bs, written := s.written.erase (sector / BDRV_SECTORS_PER_DIRTY_CHUNK) }

/-- A read into a buffer with `junk` in it. -/
def newRead (sector nrSectors : Nat) (junk : Nat → α) : BlkMigRead α :=
  { sector, buf := junk, nrSectors, left := fun _ => true }

/-- `bdrv_aio_readv` for a block. -/
def aioReadv (s : Migration α) (sector nrSectors : Nat) (junk : Nat → α) : Migration α :=
  { s with
    reads := s.reads ++ [newRead sector nrSectors junk]
    submitted := s.submitted + 1 }

def migSaveDeviceBulk (s : Migration α) (bmds : BlkMigDevState) (more : Nat → Nat) (junk : Nat → α) :
    Option (Migration α × BlkMigDevState × Bool) :=
  let totalSectors := bmds.totalSectors
  let curSector := bulkSector s bmds more
  if totalSectors ≤ curSector then
    some (s, { bmds with curSector := totalSectors, completedSectors := totalSectors }, true)
  else do
    let completedSectors := curSector
    let curSector := curSector - curSector % BDRV_SECTORS_PER_DIRTY_CHUNK
    let nrSectors := blockSectors totalSectors curSector
    let s ← resetBlock (aioReadv s curSector nrSectors junk) curSector nrSectors
    some (s, { bmds with completedSectors, curSector := curSector + nrSectors },
      decide (totalSectors ≤ curSector + nrSectors))

/-- A record of the progress, if it is another than the last one. -/
def putProgress (s : Migration α) (completedSectorSum : Nat) : Option (Migration α) :=
  if s.totalSectorSum = 0 then none
  else
    let progress := completedSectorSum * 100 / s.totalSectorSum
    if (progress : Int) ≠ s.prevProgress then
      some { s with
        prevProgress := progress
        f := s.f ++ [{ addr := progress <<< BDRV_SECTOR_BITS ||| BLK_MIG_FLAG_PROGRESS }] }
    else some s

def blkMigSaveBulkedBlock (s : Migration α) (more : Nat → Nat) (junk : Nat → α) :
    Option (Migration α × Bool) :=
  match s.bmds with
  | none => do
    let s ← putProgress s 0
    some (s, false)
  | some bmds =>
    if bmds.bulkCompleted then do
      let s ← putProgress s bmds.completedSectors
      some (s, false)
    else do
      let (s, bmds, completed) ← migSaveDeviceBulk s bmds more junk
      let s ← putProgress { s with bmds := some { bmds with bulkCompleted := completed } } bmds.completedSectors
      some (s, true)

/-- The loop of `mig_save_device_dirty`, up to the first dirty sector. -/
@[semireducible] def scanDirty (bs : BlockDriverState) (totalSectors sector : Nat) : Option (Nat × Bool) :=
  if sector < totalSectors then
    match getDirty bs sector with
    | none => none
    | some bits =>
      if bits ≠ 0 then some (sector, true)
      else scanDirty bs totalSectors (sector + BDRV_SECTORS_PER_DIRTY_CHUNK)
  else some (sector, false)
termination_by totalSectors - sector
decreasing_by
  simp only [BDRV_SECTORS_PER_DIRTY_CHUNK]
  omega

def migSaveDeviceDirty (s : Migration α) (bmds : BlkMigDevState) (isAsync : Bool) (junk : Nat → α) :
    Option (Migration α × BlkMigDevState × Bool) := do
  let (sector, dirty) ← scanDirty s.bs bmds.totalSectors bmds.curDirty
  let bmds := { bmds with curDirty := sector }
  let nrSectors := blockSectors bmds.totalSectors sector
  let s ←
    if dirty then
      if isAsync then resetBlock (aioReadv s sector nrSectors junk) sector nrSectors
      else
        let buf := fun k => if k < nrSectors then s.disk (sector + k) else junk k
        resetBlock (blkSend s { sector, buf }) sector nrSectors
    else some s
  some (s, bmds, decide (bmds.totalSectors ≤ bmds.curDirty))

def blkMigSaveDirtyBlock (s : Migration α) (isAsync : Bool) (junk : Nat → α) :
    Option (Migration α × Bool) :=
  match s.bmds with
  | none => some (s, false)
  | some bmds => do
    let (s, bmds, completed) ← migSaveDeviceDirty s bmds isAsync junk
    some ({ s with bmds := some bmds }, !completed)

/-- The loop of `flush_blks`, asking the rate limiter for the `n`-th time. -/
def flushFrom (rateLimit : Nat → Bool) (s : Migration α) (n : Nat) : List (BlkMigBlock α) → Migration α
  | [] => { s with blkList := [] }
  | blk :: blkList =>
    if rateLimit n then { s with blkList := blk :: blkList }
    else flushFrom rateLimit (blkSend s blk) (n + 1) blkList

def flushBlks (s : Migration α) (rateLimit : Nat → Bool) : Migration α :=
  flushFrom rateLimit s 0 s.blkList

/-- `is_stage2_completed`, where `fits` tells if what is dirty can be sent in the maximal downtime. A
bandwidth is not known before the first read. -/
def isStage2Completed (s : Migration α) (fits : Bool) : Option Bool :=
  if s.bulkCompleted then
    if getDirtyCount s.bs = 0 then some true
    else if s.totalTime = 0 then none
    else some fits
  else some false

def blkMigCleanup (s : Migration α) : Migration α := { s with bmds := none, blkList := [] }

def resetDirtyCursor (s : Migration α) : Migration α :=
  { s with bmds := s.bmds.map fun bmds => { bmds with curDirty := 0 } }

def putEos (s : Migration α) : Migration α :=
  { s with f := [], sections := s.sections ++ [s.f ++ [{ addr := BLK_MIG_FLAG_EOS }]] }

def initBlkMigration (s : Migration α) : Migration α :=
  let sectors := getlength s.bs >>> BDRV_SECTOR_BITS
  { s with
    submitted := 0
    totalSectorSum := sectors
    prevProgress := -1
    bulkCompleted := false
    totalTime := 0
    bmds :=
      if sectors = 0 then none
      else some {
        bulkCompleted := false
        sharedBase := s.sharedBase
        curSector := 0
        curDirty := 0
        completedSectors := 0
        totalSectors := sectors } }

/-- Stage 1 of `block_save_live`. -/
def saveStage1 (s : Migration α) (rateLimit : Nat → Bool) : Migration α :=
  let s := initBlkMigration s
  let s := if s.bmds.isSome then { s with bs := setDirtyTracking s.bs true } else s
  { putEos (resetDirtyCursor (flushBlks s rateLimit)) with phase := .idle }

/-- Stage 2, up to its loop. -/
def beginStage2 (s : Migration α) (rateLimit : Nat → Bool) : Migration α :=
  { resetDirtyCursor (flushBlks s rateLimit) with phase := .stage2 }

/-- The body of the loop of stage 2. -/
def stage2Round (s : Migration α) (more : Nat → Nat) (junk : Nat → α) : Option (Migration α) :=
  if s.bulkCompleted then do
    let (s, more) ← blkMigSaveDirtyBlock s true junk
    some (if more then s else { s with phase := .noMoreDirty })
  else do
    let (s, more) ← blkMigSaveBulkedBlock s more junk
    some (if more then s else { s with bulkCompleted := true })

/-- Stage 2 after its loop. -/
def endStage2 (s : Migration α) (rateLimit : Nat → Bool) (fits : Bool) : Option (Migration α) := do
  let s := putEos (flushBlks s rateLimit)
  let _ ← isStage2Completed s fits
  some { s with phase := .idle }

/-- Stage 3, up to its loop. -/
def beginStage3 (s : Migration α) (rateLimit : Nat → Bool) : Option (Migration α) :=
  let s := resetDirtyCursor (flushBlks s rateLimit)
  if s.submitted = 0 then some { s with phase := .stage3 } else none

/-- The condition of the loop of stage 3, and what follows the loop once it is false. -/
def stage3Round (s : Migration α) (junk : Nat → α) : Option (Migration α) := do
  let (s, more) ← blkMigSaveDirtyBlock s false junk
  if more then some s
  else
    let s := blkMigCleanup s
    let s := { s with f := s.f ++ [{ addr := 100 <<< BDRV_SECTOR_BITS ||| BLK_MIG_FLAG_PROGRESS }] }
    some { putEos s with phase := .done }

/-- The callback of a read, that took `time`. -/
def blkMigReadCb (s : Migration α) (i : Nat) (time : Int) : Option (Migration α) := do
  let read ← s.reads[i]?
  if s.submitted = 0 then none
  else
    some { s with
      reads := s.reads.eraseIdx i
      totalTime := s.totalTime + time
      blkList := s.blkList ++ [read.toBlkMigBlock]
      submitted := s.submitted - 1 }

/-- A write that the guest submits. -/
def bdrvAioWritev (s : Migration α) (sectorNum nbSectors : Nat) (data : Nat → α) : Option (Migration α) :=
  if getlength s.bs < (sectorNum + nbSectors) * BDRV_SECTOR_SIZE then some s
  else do
    let marked := s.bs.dirtyBitmap.isSome
    let bs ← if marked then setDirtyBitmap s.bs sectorNum nbSectors true else some s.bs
    some { s with
      bs
      written := if marked then s.written ∪ coveredChunks sectorNum nbSectors else s.written
      writes := s.writes ++ [{ sector := sectorNum, nbSectors, data, left := fun _ => true }] }

structure Device (α : Type) where
  deviceName : String
  totalSectors : Nat
  contents : Nat → α

inductive LoadError
  | eio | einval

def bdrvWrite (dev : Device α) (sectorNum : Nat) (buf : Nat → α) (nbSectors : Nat) :
    Except LoadError (Device α) :=
  if dev.totalSectors * BDRV_SECTOR_SIZE < (sectorNum + nbSectors) * BDRV_SECTOR_SIZE then .error .eio
  else
    .ok { dev with
      contents := fun x =>
        if sectorNum ≤ x ∧ x < sectorNum + nbSectors then buf (x - sectorNum) else dev.contents x }

def recordFlags (record : Record α) : Nat := record.addr % 2 ^ BDRV_SECTOR_BITS

def loadRecord (dev : Device α) (record : Record α) : Except LoadError (Device α) :=
  let flags := recordFlags record
  let addr := record.addr >>> BDRV_SECTOR_BITS
  if flags &&& BLK_MIG_FLAG_DEVICE_BLOCK ≠ 0 then
    match record.block with
    | none => .error .eio
    | some (deviceName, buf) =>
      if deviceName ≠ dev.deviceName then .error .einval
      else bdrvWrite dev addr buf BDRV_SECTORS_PER_DIRTY_CHUNK
  else if flags &&& BLK_MIG_FLAG_PROGRESS ≠ 0 then .ok dev
  else if flags &&& BLK_MIG_FLAG_EOS = 0 then .error .einval
  else .ok dev

/-- One section of the stream. -/
def blockLoad (dev : Device α) : List (Record α) → Except LoadError (Device α)
  | [] => .error .eio
  | record :: records => do
    let dev ← loadRecord dev record
    if recordFlags record &&& BLK_MIG_FLAG_EOS ≠ 0 then .ok dev else blockLoad dev records

end Colama.Qemu.Block

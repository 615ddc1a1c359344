import Colama.Qemu.Block.Migration
import Colama.Lib.Histories

namespace Colama.Qemu.Block

open Lib

variable {α : Type}

def chunkOf (sector : Nat) : Nat := sector / BDRV_SECTORS_PER_DIRTY_CHUNK

def totalSectors (s : Migration α) : Nat := getlength s.bs >>> BDRV_SECTOR_BITS

/-- Some sectors of a write in flight land on the disk. -/
def landWrite (s : Migration α) (i : Nat) (part : Nat → Bool) : Option (Migration α) := do
  let write ← s.writes[i]?
  let lands := fun x => decide (write.sector ≤ x ∧ x < write.sector + write.nbSectors) &&
    (write.left (x - write.sector) && part (x - write.sector))
  some { s with
    disk := fun x => if lands x then write.data (x - write.sector) else s.disk x
    isAllocated := fun x => lands x || s.isAllocated x
    writes := s.writes.set i { write with left := fun k => write.left k && !part k } }

/-- Some sectors of a read in flight are read from the disk. -/
def BlkMigRead.fetch (disk : Nat → α) (read : BlkMigRead α) (part : Nat → Bool) : BlkMigRead α :=
  { read with
    buf := fun k =>
      if decide (k < read.nrSectors) && (read.left k && part k) then disk (read.sector + k) else read.buf k
    left := fun k => read.left k && !part k }

def fetchRead (s : Migration α) (i : Nat) (part : Nat → Bool) : Option (Migration α) := do
  let read ← s.reads[i]?
  some { s with reads := s.reads.set i (read.fetch s.disk part) }

inductive MigrationEvent (α : Type)
  | write (sectorNum nbSectors : Nat) (data : Nat → α)
  | land (i : Nat) (part : Nat → Bool)
  | fetch (i : Nat) (part : Nat → Bool)
  | complete (i : Nat) (time : Int)
  | stage1 (rateLimit : Nat → Bool)
  | beginStage2 (rateLimit : Nat → Bool)
  /-- One more round of the loop of stage 2 or 3. -/
  | round (more : Nat → Nat) (junk : Nat → α)
  /-- The rate limiter or the lack of dirty blocks ends the loop of stage 2. -/
  | endStage2 (rateLimit : Nat → Bool) (fits : Bool)
  | beginStage3 (rateLimit : Nat → Bool)

/-- A step of the run, or none where it stops with an access outside the bitmap, a failed assertion or a
division by zero. -/
def MigrationEvent.run (s : Migration α) : MigrationEvent α → Option (Migration α)
  | .write sectorNum nbSectors data => bdrvAioWritev s sectorNum nbSectors data
  | .land i part => landWrite s i part
  | .fetch i part => fetchRead s i part
  | .complete i time => blkMigReadCb s i time
  | .stage1 rateLimit => some (saveStage1 s rateLimit)
  | .beginStage2 rateLimit => some (Block.beginStage2 s rateLimit)
  | .round more junk => if s.phase = .stage3 then stage3Round s junk else stage2Round s more junk
  | .endStage2 rateLimit fits => Block.endStage2 s rateLimit fits
  | .beginStage3 rateLimit => Block.beginStage3 s rateLimit

/-- Every write of the guest is on the disk. -/
def Landed (s : Migration α) : Prop :=
  ∀ write ∈ s.writes, ∀ k < write.nbSectors, write.left k = false

/-- The events in their order: a read is completed once it has been read as a whole, the stages come one
after the other, and the guest has stopped and its writes have landed before stage 3. -/
def MigrationEvent.Valid (s : Migration α) : MigrationEvent α → Prop
  | .write .. => s.phase ≠ .stage3 ∧ s.phase ≠ .done
  | .land i _ => i < s.writes.length
  | .fetch i _ => i < s.reads.length
  | .complete i _ => ∃ read, s.reads[i]? = some read ∧ ∀ k < read.nrSectors, read.left k = false
  | .stage1 _ => s.phase = .before
  | .beginStage2 _ => s.phase = .idle
  | .round more _ => (s.phase = .stage2 ∨ s.phase = .stage3) ∧
      ∀ x, s.isAllocated x = false → ∀ k ≤ more x, x + k < totalSectors s → s.isAllocated (x + k) = false
  | .endStage2 .. => s.phase = .stage2 ∨ s.phase = .noMoreDirty
  | .beginStage3 _ => s.phase = .idle ∧ s.submitted = 0 ∧ Landed s

/-- The chunks have the same bit of the bitmap. -/
def SameBit (c c' : Nat) : Prop := c / 64 = c' / 64 ∧ c % 32 = c' % 32

def readOf (x : Nat) (read : BlkMigRead α) : Bool := chunkOf read.sector == chunkOf x

/-- What lands on the sector now will still be read: its chunk is marked as written to, the bulk phase
has not come to it, or the last read of the chunk has still to read it. -/
def Noticed (s : Migration α) (x : Nat) : Prop :=
  chunkOf x ∈ s.written ∨ (∀ bmds ∈ s.bmds, bmds.curSector ≤ x) ∨
    ∃ read, newest (readOf x) s.reads = some read ∧ read.left (x % BDRV_SECTORS_PER_DIRTY_CHUNK) = true

/-- The sector from which the next round reads, if it reads. -/
def nextSector (s : Migration α) (more : Nat → Nat) : Option Nat := do
  let bmds ← s.bmds
  if s.phase = .stage2 ∧ s.bulkCompleted = false then
    let curSector := bulkSector s bmds more
    if bmds.bulkCompleted ∨ bmds.totalSectors ≤ curSector then none
    else some (curSector - curSector % BDRV_SECTORS_PER_DIRTY_CHUNK)
  else
    let (sector, dirty) ← scanDirty s.bs bmds.totalSectors bmds.curDirty
    if dirty then some sector else none

/-- The step does not meet one of the defects: data that lands unnoticed, a read that is completed after a
later one of its chunk, a bitmap without a bit for every chunk, no device in the bulk phase, a block that
goes past the end of the device, a bit that is cleared for another chunk too, a bandwidth that is asked for
before the first read, blocks that are left in the queue or a bulk phase that is not over in stage 3. -/
def MigrationEvent.Keeps (s : Migration α) : MigrationEvent α → Prop
  | .write .. | .fetch .. | .beginStage2 _ => True
  | .land i part => ∀ write ∈ s.writes[i]?, ∀ k < write.nbSectors, write.left k = true → part k = true →
      Noticed s (write.sector + k)
  | .complete i _ => ∀ read ∈ s.reads[i]?, ∀ earlier ∈ s.reads.take i, earlier.sector ≠ read.sector
  | .stage1 _ => numChunks s.bs.length ≤ 64 * (bitmapSize s.bs.length / 8)
  | .round more _ => (s.phase = .stage2 → s.bulkCompleted = false → s.bmds ≠ none) ∧
      ∀ sector, nextSector s more = some sector →
        sector + BDRV_SECTORS_PER_DIRTY_CHUNK ≤ totalSectors s ∧
          ∀ c ∈ s.written, c ≠ chunkOf sector → ¬ SameBit c (chunkOf sector)
  | .endStage2 .. => s.bulkCompleted = true → getDirtyCount s.bs = 0 ∨ s.totalTime ≠ 0
  | .beginStage3 rateLimit => (∀ bmds ∈ s.bmds, bmds.curSector = bmds.totalSectors) ∧
      ∀ n < s.blkList.length, rateLimit n = false

/-- Nothing has been migrated, and the target has the same name and length. With a shared base it has what
is not allocated. -/
structure Start (target : Device α) (s : Migration α) : Prop where
  deviceName : target.deviceName = s.deviceName
  totalSectors : target.totalSectors = totalSectors s
  base : s.sharedBase = true → ∀ x, s.isAllocated x = false → target.contents x = s.disk x
  phase : s.phase = .before
  dirtyBitmap : s.bs.dirtyBitmap = none
  writes : s.writes = []
  reads : s.reads = []
  bmds : s.bmds = none
  blkList : s.blkList = []
  submitted : s.submitted = 0
  f : s.f = []
  sections : s.sections = []
  written : s.written = ∅

/-- Once stage 3 is over the stream can be loaded, and the target has then the data of the source. -/
def Loads (target : Device α) (s : Migration α) : Prop :=
  s.phase = .done → ∃ dev, s.sections.foldlM blockLoad target = .ok dev ∧
    dev.totalSectors = target.totalSectors ∧ ∀ x < target.totalSectors, dev.contents x = s.disk x

/-- What a record adds to the blocks of the stream. -/
def Record.blk (record : Record α) : Option (BlkMigBlock α) :=
  record.block.map fun block => { sector := record.addr >>> BDRV_SECTOR_BITS, buf := block.2 }

def sentBlocks (s : Migration α) : List (BlkMigBlock α) :=
  (s.sections.flatten ++ s.f).filterMap Record.blk

/-- The blocks that were sent or wait to be, in the order of the stream. -/
def blocks (s : Migration α) : List (BlkMigBlock α) := sentBlocks s ++ s.blkList

def blockOf (x : Nat) (blk : BlkMigBlock α) : Bool := chunkOf blk.sector == chunkOf x

/-- What the target has for a sector once it has loaded `blks`. -/
def shown (target : Device α) (blks : List (BlkMigBlock α)) (x : Nat) : α :=
  match newest (blockOf x) blks with
  | some blk => blk.buf (x % BDRV_SECTORS_PER_DIRTY_CHUNK)
  | none => target.contents x

def blockRecord (deviceName : String) (blk : BlkMigBlock α) : Record α :=
  { addr := blk.sector <<< BDRV_SECTOR_BITS ||| BLK_MIG_FLAG_DEVICE_BLOCK, block := some (deviceName, blk.buf) }

def progressRecord (progress : Nat) : Record α :=
  { addr := progress <<< BDRV_SECTOR_BITS ||| BLK_MIG_FLAG_PROGRESS }

/-- A block that is whole. -/
def WholeBlock (totalSectors : Nat) (blk : BlkMigBlock α) : Prop :=
  blk.sector % BDRV_SECTORS_PER_DIRTY_CHUNK = 0 ∧
    blk.sector + BDRV_SECTORS_PER_DIRTY_CHUNK ≤ totalSectors

/-- A record before the end of a section, with a block that fits the device if it has one. -/
def PlainRecord (deviceName : String) (totalSectors : Nat) (record : Record α) : Prop :=
  (∃ blk, WholeBlock totalSectors blk ∧ record = blockRecord deviceName blk) ∨
    ∃ progress, record = progressRecord progress

theorem addr_flags (n flags : Nat) (h : flags < 2 ^ BDRV_SECTOR_BITS) :
    (n <<< BDRV_SECTOR_BITS ||| flags) % 2 ^ BDRV_SECTOR_BITS = flags ∧
      (n <<< BDRV_SECTOR_BITS ||| flags) >>> BDRV_SECTOR_BITS = n := by
  rw [← Nat.shiftLeft_add_eq_or_of_lt h, Nat.shiftLeft_eq, Nat.shiftRight_eq_div_pow]
  constructor
  · rw [Nat.mul_comm, Nat.mul_add_mod, Nat.mod_eq_of_lt h]
  · rw [Nat.mul_comm, Nat.mul_add_div (by decide), Nat.div_eq_of_lt h, Nat.add_zero]

theorem blockRecord_blk (deviceName : String) (blk : BlkMigBlock α) :
    (blockRecord deviceName blk).blk = some blk := by
  simp only [blockRecord, Record.blk, Option.map_some]
  rw [(addr_flags blk.sector BLK_MIG_FLAG_DEVICE_BLOCK (by decide)).2]

theorem shown_nil (target : Device α) : shown target [] = target.contents := rfl

theorem shown_append (target : Device α) (blks blks' : List (BlkMigBlock α)) (x : Nat) :
    shown target (blks ++ blks') x = shown { target with contents := shown target blks } blks' x := by
  simp only [shown, newest_append]
  cases newest (blockOf x) blks' <;> rfl

theorem shown_concat (target : Device α) (blks : List (BlkMigBlock α)) (blk : BlkMigBlock α) (x : Nat) :
    shown target (blks ++ [blk]) x =
      if blockOf x blk = true then blk.buf (x % BDRV_SECTORS_PER_DIRTY_CHUNK) else shown target blks x := by
  simp only [shown, newest_concat]
  cases blockOf x blk <;> rfl

theorem WholeBlock.sector_add {totalSectors : Nat} {blk : BlkMigBlock α} (h : WholeBlock totalSectors blk) {x : Nat}
    (hx : blockOf x blk = true) : blk.sector + x % BDRV_SECTORS_PER_DIRTY_CHUNK = x := by
  have haligned := h.1
  simp only [blockOf, chunkOf, BDRV_SECTORS_PER_DIRTY_CHUNK, beq_iff_eq] at *
  omega

theorem WholeBlock.blockOf_iff {totalSectors : Nat} {blk : BlkMigBlock α} (h : WholeBlock totalSectors blk) {x : Nat} :
    blockOf x blk = true ↔ blk.sector ≤ x ∧ x < blk.sector + BDRV_SECTORS_PER_DIRTY_CHUNK := by
  have haligned := h.1
  simp only [blockOf, chunkOf, BDRV_SECTORS_PER_DIRTY_CHUNK, beq_iff_eq] at *
  omega

theorem bdrvWrite_whole {dev : Device α} {blk : BlkMigBlock α} (h : WholeBlock dev.totalSectors blk) :
    bdrvWrite dev blk.sector blk.buf BDRV_SECTORS_PER_DIRTY_CHUNK =
      .ok { dev with contents := shown dev [blk] } := by
  have hfits : ¬ dev.totalSectors * BDRV_SECTOR_SIZE <
      (blk.sector + BDRV_SECTORS_PER_DIRTY_CHUNK) * BDRV_SECTOR_SIZE :=
    Nat.not_lt.mpr (Nat.mul_le_mul_right _ h.2)
  rw [bdrvWrite, if_neg hfits]
  congr 2
  funext x
  rw [← List.nil_append [blk], shown_concat, shown_nil]
  by_cases hx : blockOf x blk = true
  · have hadd := h.sector_add hx
    rw [if_pos hx, if_pos (h.blockOf_iff.mp hx)]
    congr 1
    omega
  · rw [if_neg hx, if_neg (mt h.blockOf_iff.mpr hx)]

theorem loadRecord_block {dev : Device α} {blk : BlkMigBlock α} (h : WholeBlock dev.totalSectors blk) :
    loadRecord dev (blockRecord dev.deviceName blk) = .ok { dev with contents := shown dev [blk] } := by
  have hflags := addr_flags blk.sector BLK_MIG_FLAG_DEVICE_BLOCK (by decide)
  simp only [loadRecord, recordFlags, blockRecord, hflags.1, hflags.2]
  rw [if_pos (by decide), if_neg (not_not.mpr rfl)]
  exact bdrvWrite_whole h

theorem loadRecord_progress (dev : Device α) (progress : Nat) :
    loadRecord dev (progressRecord progress) = .ok dev := by
  have hflags := addr_flags progress BLK_MIG_FLAG_PROGRESS (by decide)
  simp only [loadRecord, recordFlags, progressRecord, hflags.1]
  rw [if_neg (by decide), if_pos (by decide)]

theorem PlainRecord.load {dev : Device α} {record : Record α}
    (h : PlainRecord dev.deviceName dev.totalSectors record) :
    recordFlags record &&& BLK_MIG_FLAG_EOS = 0 ∧
      loadRecord dev record = .ok { dev with contents := shown dev record.blk.toList } := by
  rcases h with ⟨blk, hblk, rfl⟩ | ⟨progress, rfl⟩
  · constructor
    · rw [recordFlags, blockRecord, (addr_flags blk.sector BLK_MIG_FLAG_DEVICE_BLOCK (by decide)).1]
      rfl
    · rw [loadRecord_block hblk, blockRecord_blk, Option.toList_some]
  · constructor
    · rw [recordFlags, progressRecord, (addr_flags progress BLK_MIG_FLAG_PROGRESS (by decide)).1]
      rfl
    · exact loadRecord_progress dev progress

def eosRecord : Record α := { addr := BLK_MIG_FLAG_EOS }

theorem eosRecord_flags : recordFlags (eosRecord : Record α) = BLK_MIG_FLAG_EOS := rfl

theorem loadRecord_eos (dev : Device α) : loadRecord dev eosRecord = .ok dev := by
  simp [loadRecord, recordFlags, eosRecord, BLK_MIG_FLAG_EOS, BLK_MIG_FLAG_DEVICE_BLOCK, BLK_MIG_FLAG_PROGRESS,
    BDRV_SECTOR_BITS]

theorem blockLoad_section {dev : Device α} {records : List (Record α)}
    (h : ∀ record ∈ records, PlainRecord dev.deviceName dev.totalSectors record) :
    blockLoad dev (records ++ [eosRecord]) =
      .ok { dev with contents := shown dev (records.filterMap Record.blk) } := by
  induction records generalizing dev with
  | nil =>
    have heos : recordFlags (eosRecord : Record α) &&& BLK_MIG_FLAG_EOS ≠ 0 := by simp [eosRecord_flags, BLK_MIG_FLAG_EOS]
    rw [List.nil_append, blockLoad, loadRecord_eos]
    simp only [bind, Except.bind]
    rw [if_pos heos, List.filterMap_nil, shown_nil]
  | cons record records ih =>
    have hload := (h record List.mem_cons_self).load
    have hrest := @ih { dev with contents := shown dev record.blk.toList }
      fun record hmem => h record (List.mem_cons_of_mem _ hmem)
    rw [List.cons_append, blockLoad, hload.2]
    simp only [bind, Except.bind, hload.1, ne_eq, not_true, if_false, hrest]
    congr 2
    funext x
    rw [List.filterMap_cons]
    cases hblk : record.blk with
    | none => rfl
    | some blk => exact (shown_append dev [blk] _ x).symm

/-- Every section is well formed and ends. -/
def WellFormed (deviceName : String) (totalSectors : Nat) (sections : List (List (Record α))) : Prop :=
  ∀ sec ∈ sections, ∃ records, sec = records ++ [eosRecord] ∧
    ∀ record ∈ records, PlainRecord deviceName totalSectors record

theorem load_sections {dev : Device α} {sections : List (List (Record α))}
    (h : WellFormed dev.deviceName dev.totalSectors sections) :
    sections.foldlM blockLoad dev =
      .ok { dev with contents := shown dev (sections.flatten.filterMap Record.blk) } := by
  induction sections generalizing dev with
  | nil => rfl
  | cons sec sections ih =>
    obtain ⟨records, rfl, hrecords⟩ := h sec List.mem_cons_self
    have hrest := @ih { dev with contents := shown dev (records.filterMap Record.blk) }
      fun sec hmem => h sec (List.mem_cons_of_mem _ hmem)
    rw [List.foldlM_cons, blockLoad_section hrecords]
    refine hrest.trans ?_
    congr 2
    funext x
    have heos : [eosRecord].filterMap Record.blk = ([] : List (BlkMigBlock α)) := rfl
    rw [List.flatten_cons, List.filterMap_append, List.filterMap_append, heos, List.append_nil, shown_append]

end Colama.Qemu.Block

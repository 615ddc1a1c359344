import Colama.Qemu.Block.MigrationDirty
import Colama.Lib.Runs

namespace Colama.Qemu.Block

open Lib

variable {α : Type} {target : Device α} {length : Nat} {s : Migration α}

/-- The target will have what the disk has now for the sector, once the reads in flight are done. -/
def UpToDate (target : Device α) (s : Migration α) (x : Nat) : Prop :=
  (∃ read, newest (readOf x) s.reads = some read ∧
    (read.left (x % BDRV_SECTORS_PER_DIRTY_CHUNK) = true ∨ read.buf (x % BDRV_SECTORS_PER_DIRTY_CHUNK) = s.disk x)) ∨
  newest (readOf x) s.reads = none ∧ shown target (blocks s) x = s.disk x

/-- The sector is up to date or will be read again. -/
def Good (target : Device α) (s : Migration α) (x : Nat) : Prop :=
  chunkOf x ∈ s.written ∨ (∀ bmds ∈ s.bmds, bmds.curSector ≤ x) ∨ UpToDate target s x

/-- The bitmap has a bit for each chunk that was written to, and in stage 3 none before the cursor. -/
structure Flagged (length : Nat) (s : Migration α) (curDirty : Nat) (set : Finset Nat) : Prop where
  holds : Holds length (bitmapSize length / 8) set s.bs
  written : ∀ c ∈ s.written, c * BDRV_SECTORS_PER_DIRTY_CHUNK < length >>> BDRV_SECTOR_BITS ∧ cell c ∈ set
  scanned : s.phase = .stage3 → ∀ c, c * BDRV_SECTORS_PER_DIRTY_CHUNK < curDirty → cell c ∉ set

structure DeviceInv (length : Nat) (s : Migration α) (bmds : BlkMigDevState) : Prop where
  totalSectors : bmds.totalSectors = length >>> BDRV_SECTOR_BITS
  pos : 0 < bmds.totalSectors
  sharedBase : bmds.sharedBase = s.sharedBase
  sum : s.totalSectorSum ≠ 0
  words : numChunks length ≤ 64 * (bitmapSize length / 8)
  aligned : bmds.curSector % BDRV_SECTORS_PER_DIRTY_CHUNK = 0 ∨ bmds.curSector = bmds.totalSectors
  le : bmds.curSector ≤ bmds.totalSectors
  bulk : (bmds.bulkCompleted = true ∨ s.bulkCompleted = true ∨ s.phase = .stage3) →
    bmds.curSector = bmds.totalSectors
  curDirty : bmds.curDirty % BDRV_SECTORS_PER_DIRTY_CHUNK = 0
  flagged : ∃ set, Flagged length s bmds.curDirty set
  sent : ∀ blk ∈ blocks s, blk.sector < bmds.curSector
  read : ∀ read ∈ s.reads, read.sector < bmds.curSector

structure Inv (target : Device α) (length : Nat) (s : Migration α) : Prop where
  deviceName : target.deviceName = s.deviceName
  totalSectors : target.totalSectors = length >>> BDRV_SECTOR_BITS
  bsLength : s.bs.length = length
  base : s.sharedBase = true → ∀ x, s.isAllocated x = false → target.contents x = s.disk x
  submitted : s.submitted = s.reads.length
  sections : WellFormed s.deviceName target.totalSectors s.sections
  f : ∀ record ∈ s.f, PlainRecord s.deviceName target.totalSectors record
  blkList : ∀ blk ∈ s.blkList, WholeBlock target.totalSectors blk
  reads : ∀ read ∈ s.reads, WholeBlock target.totalSectors read.toBlkMigBlock ∧
    read.nrSectors = BDRV_SECTORS_PER_DIRTY_CHUNK
  device : ∀ bmds ∈ s.bmds, DeviceInv length s bmds
  noDevice : s.bmds = none → s.phase ≠ .done → s.bs.dirtyBitmap = none
  before : s.phase = .before → s.bmds = none ∧ s.reads = [] ∧ blocks s = [] ∧ s.written = ∅
  stopped : s.phase = .stage3 ∨ s.phase = .done → Landed s ∧ s.reads = [] ∧ s.blkList = []
  good : ∀ x < target.totalSectors, Good target s x
  final : s.phase = .done → s.f = [] ∧ ∀ x < target.totalSectors, shown target (blocks s) x = s.disk x
  empty : s.bmds = none → s.phase = .before ∨ s.phase = .done ∨ target.totalSectors = 0

theorem Start.inv (h : Start target s) : Inv target s.bs.length s where
  deviceName := h.deviceName
  totalSectors := h.totalSectors
  bsLength := rfl
  base := h.base
  submitted := by rw [h.submitted, h.reads, List.length_nil]
  sections := by simp [WellFormed, h.sections]
  f := by simp [h.f]
  blkList := by simp [h.blkList]
  reads := by simp [h.reads]
  device := by simp [h.bmds]
  noDevice := fun _ _ => h.dirtyBitmap
  before := fun _ => ⟨h.bmds, h.reads, by simp [blocks, sentBlocks, h.sections, h.f, h.blkList], h.written⟩
  stopped := by
    rw [h.phase]
    nofun
  good := fun x _ => .inr (.inl (by simp [h.bmds]))
  final := by
    rw [h.phase]
    nofun
  empty := fun _ => .inl h.phase

/-- Once all is done the stream can be loaded. -/
theorem Inv.loads (h : Inv target length s) : Loads target s := by
  intro hdone
  obtain ⟨hf, hshown⟩ := h.final hdone
  obtain ⟨-, -, hqueue⟩ := h.stopped (.inr hdone)
  have hblocks : blocks s = s.sections.flatten.filterMap Record.blk := by
    rw [blocks, sentBlocks, hf, hqueue, List.append_nil, List.append_nil]
  refine ⟨_, load_sections (h.deviceName ▸ h.sections), rfl, ?_⟩
  rw [← hblocks]
  exact hshown

/-- Records are put on the stream, among them blocks from the queue. -/
theorem Inv.send (h : Inv target length s) {records : List (Record α)} {blkList : List (BlkMigBlock α)}
    {progress : Int} (hphase : s.phase ≠ .done)
    (hrecords : ∀ record ∈ records, PlainRecord s.deviceName target.totalSectors record)
    (hblocks : s.blkList = records.filterMap Record.blk ++ blkList) :
    Inv target length { s with f := s.f ++ records, blkList, prevProgress := progress } := by
  have hsame : blocks { s with f := s.f ++ records, blkList, prevProgress := progress } = blocks s := by
    simp only [blocks, sentBlocks, hblocks, List.filterMap_append, List.append_assoc]
  refine ⟨h.deviceName, h.totalSectors, h.bsLength, h.base, h.submitted, h.sections, ?_, ?_, h.reads, ?_, h.noDevice,
    ?_, ?_, ?_, fun hdone => absurd hdone hphase, h.empty⟩
  · intro record hmem
    exact (List.mem_append.mp hmem).elim (h.f record) (hrecords record)
  · intro blk hmem
    exact h.blkList blk (hblocks ▸ List.mem_append_right _ hmem)
  · intro bmds hbmds
    have hd := h.device bmds hbmds
    exact { hd with
      flagged := hd.flagged.imp fun set hset => ⟨hset.holds, hset.written, hset.scanned⟩
      sent := hsame ▸ hd.sent }
  · intro hbefore
    obtain ⟨hnone, hreads, hempty, hwritten⟩ := h.before hbefore
    exact ⟨hnone, hreads, hsame.trans hempty, hwritten⟩
  · intro hstop
    obtain ⟨hlanded, hreads, hqueue⟩ := h.stopped hstop
    refine ⟨hlanded, hreads, ?_⟩
    rw [hblocks, List.append_eq_nil_iff] at hqueue
    exact hqueue.2
  · intro x hx
    have hgood := h.good x hx
    unfold Good UpToDate at hgood ⊢
    rw [hsame]
    exact hgood

theorem flushFrom_eq (rateLimit : Nat → Bool) (s : Migration α) (n : Nat) (blkList : List (BlkMigBlock α)) :
    ∃ sent rest, blkList = sent ++ rest ∧
      flushFrom rateLimit s n blkList =
        { s with f := s.f ++ sent.map (blockRecord s.deviceName), blkList := rest } ∧
      ((∀ k < blkList.length, rateLimit (n + k) = false) → rest = []) := by
  induction blkList generalizing s n with
  | nil => exact ⟨[], [], rfl, by simp [flushFrom], fun _ => rfl⟩
  | cons blk blkList ih =>
    by_cases hlimit : rateLimit n = true
    · refine ⟨[], blk :: blkList, rfl, by simp [flushFrom, hlimit], fun hall => ?_⟩
      have hfirst := hall 0 (Nat.succ_pos _)
      rw [Nat.add_zero, hlimit] at hfirst
      cases hfirst
    · obtain ⟨sent, rest, rfl, hflush, hall⟩ := ih (blkSend s blk) (n + 1)
      refine ⟨blk :: sent, rest, rfl, ?_, fun hlimits => hall fun k hk => ?_⟩
      · rw [flushFrom, if_neg hlimit, hflush, List.map_cons, List.append_cons]
        rfl
      · rw [Nat.add_right_comm, Nat.add_assoc]
        exact hlimits (k + 1) (Nat.succ_lt_succ hk)

theorem filterMap_blockRecord (deviceName : String) (blks : List (BlkMigBlock α)) :
    (blks.map (blockRecord deviceName)).filterMap Record.blk = blks := by
  induction blks with
  | nil => rfl
  | cons blk blks ih => rw [List.map_cons, List.filterMap_cons, blockRecord_blk, ih]

theorem Inv.flush (h : Inv target length s) (hphase : s.phase ≠ .done) (rateLimit : Nat → Bool) :
    Inv target length (flushBlks s rateLimit) := by
  obtain ⟨sent, rest, hqueue, hflush, -⟩ := flushFrom_eq rateLimit s 0 s.blkList
  rw [flushBlks, hflush]
  apply h.send hphase
  · intro record hrecord
    obtain ⟨blk, hblk, rfl⟩ := List.mem_map.mp hrecord
    exact .inl ⟨blk, h.blkList blk (hqueue ▸ List.mem_append_left _ hblk), rfl⟩
  · rw [filterMap_blockRecord]
    exact hqueue

theorem flushBlks_same (s : Migration α) (rateLimit : Nat → Bool) :
    ∃ f blkList, flushBlks s rateLimit = { s with f, blkList } ∧
      ((∀ k < s.blkList.length, rateLimit k = false) → blkList = []) := by
  obtain ⟨sent, rest, -, hflush, hall⟩ := flushFrom_eq rateLimit s 0 s.blkList
  refine ⟨_, rest, hflush, fun hlimits => hall fun k hk => ?_⟩
  rw [Nat.zero_add]
  exact hlimits k hk

theorem Inv.putProgress (h : Inv target length s) (hphase : s.phase ≠ .done) (hsum : s.totalSectorSum ≠ 0) (n : Nat) :
    ∃ f prevProgress, Block.putProgress s n = some { s with f, prevProgress } ∧
      Inv target length { s with f, prevProgress } := by
  unfold Block.putProgress
  rw [if_neg hsum]
  dsimp only
  split
  · refine ⟨_, _, rfl, h.send hphase ?_ rfl⟩
    intro record hrecord
    exact .inr ⟨_, List.mem_singleton.mp hrecord⟩
  · exact ⟨s.f, s.prevProgress, rfl, h⟩

theorem sentBlocks_putEos (s : Migration α) : sentBlocks (putEos s) = sentBlocks s := by
  simp [sentBlocks, putEos, Record.blk]

theorem blocks_putEos (s : Migration α) : blocks (putEos s) = blocks s := by
  rw [blocks, sentBlocks_putEos]
  rfl

theorem Inv.putEos (h : Inv target length s) (hphase : s.phase ≠ .done) : Inv target length (Block.putEos s) := by
  refine ⟨h.deviceName, h.totalSectors, h.bsLength, h.base, h.submitted, ?_, nofun, h.blkList, h.reads, ?_,
    h.noDevice, ?_, h.stopped, ?_, fun hdone => absurd hdone hphase, h.empty⟩
  · intro sec hsec
    rcases List.mem_append.mp hsec with hsec | hsec
    · exact h.sections sec hsec
    · exact ⟨s.f, List.mem_singleton.mp hsec, h.f⟩
  · intro bmds hbmds
    have hd := h.device bmds hbmds
    exact { hd with
      flagged := hd.flagged.imp fun set hset => ⟨hset.holds, hset.written, hset.scanned⟩
      sent := blocks_putEos s ▸ hd.sent }
  · intro hbefore
    obtain ⟨hnone, hreads, hempty, hwritten⟩ := h.before hbefore
    exact ⟨hnone, hreads, (blocks_putEos s).trans hempty, hwritten⟩
  · intro x hx
    have hgood := h.good x hx
    unfold Good UpToDate at hgood ⊢
    rw [blocks_putEos]
    exact hgood

theorem Inv.resetDirtyCursor (h : Inv target length s) (hphase : s.phase ≠ .done) :
    Inv target length (Block.resetDirtyCursor s) := by
  have hmem : ∀ bmds' ∈ (Block.resetDirtyCursor s).bmds, ∃ bmds ∈ s.bmds, bmds' = { bmds with curDirty := 0 } := by
    intro bmds' hbmds'
    obtain ⟨bmds, hbmds, heq⟩ := Option.map_eq_some_iff.mp hbmds'
    exact ⟨bmds, hbmds, heq.symm⟩
  refine ⟨h.deviceName, h.totalSectors, h.bsLength, h.base, h.submitted, h.sections, h.f, h.blkList, h.reads, ?_, ?_, ?_,
    h.stopped, ?_, fun hdone => absurd hdone hphase, fun hnone => h.empty (Option.map_eq_none_iff.mp hnone)⟩
  · intro bmds' hbmds'
    obtain ⟨bmds, hbmds, rfl⟩ := hmem bmds' hbmds'
    have hd := h.device bmds hbmds
    obtain ⟨set, hset⟩ := hd.flagged
    exact { hd with
      curDirty := rfl
      flagged := ⟨set, hset.holds, hset.written, fun _ c hc => absurd hc (Nat.not_lt_zero _)⟩ }
  · intro hnone
    exact h.noDevice (Option.map_eq_none_iff.mp hnone)
  · intro hbefore
    obtain ⟨hnone, hreads, hempty, hwritten⟩ := h.before hbefore
    exact ⟨Option.map_eq_none_iff.mpr hnone, hreads, hempty, hwritten⟩
  · intro x hx
    apply (h.good x hx).imp_right
    apply Or.imp_left
    intro hunreached bmds' hbmds'
    obtain ⟨bmds, hbmds, rfl⟩ := hmem bmds' hbmds'
    exact hunreached bmds hbmds

/-- The phases in which nothing special holds. -/
theorem Inv.toPhase (h : Inv target length s) (hphase : s.phase ≠ .done)
    (hempty : s.bmds = none → target.totalSectors = 0) {phase : MigrationPhase} (hbefore : phase ≠ .before)
    (hstage3 : phase ≠ .stage3) (hdone : phase ≠ .done) : Inv target length { s with phase } := by
  refine ⟨h.deviceName, h.totalSectors, h.bsLength, h.base, h.submitted, h.sections, h.f, h.blkList, h.reads, ?_,
    fun hnone _ => h.noDevice hnone hphase, fun h' => absurd h' hbefore, ?_, h.good, fun h' => absurd h' hdone,
    fun hnone => .inr (.inr (hempty hnone))⟩
  · intro bmds hbmds
    have hd := h.device bmds hbmds
    obtain ⟨set, hset⟩ := hd.flagged
    exact { hd with
      bulk := fun hover => hd.bulk (hover.imp_right fun h' => h'.imp_right fun h'' => absurd h'' hstage3)
      flagged := ⟨set, hset.holds, hset.written, fun h' => absurd h' hstage3⟩ }
  · rintro (h' | h')
    · exact absurd h' hstage3
    · exact absurd h' hdone

theorem Flagged.write {curDirty sector nb : Nat} {set : Finset Nat} (h : Flagged length s curDirty set)
    (hwords : numChunks length ≤ 64 * (bitmapSize length / 8)) (hphase : s.phase ≠ .stage3)
    (hpos : 0 < length >>> BDRV_SECTOR_BITS) (hinside : (sector + nb) * BDRV_SECTOR_SIZE ≤ length) :
    ∃ bs', setDirtyBitmap s.bs sector nb true = some bs' ∧
      ∀ writes, ∃ set', Flagged length
        { s with bs := bs', written := s.written ∪ coveredChunks sector nb, writes } curDirty set' := by
  have htouched : ∀ c ∈ touchedChunks sector nb, c / 64 < bitmapSize length / 8 := by
    rcases touchedChunks_inside hinside with hlt | ⟨rfl, -⟩
    · intro c hc
      have hchunk := hlt c hc
      omega
    · exact absurd hpos (by decide)
  obtain ⟨bs', hs, hholds⟩ := h.holds.foldlM_true _ htouched
  refine ⟨bs', hs, fun writes => ⟨_, hholds, ?_, fun h' => absurd h' hphase⟩⟩
  intro c hc
  rcases Finset.mem_union.mp hc with hc | hc
  · exact ⟨(h.written c hc).1, Finset.mem_union_left _ (h.written c hc).2⟩
  · refine ⟨covered_lt (le_shift_of_mul_le hinside) hc, Finset.mem_union_right _ ?_⟩
    exact Finset.mem_image_of_mem cell (List.mem_toFinset.mpr (covered_touched sector nb c hc))

theorem Inv.write (h : Inv target length s) (hstage3 : s.phase ≠ .stage3) (hdone : s.phase ≠ .done)
    (sector nb : Nat) (data : Nat → α) :
    ∃ s', bdrvAioWritev s sector nb data = some s' ∧ Inv target length s' := by
  unfold bdrvAioWritev
  split
  · exact ⟨s, rfl, h⟩
  · rename_i hfits
    have hinside : (sector + nb) * BDRV_SECTOR_SIZE ≤ length := by
      rw [← h.bsLength]
      exact Nat.not_lt.mp hfits
    have hnostop : ∀ {p}, ¬ (s.phase = .stage3 ∨ s.phase = .done) ∨ p := .inl (by simp [hstage3, hdone])
    rcases Option.eq_none_or_eq_some s.bmds with hbmds | ⟨bmds, hbmds⟩
    · have hbitmap : s.bs.dirtyBitmap.isSome = false := by rw [h.noDevice hbmds hdone, Option.isSome_none]
      refine ⟨_, by simp only [hbitmap]; rfl, ?_⟩
      refine ⟨h.deviceName, h.totalSectors, h.bsLength, h.base, h.submitted, h.sections, h.f, h.blkList, h.reads, ?_,
        h.noDevice, h.before, fun h' => (hnostop.resolve_left (not_not.mpr h')), h.good, fun h' => absurd h' hdone, h.empty⟩
      intro bmds hmem
      exact absurd (hmem.symm.trans hbmds) nofun
    · have hd := h.device bmds hbmds
      obtain ⟨set, hset⟩ := hd.flagged
      obtain ⟨bs', hs, hflagged⟩ := hset.write hd.words hstage3 (hd.totalSectors ▸ hd.pos) hinside
      obtain ⟨bitmap, hbitmap, -⟩ := hset.holds.bitmap
      refine ⟨_, by simp only [hbitmap, Option.isSome_some, if_true, hs]; rfl, ?_⟩
      refine ⟨h.deviceName, h.totalSectors, ?_, h.base, h.submitted, h.sections, h.f, h.blkList, h.reads, ?_, ?_, ?_,
        fun h' => (hnostop.resolve_left (not_not.mpr h')), ?_, fun h' => absurd h' hdone, h.empty⟩
      · obtain ⟨set', hset'⟩ := hflagged s.writes
        exact hset'.holds.length
      · intro bmds' hmem
        have heq : bmds' = bmds := Option.some.inj (hmem.symm.trans hbmds)
        subst heq
        exact { hd with flagged := hflagged _ }
      · intro hnone
        exact absurd (hnone.symm.trans hbmds) nofun
      · intro hbefore
        rw [(h.before hbefore).1] at hbmds
        cases hbmds
      · intro x hx
        exact (h.good x hx).imp_left fun hmem => Finset.mem_union_left _ hmem

theorem Inv.land (h : Inv target length s) {i : Nat} {part : Nat → Bool}
    (hvalid : (MigrationEvent.land i part : MigrationEvent α).Valid s)
    (hkeeps : (MigrationEvent.land i part : MigrationEvent α).Keeps s) :
    ∃ s', landWrite s i part = some s' ∧ Inv target length s' := by
  have hi : i < s.writes.length := hvalid
  have hget : s.writes[i]? = some s.writes[i] := List.getElem?_eq_getElem hi
  unfold landWrite
  rw [hget]
  refine ⟨_, rfl, ?_⟩
  have hnoticed := hkeeps _ hget
  generalize hwrite : s.writes[i] = write at hnoticed hget ⊢
  -- a sector on which nothing lands keeps its data
  have hsame : ∀ x, ¬ (write.sector ≤ x ∧ x < write.sector + write.nbSectors ∧
      write.left (x - write.sector) = true ∧ part (x - write.sector) = true) →
      (if (decide (write.sector ≤ x ∧ x < write.sector + write.nbSectors) &&
        (write.left (x - write.sector) && part (x - write.sector))) = true then
        write.data (x - write.sector) else s.disk x) = s.disk x := by
    intro x hx
    apply if_neg
    simp only [Bool.and_eq_true, decide_eq_true_eq]
    exact fun hall => hx ⟨hall.1.1, hall.1.2, hall.2.1, hall.2.2⟩
  have hstopped : s.phase = .stage3 ∨ s.phase = .done → ∀ k < write.nbSectors, write.left k = false := by
    intro hstop
    exact (h.stopped hstop).1 write (hwrite ▸ List.getElem_mem hi)
  refine ⟨h.deviceName, h.totalSectors, h.bsLength, ?_, h.submitted, h.sections, h.f, h.blkList, h.reads, ?_,
    h.noDevice, h.before, ?_, ?_, ?_, h.empty⟩
  · intro hbase x hx
    rw [Bool.or_eq_false_iff] at hx
    show target.contents x = if _ then _ else s.disk x
    rw [hx.1]
    exact h.base hbase x hx.2
  · intro bmds hbmds
    have hd := h.device bmds hbmds
    obtain ⟨set, hset⟩ := hd.flagged
    exact { hd with flagged := ⟨set, hset.holds, hset.written, hset.scanned⟩ }
  · intro hstop
    refine ⟨?_, (h.stopped hstop).2⟩
    intro write' hmem k hk
    rcases List.mem_or_eq_of_mem_set hmem with hmem | rfl
    · exact (h.stopped hstop).1 write' hmem k hk
    · show (write.left k && !part k) = false
      rw [hstopped hstop k hk, Bool.false_and]
  · intro x hx
    by_cases hlands : write.sector ≤ x ∧ x < write.sector + write.nbSectors ∧
        write.left (x - write.sector) = true ∧ part (x - write.sector) = true
    · have hx' := hnoticed (x - write.sector) (by omega) hlands.2.2.1 hlands.2.2.2
      rw [Nat.add_sub_cancel' hlands.1] at hx'
      apply hx'.imp_right
      apply Or.imp_right
      rintro ⟨read, hread, hleft⟩
      exact .inl ⟨read, hread, .inl hleft⟩
    · have hgood := h.good x hx
      unfold Good UpToDate at hgood ⊢
      dsimp only
      rw [hsame x hlands]
      exact hgood
  · intro hdone
    refine ⟨(h.final hdone).1, fun x hx => ?_⟩
    refine ((h.final hdone).2 x hx).trans (hsame x ?_).symm
    rintro ⟨hle, hlt, hleft, -⟩
    rw [hstopped (.inr hdone) _ (by omega)] at hleft
    cases hleft

theorem UpToDate.of_newest {s' : Migration α} {x : Nat} (h : UpToDate target s x)
    (hreads : newest (readOf x) s'.reads = newest (readOf x) s.reads) (hdisk : s'.disk = s.disk)
    (hblocks : shown target (blocks s') x = shown target (blocks s) x) : UpToDate target s' x := by
  unfold UpToDate at h ⊢
  rwa [hreads, hdisk, hblocks]

theorem Inv.fetch (h : Inv target length s) {i : Nat} {part : Nat → Bool}
    (hvalid : (MigrationEvent.fetch i part : MigrationEvent α).Valid s) :
    ∃ s', fetchRead s i part = some s' ∧ Inv target length s' := by
  have hi : i < s.reads.length := hvalid
  have hget : s.reads[i]? = some s.reads[i] := List.getElem?_eq_getElem hi
  unfold fetchRead
  rw [hget]
  refine ⟨_, rfl, ?_⟩
  obtain ⟨hwhole, hnr⟩ := h.reads _ (List.getElem_mem hi)
  generalize s.reads[i] = read at hget hwhole hnr ⊢
  refine ⟨h.deviceName, h.totalSectors, h.bsLength, h.base, by rw [h.submitted, List.length_set], h.sections, h.f,
    h.blkList, ?_, ?_, h.noDevice, ?_, ?_, ?_, h.final, h.empty⟩
  · intro read' hmem
    rcases List.mem_or_eq_of_mem_set hmem with hmem | rfl
    · exact h.reads read' hmem
    · exact ⟨hwhole, hnr⟩
  · intro bmds hbmds
    have hd := h.device bmds hbmds
    obtain ⟨set, hset⟩ := hd.flagged
    refine { hd with flagged := ⟨set, hset.holds, hset.written, hset.scanned⟩, read := ?_ }
    intro read' hmem
    rcases List.mem_or_eq_of_mem_set hmem with hmem | rfl
    · exact hd.read read' hmem
    · exact hd.read read (List.mem_of_getElem? hget)
  · intro hbefore
    rw [(h.before hbefore).2.1] at hget
    cases hget
  · intro hstop
    rw [(h.stopped hstop).2.1] at hget
    cases hget
  · intro x hx
    apply (h.good x hx).imp_right
    apply Or.imp_right
    intro hup
    have hof : readOf x (read.fetch s.disk part) = readOf x read := rfl
    rcases newest_set hget hof with hsame | ⟨hold, hnew⟩
    · exact hup.of_newest hsame rfl rfl
    · refine .inl ⟨_, hnew, ?_⟩
      rcases hup with ⟨read', hread', hor⟩ | ⟨hnone, -⟩
      · rw [hold] at hread'
        cases hread'
        have hmatch : blockOf x read.toBlkMigBlock = true := (newest_mem hold).2
        have hk : x % BDRV_SECTORS_PER_DIRTY_CHUNK < read.nrSectors := by
          rw [hnr]
          exact Nat.mod_lt _ (by decide)
        dsimp only [BlkMigRead.fetch]
        rw [decide_eq_true hk, Bool.true_and, hwhole.sector_add hmatch]
        cases hleft : read.left (x % BDRV_SECTORS_PER_DIRTY_CHUNK) with
        | true =>
          cases hpart : part (x % BDRV_SECTORS_PER_DIRTY_CHUNK) with
          | true => exact .inr rfl
          | false => exact .inl rfl
        | false => exact .inr (hor.resolve_left (by rw [hleft]; decide))
      · rw [hold] at hnone
        cases hnone

theorem Inv.complete (h : Inv target length s) {i : Nat} {time : Int}
    (hvalid : (MigrationEvent.complete i time : MigrationEvent α).Valid s)
    (hkeeps : (MigrationEvent.complete i time : MigrationEvent α).Keeps s) :
    ∃ s', blkMigReadCb s i time = some s' ∧ Inv target length s' := by
  obtain ⟨read, hget, hread⟩ := hvalid
  have hearlier := hkeeps read hget
  have hmem : read ∈ s.reads := List.mem_of_getElem? hget
  obtain ⟨hwhole, hnr⟩ := h.reads read hmem
  have hpos : s.submitted ≠ 0 := by
    rw [h.submitted]
    exact (List.length_pos_of_mem hmem).ne'
  unfold blkMigReadCb
  rw [hget]
  refine ⟨_, if_neg hpos, ?_⟩
  have hi : i < s.reads.length := (List.getElem?_eq_some_iff.mp hget).1
  have herase : ∀ read' ∈ s.reads.eraseIdx i, read' ∈ s.reads := fun _ => List.mem_of_mem_eraseIdx
  have hblocks : sentBlocks s ++ (s.blkList ++ [read.toBlkMigBlock]) = blocks s ++ [read.toBlkMigBlock] :=
    (List.append_assoc _ _ _).symm
  refine ⟨h.deviceName, h.totalSectors, h.bsLength, h.base, ?_, h.sections, h.f, ?_, ?_, ?_, h.noDevice, ?_, ?_, ?_, ?_,
    h.empty⟩
  · rw [h.submitted, List.length_eraseIdx_of_lt hi]
  · intro blk hblk
    rcases List.mem_append.mp hblk with hblk | hblk
    · exact h.blkList blk hblk
    · rwa [List.mem_singleton.mp hblk]
  · exact fun read' hmem' => h.reads read' (herase read' hmem')
  · intro bmds hbmds
    have hd := h.device bmds hbmds
    obtain ⟨set, hset⟩ := hd.flagged
    refine { hd with
      flagged := ⟨set, hset.holds, hset.written, hset.scanned⟩
      sent := ?_
      read := fun read' hmem' => hd.read read' (herase read' hmem') }
    show ∀ blk ∈ sentBlocks s ++ (s.blkList ++ [read.toBlkMigBlock]), blk.sector < bmds.curSector
    rw [hblocks]
    intro blk hblk
    rcases List.mem_append.mp hblk with hblk | hblk
    · exact hd.sent blk hblk
    · rw [List.mem_singleton.mp hblk]
      exact hd.read read hmem
  · intro hbefore
    rw [(h.before hbefore).2.1] at hget
    cases hget
  · intro hstop
    rw [(h.stopped hstop).2.1] at hget
    cases hget
  · intro x hx
    apply (h.good x hx).imp_right
    apply Or.imp_right
    intro hup
    cases hof : readOf x read with
    | false =>
      refine hup.of_newest (newest_eraseIdx_other hget hof) rfl ?_
      have hnot : ¬ blockOf x read.toBlkMigBlock = true := by
        rw [Bool.not_eq_true]
        exact hof
      show shown target (sentBlocks s ++ (s.blkList ++ [read.toBlkMigBlock])) x = _
      rw [hblocks, shown_concat, if_neg hnot]
    | true =>
      have hfirst : ∀ read' ∈ s.reads.take i, readOf x read' = false := by
        intro read' hmem'
        by_contra hne
        have hof' : readOf x read' = true := by simpa using hne
        have hwhole' := (h.reads read' (List.mem_of_mem_take hmem')).1
        apply hearlier read' hmem'
        have h1 := hwhole.sector_add hof
        have h2 := hwhole'.sector_add hof'
        exact Nat.add_right_cancel (h2.trans h1.symm)
      rcases newest_eraseIdx_first hget hof hfirst with hsame | ⟨hnone, hold⟩
      · rcases hup with ⟨read', hread', hor⟩ | ⟨hnone, -⟩
        · exact .inl ⟨read', hsame.trans hread', hor⟩
        · rw [newest_eq_none] at hnone
          rw [hnone read hmem] at hof
          cases hof
      · refine .inr ⟨hnone, ?_⟩
        show shown target (sentBlocks s ++ (s.blkList ++ [read.toBlkMigBlock])) x = s.disk x
        rw [hblocks, shown_concat]
        rcases hup with ⟨read', hread', hor⟩ | ⟨hnone', -⟩
        · rw [hold] at hread'
          cases hread'
          have hof' : blockOf x read.toBlkMigBlock = true := hof
          rw [if_pos hof']
          apply hor.resolve_left
          have hk : x % BDRV_SECTORS_PER_DIRTY_CHUNK < read.nrSectors := by
            rw [hnr]
            exact Nat.mod_lt _ (by decide)
          rw [hread _ hk]
          decide
        · rw [hold] at hnone'
          cases hnone'
  · intro hdone
    rw [(h.stopped (.inr hdone)).2.1] at hget
    cases hget

/-- The blocks read so far are in front of the bulk phase. -/
theorem DeviceInv.chunk_lt {bmds : BlkMigDevState} (h : DeviceInv length s bmds) {sector x : Nat}
    (hsector : sector < bmds.curSector) (hx : bmds.curSector ≤ x) (hlt : x < bmds.totalSectors) :
    chunkOf sector ≠ chunkOf x := by
  have haligned := h.aligned
  simp only [chunkOf, BDRV_SECTORS_PER_DIRTY_CHUNK] at *
  omega

/-- What is not allocated needs no block. -/
theorem Inv.base_upToDate (h : Inv target length s) {bmds : BlkMigDevState} (hbmds : s.bmds = some bmds) {x : Nat}
    (hx : bmds.curSector ≤ x) (hlt : x < target.totalSectors) (hbase : s.sharedBase = true)
    (halloc : s.isAllocated x = false) : UpToDate target s x := by
  have hd := h.device bmds hbmds
  have hlt' : x < bmds.totalSectors := by
    rw [hd.totalSectors, ← h.totalSectors]
    exact hlt
  have hnoRead : newest (readOf x) s.reads = none := by
    rw [newest_eq_none]
    intro read hread
    exact beq_false_of_ne (hd.chunk_lt (hd.read read hread) hx hlt')
  have hnoBlock : newest (blockOf x) (blocks s) = none := by
    rw [newest_eq_none]
    intro blk hblk
    exact beq_false_of_ne (hd.chunk_lt (hd.sent blk hblk) hx hlt')
  refine .inr ⟨hnoRead, ?_⟩
  rw [shown, hnoBlock]
  exact h.base hbase x halloc

/-- Only the state of the device changes. -/
theorem Inv.setDevice (h : Inv target length s) {bmds bmds' : BlkMigDevState} (hbmds : s.bmds = some bmds)
    (hd : DeviceInv length s bmds') (hgood : ∀ x < target.totalSectors, bmds.curSector ≤ x →
      bmds'.curSector ≤ x ∨ UpToDate target s x) : Inv target length { s with bmds := some bmds' } := by
  refine ⟨h.deviceName, h.totalSectors, h.bsLength, h.base, h.submitted, h.sections, h.f, h.blkList, h.reads, ?_, nofun,
    ?_, h.stopped, ?_, h.final, nofun⟩
  · intro bmds'' heq
    cases heq
    obtain ⟨set, hset⟩ := hd.flagged
    exact { hd with flagged := ⟨set, hset.holds, hset.written, hset.scanned⟩ }
  · intro hbefore
    rw [(h.before hbefore).1] at hbmds
    cases hbmds
  · intro x hx
    apply (h.good x hx).imp_right
    rintro (hunreached | hup)
    · apply (hgood x hx (hunreached bmds hbmds)).imp_left
      intro hle bmds'' heq
      cases heq
      exact hle
    · exact .inr hup

theorem Flagged.reset {curDirty sector : Nat} {set : Finset Nat} (h : Flagged length s curDirty set)
    (hwords : numChunks length ≤ 64 * (bitmapSize length / 8))
    (haligned : sector % BDRV_SECTORS_PER_DIRTY_CHUNK = 0) (hlt : sector < length >>> BDRV_SECTOR_BITS)
    (hother : ∀ c ∈ s.written, c ≠ chunkOf sector → ¬ SameBit c (chunkOf sector)) :
    ∃ bs', Block.resetDirty s.bs sector BDRV_SECTORS_PER_DIRTY_CHUNK = some bs' ∧
      ∀ s' : Migration α, s'.bs = bs' → s'.written = s.written.erase (chunkOf sector) → s'.phase = s.phase →
        Flagged length s' curDirty (set.erase (cell (chunkOf sector))) := by
  obtain ⟨bs', hs, hholds⟩ := h.holds.resetDirty hwords haligned hlt
  refine ⟨bs', hs, fun s' hbs hwritten hphase => ⟨hbs ▸ hholds, ?_, ?_⟩⟩
  · intro c hc
    rw [hwritten, Finset.mem_erase] at hc
    refine ⟨(h.written c hc.2).1, Finset.mem_erase.mpr ⟨?_, (h.written c hc.2).2⟩⟩
    exact fun heq => hother c hc.2 hc.1 (cell_eq_iff.mp heq)
  · intro hstage c hc hmem
    exact h.scanned (hphase ▸ hstage) c hc (Finset.mem_of_mem_erase hmem)

theorem blockSectors_whole {totalSectors sector : Nat} (h : sector + BDRV_SECTORS_PER_DIRTY_CHUNK ≤ totalSectors) :
    blockSectors totalSectors sector = BDRV_SECTORS_PER_DIRTY_CHUNK := by
  rw [blockSectors, if_neg (by omega)]

/-- A block is going to be read, and the bulk phase may go on behind it. -/
theorem Inv.readBlock (h : Inv target length s) {bmds bmds' : BlkMigDevState} (hbmds : s.bmds = some bmds) {sector : Nat}
    (haligned : sector % BDRV_SECTORS_PER_DIRTY_CHUNK = 0)
    (hle : sector + BDRV_SECTORS_PER_DIRTY_CHUNK ≤ target.totalSectors)
    (hother : ∀ c ∈ s.written, c ≠ chunkOf sector → ¬ SameBit c (chunkOf sector))
    (hstage3 : s.phase ≠ .stage3) (hdone : s.phase ≠ .done) (hd' : DeviceInv length s bmds')
    (hread : sector < bmds'.curSector)
    (hgood : ∀ x < target.totalSectors, bmds.curSector ≤ x → chunkOf x ≠ chunkOf sector →
      bmds'.curSector ≤ x ∨ UpToDate target s x) (junk : Nat → α) :
    ∃ bs', resetBlock (aioReadv s sector BDRV_SECTORS_PER_DIRTY_CHUNK junk) sector BDRV_SECTORS_PER_DIRTY_CHUNK =
        some { aioReadv s sector BDRV_SECTORS_PER_DIRTY_CHUNK junk with
          bs := bs', written := s.written.erase (chunkOf sector) } ∧
      Inv target length { aioReadv s sector BDRV_SECTORS_PER_DIRTY_CHUNK junk with
        bs := bs', written := s.written.erase (chunkOf sector), bmds := some bmds' } := by
  obtain ⟨set, hset⟩ := hd'.flagged
  have hlt : sector < length >>> BDRV_SECTOR_BITS := by
    rw [← h.totalSectors]
    exact (Nat.lt_add_of_pos_right (by decide)).trans_le hle
  obtain ⟨bs', hreset, hflagged⟩ := hset.reset hd'.words haligned hlt hother
  refine ⟨bs', by rw [resetBlock, aioReadv, hreset]; rfl, ?_⟩
  have hnostop : ¬ (s.phase = .stage3 ∨ s.phase = .done) := by simp [hstage3, hdone]
  refine ⟨h.deviceName, h.totalSectors, ?_, h.base, ?_, h.sections, h.f, h.blkList, ?_, ?_, nofun, ?_,
    fun h' => absurd h' hnostop, ?_, fun h' => absurd h' hdone, nofun⟩
  · exact (hflagged { s with bs := bs', written := _ } rfl rfl rfl).holds.length
  · rw [aioReadv, List.length_append, h.submitted]
    rfl
  · intro read hmem
    rcases List.mem_append.mp hmem with hmem | hmem
    · exact h.reads read hmem
    · rw [List.mem_singleton.mp hmem]
      exact ⟨⟨haligned, hle⟩, rfl⟩
  · intro bmds'' heq
    cases heq
    refine { hd' with flagged := ⟨_, hflagged _ rfl rfl rfl⟩, read := ?_ }
    intro read hmem
    rcases List.mem_append.mp hmem with hmem | hmem
    · exact hd'.read read hmem
    · rw [List.mem_singleton.mp hmem]
      exact hread
  · intro hbefore
    rw [(h.before hbefore).1] at hbmds
    cases hbmds
  · intro x hx
    by_cases hchunk : chunkOf x = chunkOf sector
    · refine .inr (.inr (.inl ⟨newRead sector BDRV_SECTORS_PER_DIRTY_CHUNK junk, ?_, .inl rfl⟩))
      have hof : (chunkOf sector == chunkOf x) = true := beq_iff_eq.mpr hchunk.symm
      exact (newest_concat _ _).trans (if_pos hof)
    · have hof : ¬ (chunkOf sector == chunkOf x) = true := fun heq => hchunk (beq_iff_eq.mp heq).symm
      have hkeep : UpToDate target s x → UpToDate target { aioReadv s sector BDRV_SECTORS_PER_DIRTY_CHUNK junk with
          bs := bs', written := s.written.erase (chunkOf sector), bmds := some bmds' } x := fun hup =>
        hup.of_newest ((newest_concat _ _).trans (if_neg hof)) rfl rfl
      rcases h.good x hx with hwritten | hunreached | hup
      · exact .inl (Finset.mem_erase.mpr ⟨hchunk, hwritten⟩)
      · apply Or.inr
        apply (hgood x hx (hunreached bmds hbmds) hchunk).imp _ hkeep
        intro hle' bmds'' heq
        cases heq
        exact hle'
      · exact .inr (.inr (hkeep hup))

theorem skipUnallocated_spec {isAllocated : Nat → Bool} {more : Nat → Nat} {totalSectors : Nat}
    (hmore : ∀ x, isAllocated x = false → ∀ k ≤ more x, x + k < totalSectors → isAllocated (x + k) = false)
    (curSector : Nat) : curSector ≤ skipUnallocated isAllocated more totalSectors curSector ∧
      ∀ x < totalSectors, curSector ≤ x → x < skipUnallocated isAllocated more totalSectors curSector →
        isAllocated x = false := by
  fun_induction skipUnallocated isAllocated more totalSectors curSector with
  | case1 curSector hcond ih =>
    refine ⟨by omega, fun x hx hle hlt => ?_⟩
    rcases Nat.lt_or_ge x (curSector + (more curSector + 1)) with hnear | hfar
    · have hstep := hmore curSector hcond.2 (x - curSector) (by omega)
      rw [Nat.add_sub_cancel' hle] at hstep
      exact hstep hx
    · exact ih.2 x hx hfar hlt
  | case2 curSector hcond => exact ⟨le_rfl, fun x _ hle hlt => absurd hlt (Nat.not_lt.mpr hle)⟩

/-- Behind the bulk phase nothing changes before the sector from which it goes on. -/
theorem Inv.bulkSector (h : Inv target length s) {bmds : BlkMigDevState} (hbmds : s.bmds = some bmds)
    {more : Nat → Nat}
    (hmore : ∀ x, s.isAllocated x = false → ∀ k ≤ more x, x + k < target.totalSectors → s.isAllocated (x + k) = false) :
    bmds.curSector ≤ Block.bulkSector s bmds more ∧ ∀ x < target.totalSectors, bmds.curSector ≤ x →
      x < Block.bulkSector s bmds more → UpToDate target s x := by
  have hd := h.device bmds hbmds
  unfold Block.bulkSector
  split
  · rename_i hshared
    rw [hd.totalSectors, ← h.totalSectors]
    obtain ⟨hle, hskip⟩ := skipUnallocated_spec hmore bmds.curSector
    refine ⟨hle, fun x hx hcur hlt => ?_⟩
    exact h.base_upToDate hbmds hcur hx (hd.sharedBase.symm.trans hshared) (hskip x hx hcur hlt)
  · exact ⟨le_rfl, fun x _ hcur hlt => absurd hlt (Nat.not_lt.mpr hcur)⟩

theorem Inv.saveDeviceBulk (h : Inv target length s) {bmds : BlkMigDevState} (hbmds : s.bmds = some bmds)
    (hphase : s.phase = .stage2) (hbulk : s.bulkCompleted = false) {more : Nat → Nat}
    (hmore : ∀ x, s.isAllocated x = false → ∀ k ≤ more x, x + k < target.totalSectors → s.isAllocated (x + k) = false)
    (hnext : Block.bulkSector s bmds more < bmds.totalSectors →
      ∀ sector, sector = Block.bulkSector s bmds more - Block.bulkSector s bmds more % BDRV_SECTORS_PER_DIRTY_CHUNK →
        sector + BDRV_SECTORS_PER_DIRTY_CHUNK ≤ target.totalSectors ∧
          ∀ c ∈ s.written, c ≠ chunkOf sector → ¬ SameBit c (chunkOf sector)) (junk : Nat → α) :
    ∃ s' bmds' completed, migSaveDeviceBulk s bmds more junk = some (s', bmds', completed) ∧
      s'.totalSectorSum = s.totalSectorSum ∧ s'.phase = s.phase ∧
      Inv target length { s' with bmds := some { bmds' with bulkCompleted := completed } } := by
  have hd := h.device bmds hbmds
  have htotal : bmds.totalSectors = target.totalSectors := hd.totalSectors.trans h.totalSectors.symm
  obtain ⟨hle, hskip⟩ := h.bulkSector hbmds hmore
  unfold migSaveDeviceBulk
  dsimp only
  split
  · rename_i hend
    refine ⟨_, _, _, rfl, rfl, rfl, h.setDevice hbmds ?_ ?_⟩
    · exact { hd with
        aligned := .inr rfl
        le := le_rfl
        bulk := fun _ => rfl
        sent := fun blk hblk => (hd.sent blk hblk).trans_le hd.le
        read := fun read hread => (hd.read read hread).trans_le hd.le }
    · intro x hx hcur
      exact .inr (hskip x hx hcur (by omega))
  · rename_i hgo
    obtain ⟨hwhole, hother⟩ := hnext (Nat.not_le.mp hgo) _ rfl
    have hmod : Block.bulkSector s bmds more % BDRV_SECTORS_PER_DIRTY_CHUNK < BDRV_SECTORS_PER_DIRTY_CHUNK :=
      Nat.mod_lt _ (by decide)
    generalize hcur : Block.bulkSector s bmds more = curSector at *
    have haligned : (curSector - curSector % BDRV_SECTORS_PER_DIRTY_CHUNK) % BDRV_SECTORS_PER_DIRTY_CHUNK = 0 := by
      simp only [BDRV_SECTORS_PER_DIRTY_CHUNK] at *
      omega
    generalize hsector : curSector - curSector % BDRV_SECTORS_PER_DIRTY_CHUNK = sector at *
    rw [blockSectors_whole (htotal ▸ hwhole)]
    have hle' : bmds.curSector ≤ sector + BDRV_SECTORS_PER_DIRTY_CHUNK := by omega
    have hd' : DeviceInv length s { bmds with
        completedSectors := curSector
        curSector := sector + BDRV_SECTORS_PER_DIRTY_CHUNK
        bulkCompleted := decide (bmds.totalSectors ≤ sector + BDRV_SECTORS_PER_DIRTY_CHUNK) } := by
      refine { hd with
        aligned := .inl (by rw [Nat.add_mod_right, haligned])
        le := htotal ▸ hwhole
        bulk := ?_
        sent := fun blk hblk => (hd.sent blk hblk).trans_le hle'
        read := fun read hread => (hd.read read hread).trans_le hle' }
      rintro (hover | hover | hover)
      · exact (htotal ▸ hwhole).antisymm (of_decide_eq_true hover)
      · rw [hbulk] at hover
        cases hover
      · rw [hphase] at hover
        cases hover
    have hbehind : ∀ x < target.totalSectors, bmds.curSector ≤ x → chunkOf x ≠ chunkOf sector →
        sector + BDRV_SECTORS_PER_DIRTY_CHUNK ≤ x ∨ UpToDate target s x := by
      intro x hx hcurx hchunk
      rcases Nat.lt_or_ge x (sector + BDRV_SECTORS_PER_DIRTY_CHUNK) with hlt | hge
      · apply Or.inr
        apply hskip x hx hcurx
        simp only [chunkOf, BDRV_SECTORS_PER_DIRTY_CHUNK] at *
        omega
      · exact .inl hge
    obtain ⟨bs', hreset, hinv⟩ := h.readBlock hbmds haligned hwhole hother (by rw [hphase]; decide)
      (by rw [hphase]; decide) hd' (Nat.lt_add_of_pos_right (by decide)) hbehind junk
    exact ⟨{ aioReadv s sector BDRV_SECTORS_PER_DIRTY_CHUNK junk with bs := bs', written := _ },
      { bmds with completedSectors := curSector, curSector := sector + BDRV_SECTORS_PER_DIRTY_CHUNK }, _,
      by rw [hreset]; rfl, rfl, rfl, hinv⟩

theorem Inv.bulkDone (h : Inv target length s) {bmds : BlkMigDevState} (hbmds : s.bmds = some bmds)
    (hend : bmds.curSector = bmds.totalSectors) : Inv target length { s with bulkCompleted := true } := by
  refine ⟨h.deviceName, h.totalSectors, h.bsLength, h.base, h.submitted, h.sections, h.f, h.blkList, h.reads, ?_,
    h.noDevice, h.before, h.stopped, h.good, h.final, h.empty⟩
  intro bmds' hbmds'
  cases Option.some.inj (hbmds'.symm.trans hbmds)
  have hd := h.device bmds hbmds
  obtain ⟨set, hset⟩ := hd.flagged
  exact { hd with bulk := fun _ => hend, flagged := ⟨set, hset.holds, hset.written, hset.scanned⟩ }

theorem Inv.bulkRound (h : Inv target length s) (hphase : s.phase = .stage2) (hbulk : s.bulkCompleted = false)
    {more : Nat → Nat} {junk : Nat → α} (hvalid : (MigrationEvent.round more junk).Valid s)
    (hkeeps : (MigrationEvent.round more junk).Keeps s) :
    ∃ s', stage2Round s more junk = some s' ∧ Inv target length s' := by
  have hdone : s.phase ≠ .done := by
    rw [hphase]
    decide
  obtain ⟨bmds, hbmds⟩ := Option.ne_none_iff_exists'.mp (hkeeps.1 hphase hbulk)
  have hd := h.device bmds hbmds
  have htotal : Block.totalSectors s = target.totalSectors := by
    rw [h.totalSectors, ← h.bsLength]
    rfl
  simp only [stage2Round, hbulk, blkMigSaveBulkedBlock, hbmds, Bool.false_eq_true, if_false]
  by_cases hcompleted : bmds.bulkCompleted = true
  · obtain ⟨f, progress, hput, hinv⟩ := h.putProgress hdone hd.sum bmds.completedSectors
    refine ⟨_, by simp only [hcompleted, if_true, hput]; rfl, ?_⟩
    exact hinv.bulkDone hbmds (hd.bulk (.inl hcompleted))
  · have hmore := hvalid.2
    rw [htotal] at hmore
    have hnext : Block.bulkSector s bmds more < bmds.totalSectors → ∀ sector,
        sector = Block.bulkSector s bmds more - Block.bulkSector s bmds more % BDRV_SECTORS_PER_DIRTY_CHUNK →
          sector + BDRV_SECTORS_PER_DIRTY_CHUNK ≤ target.totalSectors ∧
            ∀ c ∈ s.written, c ≠ chunkOf sector → ¬ SameBit c (chunkOf sector) := by
      rintro hlt sector rfl
      rw [← htotal]
      apply hkeeps.2
      simp only [nextSector, hbmds, Option.bind_eq_bind, Option.bind_some, hphase, hbulk]
      rw [if_pos ⟨trivial, trivial⟩, if_neg (not_or.mpr ⟨hcompleted, Nat.not_le.mpr hlt⟩)]
    obtain ⟨s', bmds', completed, hsave, hsum, hphase', hinv⟩ :=
      h.saveDeviceBulk hbmds hphase hbulk hmore hnext junk
    obtain ⟨f, progress, hput, hinv'⟩ := hinv.putProgress (hphase' ▸ hdone) (hsum ▸ hd.sum) bmds'.completedSectors
    exact ⟨_, by simp only [hcompleted, hsave, Bool.false_eq_true, if_false, Option.bind_eq_bind, Option.bind_some, hput]; rfl, hinv'⟩

/-- The cursor of the device comes to the first dirty sector or to the end. -/
theorem DeviceInv.scan {bmds : BlkMigDevState} (hd : DeviceInv length s bmds) :
    ∃ sector dirty, scanDirty s.bs bmds.totalSectors bmds.curDirty = some (sector, dirty) ∧
      DeviceInv length s { bmds with curDirty := sector } ∧ sector % BDRV_SECTORS_PER_DIRTY_CHUNK = 0 ∧
      (∃ set, Flagged length s sector set ∧ (dirty = true → cell (chunkOf sector) ∈ set)) ∧
      (dirty = true → sector < bmds.totalSectors) ∧ (dirty = false → bmds.totalSectors ≤ sector) := by
  obtain ⟨set, hset⟩ := hd.flagged
  obtain ⟨sector, dirty, hscan, hle, haligned, hskip, hdirty, hclean⟩ :=
    hset.holds.scanDirty hd.words bmds.curDirty hd.curDirty
  rw [← hd.totalSectors] at hscan hdirty hclean
  have hset' : Flagged length s sector set := by
    refine ⟨hset.holds, hset.written, fun hstage c hc => ?_⟩
    rcases Nat.lt_or_ge (c * BDRV_SECTORS_PER_DIRTY_CHUNK) bmds.curDirty with hlt | hge
    · exact hset.scanned hstage c hlt
    · exact hskip c hge hc
  exact ⟨sector, dirty, hscan, { hd with curDirty := haligned, flagged := ⟨set, hset'⟩ }, haligned,
    ⟨set, hset', fun h => (hdirty h).2⟩, fun h => (hdirty h).1, hclean⟩

theorem Inv.nextDirty (h : Inv target length s) {bmds : BlkMigDevState} (hbmds : s.bmds = some bmds)
    {more : Nat → Nat} {junk : Nat → α} (hkeeps : (MigrationEvent.round more junk).Keeps s)
    (hphase : ¬ (s.phase = .stage2 ∧ s.bulkCompleted = false)) {sector : Nat}
    (hscan : scanDirty s.bs bmds.totalSectors bmds.curDirty = some (sector, true)) :
    sector + BDRV_SECTORS_PER_DIRTY_CHUNK ≤ target.totalSectors ∧
      ∀ c ∈ s.written, c ≠ chunkOf sector → ¬ SameBit c (chunkOf sector) := by
  have htotal : Block.totalSectors s = target.totalSectors := by
    rw [h.totalSectors, ← h.bsLength]
    rfl
  rw [← htotal]
  apply hkeeps.2
  simp only [nextSector, hbmds, Option.bind_eq_bind, Option.bind_some]
  rw [if_neg hphase, hscan]
  rfl

theorem Inv.dirtyRound (h : Inv target length s) (hphase : s.phase = .stage2) (hbulk : s.bulkCompleted = true)
    {more : Nat → Nat} {junk : Nat → α} (hkeeps : (MigrationEvent.round more junk).Keeps s) :
    ∃ s', stage2Round s more junk = some s' ∧ Inv target length s' := by
  have hdone : s.phase ≠ .done := by
    rw [hphase]
    decide
  have hleave : ∀ s', Inv target length s' → s'.phase = s.phase → ∀ b : Bool,
      Inv target length (if b then s' else { s' with phase := .noMoreDirty }) := by
    intro s' hinv hphase' b
    cases b with
    | true => exact hinv
    | false =>
      refine hinv.toPhase (hphase' ▸ hdone) (fun hnone => ?_) (by decide) (by decide) (by decide)
      have hempty := hinv.empty hnone
      rw [hphase', hphase] at hempty
      simpa using hempty
  simp only [stage2Round, hbulk, if_true, blkMigSaveDirtyBlock]
  rcases Option.eq_none_or_eq_some s.bmds with hbmds | ⟨bmds, hbmds⟩
  · simp only [hbmds]
    exact ⟨_, rfl, hleave s h rfl false⟩
  · have hd := h.device bmds hbmds
    have htotal : bmds.totalSectors = target.totalSectors := hd.totalSectors.trans h.totalSectors.symm
    have hend := hd.bulk (.inr (.inl hbulk))
    obtain ⟨sector, dirty, hscan, hd', haligned, -, hdirty, hclean⟩ := hd.scan
    simp only [hbmds, migSaveDeviceDirty, hscan, Option.bind_eq_bind, Option.bind_some]
    cases dirty with
    | true =>
      obtain ⟨hwhole, hother⟩ := h.nextDirty hbmds hkeeps (by rw [hbulk]; nofun) hscan
      have hbehind : ∀ x < target.totalSectors, bmds.curSector ≤ x → chunkOf x ≠ chunkOf sector →
          bmds.curSector ≤ x ∨ UpToDate target s x := fun x _ hx _ => .inl hx
      obtain ⟨bs', hreset, hinv⟩ := h.readBlock hbmds haligned hwhole hother (by rw [hphase]; decide) hdone hd'
        ((hdirty rfl).trans_le hend.ge) hbehind junk
      rw [blockSectors_whole (htotal ▸ hwhole)]
      simp only [if_true, hreset, Option.bind_some]
      exact ⟨_, rfl, hleave _ hinv rfl _⟩
    | false =>
      simp only [Bool.false_eq_true, if_false, Option.bind_some]
      exact ⟨_, rfl, hleave _ (h.setDevice hbmds hd' fun x _ hx => .inl hx) rfl _⟩

/-- In stage 3 a block is read and sent at once. -/
theorem Inv.sendBlock (h : Inv target length s) (hphase : s.phase = .stage3) {bmds bmds' : BlkMigDevState}
    (hbmds : s.bmds = some bmds) {blk : BlkMigBlock α} (hwhole : WholeBlock target.totalSectors blk)
    (hother : ∀ c ∈ s.written, c ≠ chunkOf blk.sector → ¬ SameBit c (chunkOf blk.sector))
    (hd' : DeviceInv length s bmds') {set : Finset Nat} (hset : Flagged length s bmds'.curDirty set)
    (hbuf : ∀ k < BDRV_SECTORS_PER_DIRTY_CHUNK, blk.buf k = s.disk (blk.sector + k)) :
    ∃ bs', resetBlock (blkSend s blk) blk.sector BDRV_SECTORS_PER_DIRTY_CHUNK =
        some { blkSend s blk with bs := bs', written := s.written.erase (chunkOf blk.sector) } ∧
      Holds length (bitmapSize length / 8) (set.erase (cell (chunkOf blk.sector))) bs' ∧
      Inv target length { blkSend s blk with
        bs := bs', written := s.written.erase (chunkOf blk.sector), bmds := some bmds' } := by
  have hlt : blk.sector < length >>> BDRV_SECTOR_BITS := by
    rw [← h.totalSectors]
    exact (Nat.lt_add_of_pos_right (by decide)).trans_le hwhole.2
  obtain ⟨bs', hreset, hflagged⟩ := hset.reset hd'.words hwhole.1 hlt hother
  have hholds := (hflagged { s with bs := bs', written := _ } rfl rfl rfl).holds
  refine ⟨bs', by rw [resetBlock, blkSend, hreset]; rfl, hholds, ?_⟩
  obtain ⟨hlanded, hreads, hqueue⟩ := h.stopped (.inl hphase)
  have hrecord : (blockRecord s.deviceName blk).blk = some blk := blockRecord_blk _ _
  have hblocks : (s.sections.flatten ++ (s.f ++ [blockRecord s.deviceName blk])).filterMap Record.blk ++
      s.blkList = blocks s ++ [blk] := by
    rw [blocks, sentBlocks, hqueue, List.append_nil, List.append_nil, ← List.append_assoc, List.filterMap_append,
      List.filterMap_cons, hrecord]
    rfl
  have hnotdone : s.phase ≠ .done := by
    rw [hphase]
    decide
  refine ⟨h.deviceName, h.totalSectors, hholds.length, h.base, h.submitted, h.sections, ?_, h.blkList, h.reads, ?_,
    nofun, ?_, fun _ => ⟨hlanded, hreads, hqueue⟩, ?_, fun h' => absurd h' hnotdone, nofun⟩
  · intro record hmem
    rcases List.mem_append.mp hmem with hmem | hmem
    · exact h.f record hmem
    · exact .inl ⟨_, hwhole, List.mem_singleton.mp hmem⟩
  · intro bmds'' heq
    cases heq
    refine { hd' with flagged := ⟨_, hflagged _ rfl rfl rfl⟩, sent := ?_ }
    show ∀ blk' ∈ (s.sections.flatten ++ (s.f ++ [blockRecord s.deviceName blk])).filterMap Record.blk ++
      s.blkList, blk'.sector < bmds'.curSector
    rw [hblocks]
    intro blk' hmem
    rcases List.mem_append.mp hmem with hmem | hmem
    · exact hd'.sent blk' hmem
    · rw [List.mem_singleton.mp hmem, hd'.bulk (.inr (.inr hphase)), hd'.totalSectors]
      exact hlt
  · intro hbefore
    rw [(h.before hbefore).1] at hbmds
    cases hbmds
  · intro x hx
    have hnone : newest (readOf x) s.reads = none := by
      rw [hreads]
      rfl
    by_cases hchunk : chunkOf x = chunkOf blk.sector
    · have hof : blockOf x blk = true := beq_iff_eq.mpr hchunk.symm
      refine .inr (.inr (.inr ⟨hnone, ?_⟩))
      show shown target ((s.sections.flatten ++
        (s.f ++ [blockRecord s.deviceName blk])).filterMap Record.blk ++ s.blkList) x = s.disk x
      rw [hblocks, shown_concat, if_pos hof, hbuf _ (Nat.mod_lt _ (by decide)), hwhole.sector_add hof]
    · have hof : ¬ blockOf x blk = true := fun heq => hchunk (beq_iff_eq.mp heq).symm
      rcases h.good x hx with hwritten | hunreached | hup
      · exact .inl (Finset.mem_erase.mpr ⟨hchunk, hwritten⟩)
      · have hcur := hunreached bmds hbmds
        have hd := h.device bmds hbmds
        rw [hd.bulk (.inr (.inr hphase)), hd.totalSectors, ← h.totalSectors] at hcur
        omega
      · refine .inr (.inr (hup.of_newest rfl rfl ?_))
        show shown target ((s.sections.flatten ++
          (s.f ++ [blockRecord s.deviceName blk])).filterMap Record.blk ++ s.blkList) x = _
        rw [hblocks, shown_concat, if_neg hof]

/-- The end of stage 3. -/
theorem Inv.finish (h : Inv target length s) (hphase : s.phase = .stage3)
    (hshown : ∀ x < target.totalSectors, shown target (blocks s) x = s.disk x) :
    Inv target length { Block.putEos { blkMigCleanup s with f := s.f ++ [progressRecord 100] } with phase := .done } := by
  obtain ⟨hlanded, hreads, hqueue⟩ := h.stopped (.inl hphase)
  have hblocks : (sentBlocks (Block.putEos { blkMigCleanup s with f := s.f ++ [progressRecord 100] })) ++ [] = blocks s := by
    rw [sentBlocks_putEos, sentBlocks, blkMigCleanup, blocks, sentBlocks, hqueue, List.append_nil, List.append_nil,
      ← List.append_assoc, List.filterMap_append]
    exact List.append_nil _
  refine ⟨h.deviceName, h.totalSectors, h.bsLength, h.base, h.submitted, ?_, nofun, nofun, h.reads, nofun,
    fun _ hne => absurd rfl hne, nofun, fun _ => ⟨hlanded, hreads, rfl⟩, ?_, fun _ => ⟨rfl, ?_⟩, fun _ => .inr (.inl rfl)⟩
  · intro sec hsec
    rcases List.mem_append.mp hsec with hsec | hsec
    · exact h.sections sec hsec
    · refine ⟨s.f ++ [progressRecord 100], List.mem_singleton.mp hsec, ?_⟩
      intro record hmem
      rcases List.mem_append.mp hmem with hmem | hmem
      · exact h.f record hmem
      · exact .inr ⟨100, List.mem_singleton.mp hmem⟩
  · intro x hx
    exact .inr (.inl nofun)
  · intro x hx
    refine Eq.trans ?_ (hshown x hx)
    show shown target (sentBlocks (Block.putEos { blkMigCleanup s with f := s.f ++ [progressRecord 100] }) ++ []) x = _
    rw [hblocks]

theorem Inv.stage3Round (h : Inv target length s) (hphase : s.phase = .stage3) {more : Nat → Nat} {junk : Nat → α}
    (hkeeps : (MigrationEvent.round more junk).Keeps s) :
    ∃ s', Block.stage3Round s junk = some s' ∧ Inv target length s' ∧ (s'.phase = .done ∨
      0 ≤ getDirtyCount s'.bs ∧ getDirtyCount s'.bs < getDirtyCount s.bs) := by
  unfold Block.stage3Round blkMigSaveDirtyBlock
  rcases Option.eq_none_or_eq_some s.bmds with hbmds | ⟨bmds, hbmds⟩
  · have hzero : target.totalSectors = 0 := by
      have hempty := h.empty hbmds
      rw [hphase] at hempty
      simpa using hempty
    simp only [hbmds]
    exact ⟨_, rfl, h.finish hphase fun x hx => absurd hx (by omega), .inl rfl⟩
  · have hd := h.device bmds hbmds
    have htotal : bmds.totalSectors = target.totalSectors := hd.totalSectors.trans h.totalSectors.symm
    obtain ⟨sector, dirty, hscan, hd', haligned, ⟨set, hset, hmem⟩, hdirty, hclean⟩ := hd.scan
    simp only [hbmds, migSaveDeviceDirty, hscan, Option.bind_eq_bind, Option.bind_some]
    cases dirty with
    | true =>
      obtain ⟨hwhole, hother⟩ := h.nextDirty hbmds hkeeps (by rw [hphase]; nofun) hscan
      have hbuf : ∀ k < BDRV_SECTORS_PER_DIRTY_CHUNK,
          (if k < BDRV_SECTORS_PER_DIRTY_CHUNK then s.disk (sector + k) else junk k) = s.disk (sector + k) :=
        fun k hk => if_pos hk
      have hblk : WholeBlock target.totalSectors { sector := sector, buf := fun k =>
          if k < BDRV_SECTORS_PER_DIRTY_CHUNK then s.disk (sector + k) else junk k } := ⟨haligned, hwhole⟩
      obtain ⟨bs', hreset, hholds, hinv⟩ := h.sendBlock hphase hbmds hblk hother hd' hset hbuf
      rw [blockSectors_whole (htotal ▸ hwhole)]
      have hmore : (!decide (bmds.totalSectors ≤ sector)) = true := by
        simpa using hdirty rfl
      simp only [Bool.false_eq_true, if_true, if_false, hreset, Option.bind_some, hmore]
      refine ⟨_, rfl, hinv, .inr ?_⟩
      have hcell := hmem rfl
      have hcard : 0 < set.card := Finset.card_pos.mpr ⟨_, hcell⟩
      show 0 ≤ bs'.dirtyCount ∧ bs'.dirtyCount < s.bs.dirtyCount
      rw [hholds.count, hset.holds.count, Finset.card_erase_of_mem hcell]
      omega
    | false =>
      have hmore : (!decide (bmds.totalSectors ≤ sector)) = false := by
        simpa using hclean rfl
      have hinv := h.setDevice hbmds hd' fun x _ hx => .inl hx
      simp only [Bool.false_eq_true, if_false, Option.bind_some, hmore]
      refine ⟨_, rfl, hinv.finish hphase ?_, .inl rfl⟩
      intro x hx
      rcases h.good x hx with hwritten | hunreached | hup
      · obtain ⟨hlt, hcell⟩ := hset.written _ hwritten
        rw [← h.totalSectors, ← htotal] at hlt
        exact absurd hcell (hset.scanned hphase _ (hlt.trans_le (hclean rfl)))
      · have hcur := hunreached bmds hbmds
        rw [hd.bulk (.inr (.inr hphase)), htotal] at hcur
        omega
      · rcases hup with ⟨read, hread, -⟩ | ⟨-, hshown⟩
        · rw [(h.stopped (.inl hphase)).2.1] at hread
          cases hread
        · exact hshown

theorem setDirtyTracking_none {bs : BlockDriverState} (h : bs.dirtyBitmap = none) :
    setDirtyTracking bs true = tracked bs.length := by
  cases bs
  cases h
  rfl

theorem Inv.stage1 (h : Inv target length s) (hphase : s.phase = .before)
    (hwords : numChunks length ≤ 64 * (bitmapSize length / 8)) (rateLimit : Nat → Bool) :
    Inv target length (saveStage1 s rateLimit) := by
  obtain ⟨hnone, hreads, hblocks, hwritten⟩ := h.before hphase
  have hbitmap : s.bs.dirtyBitmap = none := h.noDevice hnone (by rw [hphase]; decide)
  have hqueue : s.blkList = [] := (List.append_eq_nil_iff.mp hblocks).2
  have hsectors : getlength s.bs >>> BDRV_SECTOR_BITS = length >>> BDRV_SECTOR_BITS := by
    rw [getlength, h.bsLength]
  have hsubmitted : 0 = s.reads.length := by
    rw [hreads]
    rfl
  have hflush : ∀ s' : Migration α, s'.blkList = [] → flushBlks s' rateLimit = s' := by
    intro s' hempty
    rw [flushBlks, hempty, flushFrom]
    cases s'
    cases hempty
    rfl
  unfold saveStage1
  by_cases hzero : getlength s.bs >>> BDRV_SECTOR_BITS = 0
  · have hinit : (initBlkMigration s).bmds = none := if_pos hzero
    have hnot : ¬ (initBlkMigration s).bmds.isSome = true := by
      rw [hinit]
      decide
    dsimp only
    rw [if_neg hnot, hflush (initBlkMigration s) hqueue]
    have hinv : Inv target length { initBlkMigration s with phase := .idle } := by
      refine ⟨h.deviceName, h.totalSectors, h.bsLength, h.base, hsubmitted, h.sections, h.f, h.blkList, h.reads, ?_,
        fun _ _ => hbitmap, (by rintro ⟨⟩), (by rintro (⟨⟨⟩⟩ | ⟨⟨⟩⟩)), ?_, (by rintro ⟨⟩), fun _ => .inr (.inr ?_)⟩
      · intro bmds hbmds
        exact absurd (hbmds.symm.trans hinit) (by intro h; cases h)
      · intro x hx
        rw [h.totalSectors, ← hsectors, hzero] at hx
        exact absurd hx (Nat.not_lt_zero x)
      · rw [h.totalSectors, ← hsectors, hzero]
    exact (hinv.resetDirtyCursor (by rintro ⟨⟩)).putEos (by rintro ⟨⟩)
  · have hinit : (initBlkMigration s).bmds = some {
        bulkCompleted := false
        sharedBase := s.sharedBase
        curSector := 0
        curDirty := 0
        completedSectors := 0
        totalSectors := getlength s.bs >>> BDRV_SECTOR_BITS } := if_neg hzero
    have hsome : (initBlkMigration s).bmds.isSome = true := by
      rw [hinit]
      rfl
    have htracked : setDirtyTracking (initBlkMigration s).bs true = tracked length := by
      rw [← h.bsLength]
      exact setDirtyTracking_none hbitmap
    dsimp only
    rw [if_pos hsome, htracked, hflush { initBlkMigration s with bs := tracked length } hqueue]
    have hinv : Inv target length { initBlkMigration s with bs := tracked length, phase := .idle } := by
      refine ⟨h.deviceName, h.totalSectors, rfl, h.base, hsubmitted, h.sections, h.f, h.blkList, h.reads, ?_,
        ?_, (by rintro ⟨⟩), (by rintro (⟨⟨⟩⟩ | ⟨⟨⟩⟩)), ?_, (by rintro ⟨⟩), ?_⟩
      · intro bmds hbmds
        cases Option.some.inj (hbmds.symm.trans hinit)
        exact {
          totalSectors := hsectors
          pos := Nat.pos_of_ne_zero hzero
          sharedBase := rfl
          sum := hzero
          words := hwords
          aligned := .inl rfl
          le := Nat.zero_le _
          bulk := by simp [initBlkMigration]
          curDirty := rfl
          flagged := by
            refine ⟨∅, Holds.tracked length, ?_, (by rintro ⟨⟩)⟩
            intro c hc
            have hmem : c ∈ s.written := hc
            rw [hwritten] at hmem
            exact absurd hmem (Finset.notMem_empty c)
          sent := by
            intro blk hblk
            have hmem : blk ∈ blocks s := hblk
            rw [hblocks] at hmem
            cases hmem
          read := by
            intro read hread
            have hmem : read ∈ s.reads := hread
            rw [hreads] at hmem
            cases hmem }
      · intro hnone'
        exact absurd (hnone'.symm.trans hinit) (by intro h; cases h)
      · intro x hx
        refine .inr (.inl fun bmds hbmds => ?_)
        cases Option.some.inj (hbmds.symm.trans hinit)
        exact Nat.zero_le x
      · intro hnone'
        exact absurd (hnone'.symm.trans hinit) (by intro h; cases h)
    exact (hinv.resetDirtyCursor (by rintro ⟨⟩)).putEos (by rintro ⟨⟩)

theorem Inv.beginStage2 (h : Inv target length s) (hphase : s.phase = .idle) (rateLimit : Nat → Bool) :
    Inv target length (Block.beginStage2 s rateLimit) := by
  have hdone : s.phase ≠ .done := by
    rw [hphase]
    decide
  obtain ⟨f, blkList, hflush, -⟩ := flushBlks_same s rateLimit
  have hinv := h.flush hdone rateLimit
  unfold Block.beginStage2
  rw [hflush] at hinv ⊢
  refine (hinv.resetDirtyCursor hdone).toPhase hdone ?_ nofun nofun nofun
  intro hnone
  have hempty := h.empty (Option.map_eq_none_iff.mp hnone)
  rw [hphase] at hempty
  simpa using hempty

theorem isStage2Completed_some {s : Migration α}
    (hread : s.bulkCompleted = true → getDirtyCount s.bs = 0 ∨ s.totalTime ≠ 0) (fits : Bool) :
    ∃ b, isStage2Completed s fits = some b := by
  unfold isStage2Completed
  split
  · rename_i hbulk
    split
    · exact ⟨true, rfl⟩
    · rename_i hcount
      rw [if_neg ((hread hbulk).resolve_left hcount)]
      exact ⟨fits, rfl⟩
  · exact ⟨false, rfl⟩

theorem Inv.endStage2 (h : Inv target length s) (hphase : s.phase = .stage2 ∨ s.phase = .noMoreDirty)
    (hread : s.bulkCompleted = true → getDirtyCount s.bs = 0 ∨ s.totalTime ≠ 0) (rateLimit : Nat → Bool) (fits : Bool) :
    ∃ s', Block.endStage2 s rateLimit fits = some s' ∧ Inv target length s' := by
  have hdone : s.phase ≠ .done := by
    rcases hphase with hphase | hphase <;> rw [hphase] <;> decide
  obtain ⟨f, blkList, hflush, -⟩ := flushBlks_same s rateLimit
  have hinv := h.flush hdone rateLimit
  unfold Block.endStage2
  rw [hflush] at hinv ⊢
  obtain ⟨b, hb⟩ := isStage2Completed_some (s := Block.putEos { s with f, blkList }) hread fits
  refine ⟨{ Block.putEos { s with f, blkList } with phase := .idle }, by dsimp only; rw [hb]; rfl,
    (hinv.putEos hdone).toPhase hdone ?_ nofun nofun nofun⟩
  intro hnone
  have hempty := h.empty hnone
  rcases hphase with hphase | hphase <;> rw [hphase] at hempty <;> simpa using hempty

theorem Inv.beginStage3 (h : Inv target length s) {rateLimit : Nat → Bool}
    (hvalid : (MigrationEvent.beginStage3 rateLimit : MigrationEvent α).Valid s)
    (hkeeps : (MigrationEvent.beginStage3 rateLimit : MigrationEvent α).Keeps s) :
    ∃ s', Block.beginStage3 s rateLimit = some s' ∧ Inv target length s' := by
  obtain ⟨hphase, hsubmitted, hlanded⟩ := hvalid
  obtain ⟨hend, hlimit⟩ := hkeeps
  have hdone : s.phase ≠ .done := by
    rw [hphase]
    decide
  obtain ⟨f, blkList, hflush, hqueue⟩ := flushBlks_same s rateLimit
  have hinv := h.flush hdone rateLimit
  unfold Block.beginStage3
  rw [hflush] at hinv ⊢
  have h' := hinv.resetDirtyCursor hdone
  refine ⟨_, if_pos hsubmitted, ?_⟩
  have hreads : s.reads = [] := List.length_eq_zero_iff.mp (h.submitted.symm.trans hsubmitted)
  refine ⟨h'.deviceName, h'.totalSectors, h'.bsLength, h'.base, h'.submitted, h'.sections, h'.f, h'.blkList, h'.reads,
    ?_, fun hnone _ => h'.noDevice hnone hdone, nofun, fun _ => ⟨hlanded, hreads, hqueue hlimit⟩, h'.good, nofun, ?_⟩
  · intro bmds hbmds
    have hd := h'.device bmds hbmds
    obtain ⟨set, hset⟩ := hd.flagged
    obtain ⟨bmds', hbmds', rfl⟩ := Option.map_eq_some_iff.mp hbmds
    exact { hd with
      bulk := fun _ => hend bmds' hbmds'
      flagged := ⟨set, hset.holds, hset.written, fun _ c hc => absurd hc (Nat.not_lt_zero _)⟩ }
  · intro hnone
    have hempty := h'.empty hnone
    rw [show (Block.resetDirtyCursor { s with f, blkList }).phase = .idle from hphase] at hempty
    simpa using hempty

/-- The step ends, and one of stage 3 brings the stage to its end or leaves less to do. -/
def MigrationEvent.Proceeds (s : Migration α) (e : MigrationEvent α) : Prop :=
  ∃ s', e.run s = some s' ∧ (s.phase = .stage3 → ∀ more junk, e = .round more junk →
    s'.phase = .done ∨ 0 ≤ getDirtyCount s'.bs ∧ getDirtyCount s'.bs < getDirtyCount s.bs)

theorem Inv.run (h : Inv target length s) {e : MigrationEvent α} (hvalid : e.Valid s) (hkeeps : e.Keeps s) :
    e.Proceeds s ∧ ∀ s', e.run s = some s' → Inv target length s' := by
  have hplain : (∃ s', e.run s = some s' ∧ Inv target length s') → ¬ (s.phase = .stage3 ∧ ∃ more junk, e = .round more junk) →
      e.Proceeds s ∧ ∀ s', e.run s = some s' → Inv target length s' := by
    rintro ⟨s', hrun, hinv⟩ hnot
    refine ⟨⟨s', hrun, fun hphase more junk he => absurd ⟨hphase, more, junk, he⟩ hnot⟩, ?_⟩
    intro s'' hrun'
    cases Option.some.inj (hrun.symm.trans hrun')
    exact hinv
  cases e with
  | write sectorNum nbSectors data => exact hplain (h.write hvalid.1 hvalid.2 _ _ _) (by simp)
  | land i part => exact hplain (h.land hvalid hkeeps) (by simp)
  | fetch i part => exact hplain (h.fetch hvalid) (by simp)
  | complete i time => exact hplain (h.complete hvalid hkeeps) (by simp)
  | stage1 rateLimit =>
    have hwords : numChunks length ≤ 64 * (bitmapSize length / 8) := by
      rw [← h.bsLength]
      exact hkeeps
    exact hplain ⟨_, rfl, h.stage1 hvalid hwords rateLimit⟩ (by simp)
  | beginStage2 rateLimit => exact hplain ⟨_, rfl, h.beginStage2 hvalid rateLimit⟩ (by simp)
  | round more junk =>
    rcases hvalid.1 with hphase | hphase
    · have hrun : MigrationEvent.run s (.round more junk) = stage2Round s more junk :=
        if_neg (by rw [hphase]; decide)
      apply hplain _ (by rw [hphase]; nofun)
      rw [hrun]
      cases hbulk : s.bulkCompleted with
      | true => exact h.dirtyRound hphase hbulk hkeeps
      | false => exact h.bulkRound hphase hbulk hvalid hkeeps
    · have hrun : MigrationEvent.run s (.round more junk) = Block.stage3Round s junk := if_pos hphase
      obtain ⟨s', hs', hinv, hless⟩ := h.stage3Round hphase hkeeps
      refine ⟨⟨s', hrun.trans hs', fun _ _ _ _ => hless⟩, ?_⟩
      intro s'' hrun'
      cases Option.some.inj ((hrun.trans hs').symm.trans hrun')
      exact hinv
  | endStage2 rateLimit fits => exact hplain (h.endStage2 hvalid hkeeps rateLimit fits) (by simp)
  | beginStage3 rateLimit => exact hplain (h.beginStage3 hvalid hkeeps) (by simp)

theorem migration_loads {s₀ : Migration α} (hstart : Start target s₀)
    (h : Reachable (fun s e s' => MigrationEvent.Valid s e ∧ e.run s = some s') (fun s e => MigrationEvent.Keeps s e)
      s₀ s) :
    Loads target s ∧ ∀ e : MigrationEvent α, e.Valid s → e.Keeps s → e.Proceeds s := by
  have hinv : Inv target s₀.bs.length s := by
    apply h.invariant (Inv target s₀.bs.length) hstart.inv
    rintro s e s' hs hkeeps ⟨hvalid, hrun⟩
    exact (hs.run hvalid hkeeps).2 s' hrun
  exact ⟨hinv.loads, fun e hvalid hkeeps => (hinv.run hvalid hkeeps).1⟩

/-- The state after an event that runs. -/
def MigrationEvent.after (s : Migration α) (e : MigrationEvent α) : Migration α := (e.run s).getD s

theorem MigrationEvent.run_after {e : MigrationEvent α} (h : (e.run s).isSome = true) : e.run s = some (e.after s) := by
  obtain ⟨s', hs'⟩ := Option.isSome_iff_exists.mp h
  rw [after, hs', Option.getD_some]

theorem round_valid_zero (h : s.phase = .stage2 ∨ s.phase = .stage3) (junk : Nat → α) :
    (MigrationEvent.round (fun _ => 0) junk).Valid s := by
  refine ⟨h, ?_⟩
  intro x hx k hk _
  rw [Nat.le_zero.mp hk]
  exact hx

instance (c c' : Nat) : Decidable (SameBit c c') := by
  unfold SameBit
  infer_instance

def never : Nat → Bool := fun _ => false

/-- A device of 64 MiB with a shared base, of which nothing is allocated. -/
def sharedDisk : Migration Nat where
  deviceName := "ide0-hd0"
  bs := { length := 67108864 }
  disk := fun _ => 0
  isAllocated := fun _ => false
  writes := []
  reads := []
  sharedBase := true
  bmds := none
  blkList := []
  submitted := 0
  totalSectorSum := 0
  prevProgress := 0
  bulkCompleted := false
  totalTime := 0
  f := []
  sections := []
  phase := .before
  written := ∅

def sharedTarget : Device Nat where
  deviceName := "ide0-hd0"
  totalSectors := 131072
  contents := fun _ => 0

def skipRound : MigrationEvent Nat := .round (fun _ => 65535) fun _ => 0

def plainRound : MigrationEvent Nat := .round (fun _ => 0) fun _ => 0

def begun : Migration Nat :=
  MigrationEvent.after (MigrationEvent.after sharedDisk (.stage1 never)) (.beginStage2 never)

/-- The bulk phase is over, with nothing to send. -/
def bulkOver : Migration Nat :=
  MigrationEvent.after (plainRound.after (skipRound.after begun)) (.endStage2 never true)

def oneSector : MigrationEvent Nat := .write 0 1 fun _ => 1

theorem sharedDisk_start : Start sharedTarget sharedDisk where
  deviceName := rfl
  totalSectors := by decide
  base := fun _ _ _ => rfl
  phase := rfl
  dirtyBitmap := rfl
  writes := rfl
  reads := rfl
  bmds := rfl
  blkList := rfl
  submitted := rfl
  f := rfl
  sections := rfl
  written := rfl

theorem skipRound_valid : skipRound.Valid begun := by
  refine ⟨.inl (by decide), ?_⟩
  intro x _ k _ _
  rfl

theorem round_keeps_none {more : Nat → Nat} (hbmds : s.bmds.isSome = true) (hnext : nextSector s more = none)
    (junk : Nat → α) : (MigrationEvent.round more junk).Keeps s := by
  refine ⟨fun _ _ => Option.ne_none_iff_isSome.mpr hbmds, ?_⟩
  intro sector hsector
  rw [hnext] at hsector
  cases hsector

theorem reachable_after {ok : Migration α → MigrationEvent α → Prop} {s₀ : Migration α}
    (h : Reachable (fun s e s' => MigrationEvent.Valid s e ∧ e.run s = some s') ok s₀ s) (e : MigrationEvent α)
    (hok : ok s e) (hvalid : e.Valid s) (hrun : (e.run s).isSome = true) :
    Reachable (fun s e s' => MigrationEvent.Valid s e ∧ e.run s = some s') ok s₀ (e.after s) :=
  h.step hok ⟨hvalid, MigrationEvent.run_after hrun⟩

/-- The runs whose steps meet none of the defects. -/
def Migrated (s₀ s : Migration α) : Prop :=
  Reachable (fun s e s' => MigrationEvent.Valid s e ∧ e.run s = some s') (fun s e => MigrationEvent.Keeps s e) s₀ s

theorem Migrated.after {s₀ : Migration α} (h : Migrated s₀ s) (e : MigrationEvent α) (hkeeps : e.Keeps s)
    (hvalid : e.Valid s) (hrun : (e.run s).isSome = true) : Migrated s₀ (e.after s) :=
  reachable_after h e hkeeps hvalid hrun

theorem bulkOver_reachable : Migrated sharedDisk bulkOver := by
  have hstage1 : (MigrationEvent.stage1 never).Keeps sharedDisk := by
    show numChunks 67108864 ≤ 64 * (bitmapSize 67108864 / 8)
    decide
  have hbegun : Migrated sharedDisk begun :=
    ((Migrated.after Reachable.init (.stage1 never) hstage1 rfl rfl).after (.beginStage2 never) trivial rfl rfl)
  have hskip := hbegun.after skipRound (round_keeps_none (by decide) (by decide) _) skipRound_valid
    (by decide)
  have hplain := hskip.after plainRound (round_keeps_none (by decide) (by decide) _)
    (round_valid_zero (.inl (by decide)) _) (by decide)
  apply hplain.after (.endStage2 never true)
  · intro _
    apply Or.inl
    decide
  · apply Or.inl
    decide
  · decide

/-- The write has landed before the device is looked at again. -/
def landed : Migration Nat := MigrationEvent.after (oneSector.after bulkOver) (.land 0 fun _ => true)

def stage3Begun : Migration Nat := MigrationEvent.after landed (.beginStage3 never)

theorem stage3Begun_reachable : Migrated sharedDisk stage3Begun := by
  have hwrite := Migrated.after bulkOver_reachable oneSector trivial ⟨by decide, by decide⟩ (by decide)
  have hnoticed : ∀ write : GuestWrite Nat, write ∈ (oneSector.after bulkOver).writes[0]? → ∀ k < write.nbSectors,
      chunkOf (write.sector + k) ∈ (oneSector.after bulkOver).written := by decide
  have hlength : 0 < (oneSector.after bulkOver).writes.length := by decide
  have hlanded := hwrite.after (.land 0 fun _ => true) (fun write hmem k hk _ _ => .inl (hnoticed write hmem k hk))
    hlength (by decide)
  have hend : ∀ bmds ∈ landed.bmds, bmds.curSector = bmds.totalSectors := by decide
  have hall : ∀ write ∈ landed.writes, ∀ k < write.nbSectors, write.left k = false := by decide
  exact hlanded.after (.beginStage3 never) ⟨hend, fun _ _ => rfl⟩ ⟨by decide, by decide, hall⟩
    (by decide)

theorem migration_loads_landed : Loads sharedTarget (plainRound.after (plainRound.after stage3Begun)) := by
  have hfirst : ∀ sector ∈ nextSector stage3Begun fun _ => 0,
      sector + BDRV_SECTORS_PER_DIRTY_CHUNK ≤ totalSectors stage3Begun ∧
        ∀ c ∈ stage3Begun.written, c ≠ chunkOf sector → ¬ SameBit c (chunkOf sector) := by decide
  have hphase : stage3Begun.phase ≠ .stage2 := by decide
  have hround := Migrated.after stage3Begun_reachable plainRound ⟨fun h => absurd h hphase, hfirst⟩
    (round_valid_zero (.inr (by decide)) _) (by decide)
  have hlast := hround.after plainRound (round_keeps_none (by decide) (by decide) _)
    (round_valid_zero (.inr (by decide)) _) (by decide)
  exact (migration_loads sharedDisk_start hlast).1

/-- The chunk is read while the write is in flight. -/
def readEarly : Migration Nat :=
  MigrationEvent.after (plainRound.after (MigrationEvent.after (oneSector.after bulkOver) (.beginStage2 never)))
    (.fetch 0 fun _ => true)

/-- The write lands when its chunk has been read. -/
def landedLate : Migration Nat := MigrationEvent.after (MigrationEvent.after readEarly (.land 0 fun _ => true)) (.complete 0 1)

def lateEnd : Migration Nat :=
  plainRound.after (MigrationEvent.after (MigrationEvent.after landedLate (.endStage2 never true)) (.beginStage3 never))

theorem lateEnd_reachable :
    Reachable (fun s e s' => MigrationEvent.Valid s e ∧ e.run s = some s') (fun _ _ => True) sharedDisk lateEnd := by
  have hwrite := reachable_after (.mono bulkOver_reachable fun _ _ _ => trivial) oneSector trivial
    ⟨by decide, by decide⟩ (by decide)
  have hidle : (oneSector.after bulkOver).phase = .idle := by decide
  have hround := reachable_after (reachable_after hwrite (.beginStage2 never) trivial hidle rfl) plainRound trivial
    (round_valid_zero (.inl (by decide)) _) (by decide)
  have hreads : 0 < (plainRound.after (MigrationEvent.after (oneSector.after bulkOver) (.beginStage2 never))).reads.length := by
    decide
  have hfetch := reachable_after hround (.fetch 0 fun _ => true) trivial hreads (by decide)
  have hwrites : 0 < readEarly.writes.length := by decide
  have hland := reachable_after hfetch (.land 0 fun _ => true) trivial hwrites (by decide)
  have hread : ∀ read : BlkMigRead Nat, read ∈ (MigrationEvent.after readEarly (.land 0 fun _ => true)).reads[0]? →
      ∀ k < read.nrSectors, read.left k = false := by decide +kernel
  obtain ⟨read, hget⟩ : ∃ read, (MigrationEvent.after readEarly (.land 0 fun _ => true)).reads[0]? = some read :=
    Option.isSome_iff_exists.mp (by decide)
  have hcomplete := reachable_after hland (.complete 0 1) trivial ⟨read, hget, hread read hget⟩ (by decide)
  have hstage2 : landedLate.phase = .stage2 := by decide
  have hend := reachable_after hcomplete (.endStage2 never true) trivial (.inl hstage2) (by decide)
  have hall : ∀ write ∈ (MigrationEvent.after landedLate (.endStage2 never true)).writes,
      ∀ k < write.nbSectors, write.left k = false := by decide
  have hbegin := reachable_after hend (.beginStage3 never) trivial ⟨by decide, by decide, hall⟩
    (by decide)
  exact reachable_after hbegin plainRound trivial (round_valid_zero (.inr (by decide)) _) (by decide)

theorem migration_loses_write :
    ¬ ∀ (target : Device Nat) (s₀ s : Migration Nat), Start target s₀ →
      Reachable (fun s e s' => MigrationEvent.Valid s e ∧ e.run s = some s') (fun _ _ => True) s₀ s → Loads target s := by
  intro h
  obtain ⟨dev, hload, -, hsame⟩ := h sharedTarget sharedDisk lateEnd sharedDisk_start lateEnd_reachable (by decide)
  have hcontents : (lateEnd.sections.foldlM blockLoad sharedTarget).toOption.map (fun dev => dev.contents 0) = some 0 := by
    decide
  have hdisk : lateEnd.disk 0 = 1 := by decide
  rw [hload] at hcontents
  have hzero : dev.contents 0 = 0 := Option.some.inj hcontents
  rw [hsame 0 (by decide), hdisk] at hzero
  cases hzero

end Colama.Qemu.Block

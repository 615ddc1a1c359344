import Mathlib
import Colama.Qemu.Qcow2.CreateSpec

namespace Colama.Qemu.Qcow2

open Lib

theorem foldl_countEntry (entries : List Int) (refcountBlock : Int → UInt16) (i : Int) :
    entries.foldl countEntry refcountBlock i = refcountBlock i + (entries.count i : Nat).toUInt16 := by
  induction entries generalizing refcountBlock with
  | nil => simp
  | cons e entries ih =>
    rw [List.foldl_cons, ih, countEntry, List.count_cons]
    by_cases he : e = i
    · rw [he, Function.update_self, if_pos (beq_self_eq_true i)]
      apply UInt16.toNat_inj.mp
      simp
      omega
    · rw [Function.update_of_ne (Ne.symm he), if_neg (by simpa using he), Nat.add_zero]

/-- The refcount of a cluster whose block is in the file. -/
theorem getRefcount_of_block {s : OpenImage} {i index offset : Nat} (hindex : i / 2 ^ (s.clusterBits - 1) = index)
    (hint : index < 2 ^ 32) (hlt : index < s.refcountTableSize) (hentry : beEntry 8 s.refcountTable index = offset)
    (hpos : offset ≠ 0) (hoffset : offset < 2 ^ 63) (hsize : s.clusterSize < 2 ^ 31) :
    s.getRefcount i = some (beEntry 2 (s.file.read offset s.clusterSize) (i % 2 ^ (s.clusterBits - 1))) := by
  have hread : bdrvPread s.file (int64 offset) s.clusterSize = some (s.file.read offset s.clusterSize) := by
    rw [int64_of_lt (by omega) (by omega), bdrvPread_eq hsize]
  have hsome : ¬ (index ≥ s.refcountTableSize ∨ offset = 0) := by omega
  rw [OpenImage.getRefcount, hindex, uint32_of_lt hint, hentry, if_neg hsome, hread, Option.map_some]

namespace CreateRequest

variable {r : CreateRequest}

theorem length_afterHeader_le (r : CreateRequest) : 72 + r.afterHeader.length ≤ r.headerSize := by
  rw [headerSize, roundedExtBfLen, backingFilenameLen, afterHeader]
  cases hfile : r.backingFile with
  | none => simp
  | some backingFile =>
    cases hformat : r.backingFormat with
    | none => simp only [Option.getD_some]; omega
    | some backingFormat =>
      simp only [Option.getD_some, roundedExtBfLen, hfile, hformat]
      split
      · omega
      · simp only [List.length_append, length_beBytes, List.length_replicate]
        omega

theorem eight_dvd_clusterSize (r : CreateRequest) : 8 ∣ r.clusterSize := by
  have hmin := r.minClusterBits
  rw [clusterSize_eq]
  exact Nat.pow_dvd_pow 2 (m := 3) (by omega)

variable (h : r.L1Fits) {blocks : Nat} (hs : r.Settled blocks)

theorem length_front_le (r : CreateRequest) (ref : Int) : (r.front ref).length ≤ r.headClusters * r.clusterSize := by
  have hafter := r.length_afterHeader_le
  have hhead := r.headerSize_le
  rw [front, List.length_append, QCowHeader.length_encode]
  omega

theorem l1Pos_eq (ref : Int) : r.l1Pos ref = r.headClusters * r.clusterSize := by
  rw [l1Pos, l1TableOffset_eq, seek, if_pos (Int.natCast_nonneg _), Int.toNat_natCast]

include h

theorem tablePos_eq (ref : Int) : r.tablePos ref = r.fixedClusters * r.clusterSize := by
  have hle := fixedClusters_mul_le h
  rw [tablePos, refcountTableOffset_eq h, int64_of_lt (by omega) (by omega), seek, if_pos (Int.natCast_nonneg _),
    Int.toNat_natCast]

include hs

theorem blockPos_eq : r.blockPos blocks = (r.fixedClusters + r.tableClusters blocks) * r.clusterSize := by
  have hfixed := fixedClusters_mul_le h
  have htable := tableClusters_mul_le h hs
  rw [blockPos, refcountBlockOffset_eq h hs, int64_of_lt (by omega) (by rw [Nat.add_mul]; omega), seek,
    if_pos (Int.natCast_nonneg _), Int.toNat_natCast]

theorem length_table : (r.table blocks).length = r.tableClusters blocks * r.clusterSize := by
  rw [table, length_beArray, tableBytes_eq h hs, Int.toNat_natCast,
    Nat.mul_div_cancel' (r.eight_dvd_clusterSize.mul_left _)]

theorem length_blocks : (r.blocks blocks).length = blocks * r.clusterSize := by
  have htwo : 2 ∣ r.clusterSize := (by norm_num : 2 ∣ 8).trans r.eight_dvd_clusterSize
  rw [CreateRequest.blocks, length_beArray, blockBytes_eq h hs, Int.toNat_natCast, Nat.mul_div_cancel' (htwo.mul_left _)]

omit hs in
theorem length_l1Table_le : r.l1Table.length ≤ r.l1Clusters * r.clusterSize := by
  have hdiv := Nat.lt_div_mul_add r.clusterSize_pos (a := r.l1Size.toNat * 8 + (r.clusterSize - 1))
  rw [l1Table, List.length_replicate, l1Clusters]
  omega

theorem read_table :
    (r.writtenFile blocks).read (r.fixedClusters * r.clusterSize) (r.tableClusters blocks * r.clusterSize) =
      r.table blocks := by
  have hlen := length_table h hs
  rw [writtenFile, blockPos_eq h hs, tablePos_eq h, File.read_write_of_le (by rw [Nat.add_mul]), ← hlen, File.read_write]

theorem read_l1Table :
    (r.writtenFile blocks).read (r.headClusters * r.clusterSize) (r.l1Size.toNat * 8) =
      List.replicate (r.l1Size.toNat * 8) 0 := by
  have hl1 := length_l1Table_le h
  have hlen : r.l1Table.length = r.l1Size.toNat * 8 := List.length_replicate
  have hle : r.headClusters * r.clusterSize + r.l1Size.toNat * 8 ≤ r.fixedClusters * r.clusterSize := by
    rw [fixedClusters, Nat.add_mul]
    omega
  rw [writtenFile, blockPos_eq h hs, tablePos_eq h, l1Pos_eq,
    File.read_write_of_le (hle.trans (Nat.mul_le_mul_right _ (Nat.le_add_right _ _))), File.read_write_of_le hle,
    ← hlen, File.read_write, l1Table, List.length_replicate]

theorem length_writtenFile :
    (r.writtenFile blocks).length = (r.fixedClusters + r.tableClusters blocks + blocks) * r.clusterSize := by
  have hl1 := length_l1Table_le h
  have hfront := length_front_le r blocks
  have htable := length_table h hs
  have hblocks := length_blocks h hs
  have hpos : 0 < blocks * r.clusterSize := Nat.mul_pos hs.pos r.clusterSize_pos
  have hsome : r.blocks blocks ≠ [] := fun hnil => by
    rw [hnil, List.length_nil] at hblocks
    omega
  rw [writtenFile, blockPos_eq h hs, tablePos_eq h, l1Pos_eq, File.length_write _ hsome, hblocks, ← Nat.add_mul]
  simp only [fixedClusters, Nat.add_mul] at htable ⊢
  refine File.length_write_le (File.length_write_le (File.length_write_le (Nat.zero_le _) ?_) ?_) ?_ <;> omega

theorem nbClusters_eq (s : OpenImage) (hfile : s.file = r.writtenFile blocks) (hbits : s.clusterBits = r.clusterBits) :
    s.nbClusters = (r.fixedClusters + r.tableClusters blocks + blocks : Nat) := by
  have hc := r.clusterSize_pos
  have hfixed := fixedClusters_le h
  have hmax := maxBlocks_le h
  have hle := hs.le
  have htable := tableClusters_le (r := r) blocks
  have hsize : s.clusterSize = r.clusterSize := by rw [OpenImage.clusterSize, hbits, clusterSize_eq]
  rw [OpenImage.nbClusters, hfile, hsize, length_writtenFile h hs, Nat.add_comm (_ * _), Nat.add_mul_div_right _ _ hc,
    Nat.div_eq_of_lt (by omega), Nat.zero_add, int32_of_lt (Int.natCast_nonneg _) (by omega)]

/-- Each cluster is counted once. -/
theorem refcountBlock_eq {i : Nat} (hi : i < r.fixedClusters + r.tableClusters blocks + blocks) :
    r.refcountBlock blocks i = 1 := by
  have hcount : (r.updatedEntries blocks).count (i : Int) = 1 := by
    rw [updatedEntries_eq h hs, List.count_map_of_injective _ _ Nat.cast_injective]
    exact List.count_eq_one_of_mem List.nodup_range (List.mem_range.mpr hi)
  rw [refcountBlock, foldl_countEntry, hcount]
  rfl

omit hs in
/-- The opener finds the size of the L1 table that the creator has. -/
theorem sizeToL1_eq : sizeToL1 r.clusterBits (uint64 r.size) = r.l1Size := by
  have hshift := r.shift_le
  set x := r.totalSize * 512 + 2 ^ r.shift - 1 with hx
  have hl1 := r.l1Size_eq
  rw [← hx] at hl1
  have hpow : (2 : Int) ^ 64 = 2 ^ (64 - r.shift) * 2 ^ r.shift := by
    rw [← pow_add]
    congr 1
    omega
  have hpos : (0 : Int) < 2 ^ r.shift := by positivity
  have hsum : uint64 (uint64 r.size + 2 ^ r.shift - 1) = uint64 x := by
    have hsize : ((uint64 r.size : Nat) : Int) % 2 ^ 64 = r.totalSize * 512 % 2 ^ 64 := by
      rw [uint64, Int.toNat_of_nonneg (Int.emod_nonneg _ (by norm_num)), Int.emod_emod_of_dvd _ dvd_rfl, size, int64]
      exact Int.bmod_emod
    generalize uint64 r.size = n at hsize
    rw [uint64, uint64, hx, add_sub_assoc, Int.add_emod, hsize, ← Int.add_emod, ← add_sub_assoc]
  -- the lowest bits are dropped before or after the highest are
  have hdiv : ((uint64 x / 2 ^ r.shift : Nat) : Int) = x / 2 ^ r.shift % 2 ^ (64 - r.shift) := by
    have hmod := Int.emod_nonneg x (b := 2 ^ 64) (by norm_num)
    have hlt := Int.emod_lt_of_pos x (b := 2 ^ 64) (by norm_num)
    have hsplit : x / 2 ^ r.shift = x % 2 ^ 64 / 2 ^ r.shift + x / 2 ^ 64 * 2 ^ (64 - r.shift) := by
      rw [← Int.add_mul_ediv_right _ _ hpos.ne', mul_assoc, ← hpow, mul_comm _ ((2 : Int) ^ 64), Int.emod_add_mul_ediv]
    rw [hsplit, Int.add_mul_emod_self_right, Int.emod_eq_of_lt (Int.ediv_nonneg hmod hpos.le)
      (Int.ediv_lt_of_lt_mul hpos (by rwa [← hpow])), uint64]
    rw [Int.natCast_div, Int.toNat_of_nonneg hmod, Nat.cast_pow, Nat.cast_ofNat]
  rw [sizeToL1, ← shift, hsum, hdiv, hl1]
  generalize x / 2 ^ r.shift = c at hl1
  rcases Nat.le_total 32 (64 - r.shift) with hle | hge
  · have hdvd : ((2 ^ 32 : Nat) : Int) ∣ 2 ^ (64 - r.shift) := by
      push_cast
      exact pow_dvd_pow 2 hle
    rw [Nat.min_eq_left hle, int32, ← Int.emod_bmod, Int.emod_emod_of_dvd _ hdvd, Int.emod_bmod]
  · rw [Nat.min_eq_right hge] at hl1 ⊢
    have hlo := h.1
    have hhi := h.2
    rw [hl1, Int.bmod_eq_emod] at hlo hhi
    rw [Int.bmod_eq_emod]
    have hmod := Int.emod_nonneg c (b := (2 ^ (64 - r.shift) : Nat)) (by positivity)
    have hlt := Int.emod_lt_of_pos c (b := (2 ^ (64 - r.shift) : Nat)) (by positivity)
    split at hlo
    · omega
    · rename_i hsmall
      rw [if_neg hsmall] at hhi ⊢
      rw [Nat.cast_zero, sub_zero] at hhi ⊢
      rw [Nat.cast_pow, Nat.cast_ofNat] at hhi hmod ⊢
      exact int32_of_lt hmod (by omega)

/-- The image as it is open. -/
def opened (r : CreateRequest) (blocks : Nat) (backingFormat backingFile : List UInt8) : OpenImage where
  file := r.writtenFile blocks
  clusterBits := r.clusterBits
  l1Size := r.l1Size
  l1TableOffset := r.headClusters * r.clusterSize
  refcountTableOffset := r.fixedClusters * r.clusterSize
  refcountTableSize := r.tableClusters blocks * r.clusterSize / 8
  refcountTable := r.table blocks
  backingFormat := backingFormat
  backingFile := backingFile
  snapshotsOffset := 0
  snapshots := []
  snapshotsSize := 0

omit h hs in
theorem header_l1Size (ref : Int) : int32 (r.header ref).l1Size = r.l1Size :=
  int32_uint32 (int32_mem _).1 (int32_mem _).2

omit h hs in
theorem header_l1TableOffset (ref : Int) : (r.header ref).l1TableOffset = r.headClusters * r.clusterSize := by
  have hhead := r.headClusters_mul_le
  have hsize := r.headerSize_lt
  have hc := r.clusterSize_le
  have heq : (r.header ref).l1TableOffset = uint64 r.l1TableOffset := by dsimp only [header]
  rw [heq, l1TableOffset_eq, uint64_of_lt (by omega)]

theorem header_refcountTableSize :
    (r.header blocks).refcountTableSize = r.tableClusters blocks * r.clusterSize / 8 := by
  have hmin := r.minClusterBits
  have hle := tableClusters_mul_le h hs
  have hmax := maxBlocks_le h
  have hblocks := hs.le
  have htable := tableClusters_le (r := r) blocks
  have hpow : r.clusterSize = 2 ^ (r.clusterBits - 3) * 8 := by
    rw [clusterSize_eq, ← Nat.pow_add (n := 3)]
    congr 1
    omega
  have hclusters : (r.header blocks).refcountTableClusters = r.tableClusters blocks := by
    have heq : (r.header blocks).refcountTableClusters = uint32 (r.reftableClusters blocks) := by
      dsimp only [header]
    rw [heq, reftableClusters_natCast h hs.le, uint32_of_lt (by omega)]
  have hbits : (r.header blocks).clusterBits = r.clusterBits := rfl
  rw [QCowHeader.refcountTableSize, hclusters, hbits]
  rw [hpow] at hle ⊢
  have hcast : ((r.tableClusters blocks : Nat) : Int) * 2 ^ (r.clusterBits - 3) =
      (r.tableClusters blocks * 2 ^ (r.clusterBits - 3) : Nat) := by push_cast; rfl
  rw [hcast, uint32_of_lt, ← Nat.mul_assoc, Nat.mul_div_cancel _ (by norm_num)]
  rw [← Nat.mul_assoc] at hle
  omega

omit hs in
theorem header_accepted (ref : Int) : (r.header ref).Accepted := by
  have hmin := r.minClusterBits
  have hmax := r.maxClusterBits
  have hcrypt : (r.header ref).cryptMethod ≤ 1 := by
    dsimp only [header]
    split <;> omega
  exact ⟨rfl, rfl, hmin, hmax, hcrypt, by rw [header_l1Size]; exact (sizeToL1_eq h).le⟩

theorem readTables_eq : (r.header blocks).readTables (r.writtenFile blocks) = some (r.table blocks) := by
  have hfixed := fixedClusters_mul_le h
  have htable := tableClusters_mul_le h hs
  have hhead := r.headClusters_mul_le
  have hsize := r.headerSize_lt
  have hc := r.clusterSize_le
  have hlt := h.2
  have height : 8 ∣ r.tableClusters blocks * r.clusterSize := r.eight_dvd_clusterSize.mul_left _
  have hl1 : bdrvPread (r.writtenFile blocks) (int64 (r.headClusters * r.clusterSize : Nat)) (r.l1Size.toNat * 8) =
      some ((r.writtenFile blocks).read (r.headClusters * r.clusterSize) (r.l1Size.toNat * 8)) := by
    rw [int64_of_lt (by omega) (by omega), bdrvPread_eq (by omega)]
  have hoffset : (r.header blocks).refcountTableOffset = r.fixedClusters * r.clusterSize := refcountTableOffset_eq h
  have hbytes : int32 ((r.tableClusters blocks * r.clusterSize / 8 : Nat) * 8 : Int) =
      (r.tableClusters blocks * r.clusterSize : Nat) := by
    have hmul := Nat.div_mul_cancel height
    rw [int32_of_lt (by omega) (by omega)]
    omega
  rw [QCowHeader.readTables, header_l1TableOffset, header_l1Size, hl1, Option.bind_some, QCowHeader.refcountInit,
    header_refcountTableSize h hs, hbytes, if_neg (by omega), hoffset, int64_of_lt (by omega) (by omega),
    Int.toNat_natCast, bdrvPread_eq (by omega), read_table h hs]

omit hs in
theorem le_tableOffset : (r.clusterSize : Int) ≤ int64 r.refcountTableOffset := by
  have hfixed := fixedClusters_mul_le h
  have hle : r.clusterSize ≤ r.fixedClusters * r.clusterSize :=
    Nat.le_mul_of_pos_left _ (Nat.add_pos_left r.headClusters_pos _)
  rw [refcountTableOffset_eq h, int64_of_lt (by omega) (by omega)]
  omega

theorem tableBytes_nonneg : 0 ≤ r.tableBytes blocks := by
  rw [tableBytes_eq h hs]
  exact Int.natCast_nonneg _

/-- The image opens if the names can be read. -/
theorem qcowOpen_eq :
    qcowOpen (r.writtenFile blocks) = ((r.header blocks).readNames (r.writtenFile blocks)).map fun names =>
      r.opened blocks names.1 names.2 := by
  have hheader := decode_header (le_tableOffset h) (tableBytes_nonneg h hs)
  have hread : bdrvPread (r.writtenFile blocks) 0 72 = some ((r.writtenFile blocks).read 0 72) :=
    @bdrvPread_eq _ 0 _ (by norm_num)
  have hsnapshots : (r.header blocks).readSnapshots (r.writtenFile blocks) = some ([], 0) := if_pos rfl
  rw [qcowOpen, hread, Option.bind_some, hheader]
  dsimp only
  rw [if_pos (header_accepted h _), readTables_eq h hs, Option.bind_some, hsnapshots]
  cases (r.header blocks).readNames (r.writtenFile blocks) with
  | none => rfl
  | some names =>
    rw [Option.bind_some, Option.map_some, Option.map_some, opened, header_l1Size, header_l1TableOffset,
      header_refcountTableSize h hs, ← refcountTableOffset_eq h]
    rfl

/-- The refcounts that the checker has counted, up to a cluster: those of the first cluster and of all clusters
after the header. -/
def counted (r : CreateRequest) (k : Nat) : CheckState where
  refcounts i := if i = 0 ∨ r.headClusters ≤ i ∧ i < k then 1 else 0
  corruptions := 0
  leaks := 0
  checkErrors := 0

variable {backingFormat backingFile : List UInt8}

theorem opened_nbClusters :
    (r.opened blocks backingFormat backingFile).nbClusters =
      (r.fixedClusters + r.tableClusters blocks + blocks : Nat) := nbClusters_eq h hs _ rfl rfl

omit h hs in
@[simp] theorem opened_clusterSize : (r.opened blocks backingFormat backingFile).clusterSize = r.clusterSize :=
  r.clusterSize_eq.symm

/-- The next cluster is counted. -/
theorem incRefcount_counted {k : Nat} (hlo : r.headClusters ≤ k)
    (hk : k < r.fixedClusters + r.tableClusters blocks + blocks) :
    (r.opened blocks backingFormat backingFile).incRefcount (r.counted k) k = r.counted (k + 1) := by
  have hhead := r.headClusters_pos
  have hfixed := fixedClusters_le h
  have hmax := maxBlocks_le h
  have hle := hs.le
  have htable := tableClusters_le (r := r) blocks
  have hzero : (r.counted k).refcounts k = 0 := if_neg (by omega)
  rw [OpenImage.incRefcount, int32_of_lt (Int.natCast_nonneg _) (by omega), opened_nbClusters h hs, if_neg (by omega),
    if_neg (by omega), Int.toNat_natCast, hzero]
  have hrefcounts : Function.update (r.counted k).refcounts k (0 + 1) = (r.counted (k + 1)).refcounts := by
    funext i
    by_cases hi : i = k
    · rw [hi, Function.update_self]
      exact (if_pos (by omega)).symm
    · rw [Function.update_of_ne hi]
      exact if_congr (by omega) rfl rfl
  dsimp only
  rw [hrefcounts]
  rfl

/-- A range of clusters is counted. -/
theorem incRefcounts_counted {k size : Nat} (hlo : r.headClusters ≤ k)
    (hhi : k + (size + (r.clusterSize - 1)) / r.clusterSize ≤ r.fixedClusters + r.tableClusters blocks + blocks) :
    (r.opened blocks backingFormat backingFile).incRefcounts (r.counted k) (k * r.clusterSize : Nat) size =
      r.counted (k + (size + (r.clusterSize - 1)) / r.clusterSize) := by
  have hc := r.clusterSize_pos
  rw [OpenImage.incRefcounts]
  split
  · rename_i hsize
    have hzero : size = 0 := by omega
    rw [hzero, Nat.zero_add, Nat.div_eq_of_lt (by omega), Nat.add_zero]
  · rw [opened_clusterSize, clusterRange_natCast hc]
    generalize (size + (r.clusterSize - 1)) / r.clusterSize = n at hhi
    induction n with
    | zero => rfl
    | succ n ih =>
      have hcast : (k : Int) + (n : Nat) = (k + n : Nat) := by push_cast; rfl
      rw [List.range_succ, List.map_append, List.foldl_append, ih (by omega), List.map_singleton, List.foldl_cons,
        List.foldl_nil, hcast, incRefcount_counted h hs (by omega) (by omega), Nat.add_assoc]

/-- The first cluster is counted for the header. -/
theorem incRefcounts_header :
    (r.opened blocks backingFormat backingFile).incRefcounts ⟨fun _ => 0, 0, 0, 0⟩ 0 r.clusterSize =
      r.counted r.headClusters := by
  have hc := r.clusterSize_pos
  have hpos := hs.pos
  have hrange : clusterRange r.clusterSize 0 r.clusterSize = [0] := by
    have hrange := clusterRange_natCast hc 0 r.clusterSize
    have hone : (r.clusterSize + (r.clusterSize - 1)) / r.clusterSize = 1 :=
      Nat.div_eq_of_lt_le (by omega) (by omega)
    rw [hone] at hrange
    simpa using hrange
  have hzero : int32 0 = 0 := rfl
  rw [OpenImage.incRefcounts, if_neg (by omega), opened_clusterSize, hrange, List.foldl_cons, List.foldl_nil,
    OpenImage.incRefcount, hzero, opened_nbClusters h hs]
  rw [if_neg (by omega), if_neg (by omega)]
  have hrefcounts : Function.update (fun _ : Nat => (0 : UInt16)) 0 (0 + 1) = (r.counted r.headClusters).refcounts := by
    funext i
    dsimp only [counted]
    by_cases hi : i = 0
    · rw [hi, Function.update_self, if_pos (Or.inl rfl)]
      rfl
    · rw [Function.update_of_ne hi, if_neg (by omega)]
  dsimp only
  rw [Int.toNat_zero, hrefcounts]
  rfl

/-- The L1 table is counted, and has no entries to go on to. -/
theorem checkRefcountsL1_counted :
    (r.opened blocks backingFormat backingFile).checkRefcountsL1 true (r.counted r.headClusters)
      (r.headClusters * r.clusterSize) r.l1Size = some (r.counted r.fixedClusters) := by
  obtain ⟨hlo, hhi⟩ := h
  have hhead := r.headClusters_mul_le
  have hsize := r.headerSize_lt
  have hc := r.clusterSize_le
  have hl1 : r.l1Size * 8 = (r.l1Size.toNat * 8 : Nat) := by omega
  have hinc : (r.opened blocks backingFormat backingFile).incRefcounts (r.counted r.headClusters)
      (r.headClusters * r.clusterSize : Nat) (r.l1Size.toNat * 8 : Nat) = r.counted r.fixedClusters := by
    have hcount := @incRefcounts_counted _ ⟨hlo, hhi⟩ _ hs backingFormat backingFile _
      (r.l1Size.toNat * 8) le_rfl (by rw [← l1Clusters, ← fixedClusters]; omega)
    rwa [← l1Clusters, ← fixedClusters] at hcount
  have hfile : (r.opened blocks backingFormat backingFile).file = r.writtenFile blocks := rfl
  have hoffset : int64 (r.headClusters * r.clusterSize : Nat) = (r.headClusters * r.clusterSize : Nat) :=
    int64_of_lt (by omega) (by omega)
  have hentries (st : CheckState) (l : List Nat) : l.foldlM (fun st i =>
      (r.opened blocks backingFormat backingFile).checkL1Entry true st
        (.ofNat 64 (beEntry 8 (List.replicate (r.l1Size.toNat * 8) 0) i))) st = some st := by
    induction l with
    | nil => rfl
    | cons i l ih =>
      rw [List.foldlM_cons, beEntry_zeros, OpenImage.checkL1Entry, if_pos rfl]
      exact ih
  rw [OpenImage.checkRefcountsL1, hfile, hoffset, hl1, hinc, bdrvPread_eq (by omega),
    read_l1Table ⟨hlo, hhi⟩ hs]
  simp only [guard, if_pos hlo, Option.bind_eq_bind, Option.pure_def, Option.bind_some, hentries]

theorem table_entry {i : Nat} (hi : i < r.tableClusters blocks * r.clusterSize / 8) :
    beEntry 8 (r.table blocks) i =
      if i < blocks then (r.fixedClusters + r.tableClusters blocks + i) * r.clusterSize else 0 := by
  have hblocks := blocks_mul_le h hs
  have hfixed := fixedClusters_mul_le h
  have htable := tableClusters_mul_le h hs
  have hmul : i < blocks → i * r.clusterSize ≤ blocks * r.clusterSize := fun hlt => Nat.mul_le_mul_right _ hlt.le
  have hentry : r.refcountTable blocks i =
      if i < blocks then (r.fixedClusters + r.tableClusters blocks + i) * r.clusterSize else 0 := by
    rw [refcountTable, refcountBlockOffset_eq h hs]
    by_cases hlt : i < blocks
    · have hle := hmul hlt
      rw [if_pos (by omega), if_pos hlt, ← Nat.cast_mul, ← Nat.cast_add, ← Nat.add_mul, uint64_of_lt]
      rw [Nat.add_mul, Nat.add_mul]
      omega
    · rw [if_neg (by omega), if_neg hlt]
  have hlt : r.refcountTable blocks i < 256 ^ 8 := by
    rw [hentry]
    split
    · rename_i hlt
      have hle := hmul hlt
      rw [Nat.add_mul, Nat.add_mul]
      omega
    · norm_num
  rw [table, tableBytes_eq h hs, Int.toNat_natCast, beEntry_beArray hi hlt, hentry]

omit h hs in
theorem blocks_le_tableEntries : blocks ≤ r.tableClusters blocks * r.clusterSize / 8 := by
  have hdiv := Nat.lt_div_mul_add r.clusterSize_pos (a := blocks * 8 + (r.clusterSize - 1))
  rw [Nat.le_div_iff_mul_le (by norm_num), tableClusters]
  omega

/-- A refcount block is counted, and counted once. -/
theorem checkBlock_counted {i : Nat} (hi : i < blocks) :
    (r.opened blocks backingFormat backingFile).checkBlock
      (r.counted (r.fixedClusters + r.tableClusters blocks + i)) i =
      r.counted (r.fixedClusters + r.tableClusters blocks + i + 1) := by
  have hc := r.clusterSize_pos
  have hhead := r.headClusters_pos
  have hle := @blocks_le_tableEntries r blocks
  have hfixedLe := fixedClusters_le h
  have hmax := maxBlocks_le h
  have hblocksLe := hs.le
  have htableLe := tableClusters_le (r := r) blocks
  have hblocks := blocks_mul_le h hs
  have hfixed := fixedClusters_mul_le h
  have htable := tableClusters_mul_le h hs
  have hmul : i * r.clusterSize ≤ blocks * r.clusterSize := Nat.mul_le_mul_right _ hi.le
  have hentry := table_entry h hs (hi.trans_le hle)
  rw [if_pos hi] at hentry
  have hrefcountTable : (r.opened blocks backingFormat backingFile).refcountTable = r.table blocks := rfl
  have hone : (r.clusterSize + (r.clusterSize - 1)) / r.clusterSize = 1 := Nat.div_eq_of_lt_le (by omega) (by omega)
  have hinc := @incRefcounts_counted _ h _ hs backingFormat backingFile
    (r.fixedClusters + r.tableClusters blocks + i) r.clusterSize
    (by rw [fixedClusters]; omega) (by rw [hone]; omega)
  rw [hone] at hinc
  have hoffset : int64 ((r.fixedClusters + r.tableClusters blocks + i) * r.clusterSize : Nat) =
      ((r.fixedClusters + r.tableClusters blocks + i) * r.clusterSize : Nat) := by
    rw [int64_of_lt] <;> rw [Nat.add_mul, Nat.add_mul] <;> omega
  rw [OpenImage.checkBlock, hrefcountTable, hentry, opened_clusterSize, Nat.mul_mod_left, Nat.mul_div_cancel _ hc,
    opened_nbClusters h hs, uint64_of_lt (by omega), hoffset, hinc]
  have hpos : (r.fixedClusters + r.tableClusters blocks + i) * r.clusterSize ≠ 0 :=
    (Nat.mul_pos (by rw [fixedClusters]; omega) hc).ne'
  have hcounted : (r.counted (r.fixedClusters + r.tableClusters blocks + i + 1)).refcounts
      (r.fixedClusters + r.tableClusters blocks + i) = 1 := if_pos (Or.inr ⟨by rw [fixedClusters]; omega, by omega⟩)
  rw [if_neg (by simp), if_neg (by omega), if_neg hpos]
  dsimp only
  rw [hcounted]
  rfl

/-- An entry of the table that has no block is passed over. -/
theorem checkBlock_none {i : Nat} (hi : i < r.tableClusters blocks * r.clusterSize / 8) (hle : blocks ≤ i) (st : CheckState) :
    (r.opened blocks backingFormat backingFile).checkBlock st i = st := by
  have hpos := hs.pos
  have hfixedLe := fixedClusters_le h
  have hmax := maxBlocks_le h
  have hblocksLe := hs.le
  have htableLe := tableClusters_le (r := r) blocks
  have hentry := table_entry h hs hi
  rw [if_neg (by omega)] at hentry
  have hrefcountTable : (r.opened blocks backingFormat backingFile).refcountTable = r.table blocks := rfl
  rw [OpenImage.checkBlock, hrefcountTable, hentry, opened_nbClusters h hs, uint64_of_lt (by omega), if_neg (by simp),
    Nat.zero_div, if_neg (by omega), if_pos rfl]

theorem checkBlocks_counted :
    (List.range (r.tableClusters blocks * r.clusterSize / 8)).foldl
      (r.opened blocks backingFormat backingFile).checkBlock (r.counted (r.fixedClusters + r.tableClusters blocks)) =
      r.counted (r.fixedClusters + r.tableClusters blocks + blocks) := by
  have hle := @blocks_le_tableEntries r blocks
  have hsome : ∀ n ≤ blocks, (List.range n).foldl (r.opened blocks backingFormat backingFile).checkBlock
      (r.counted (r.fixedClusters + r.tableClusters blocks)) =
      r.counted (r.fixedClusters + r.tableClusters blocks + n) := by
    intro n hn
    induction n with
    | zero => rfl
    | succ n ih =>
      rw [List.range_succ, List.foldl_append, ih (by omega), List.foldl_cons, List.foldl_nil,
        checkBlock_counted h hs hn, Nat.add_assoc]
  have hnone : ∀ n, blocks + n ≤ r.tableClusters blocks * r.clusterSize / 8 →
      (List.range (blocks + n)).foldl (r.opened blocks backingFormat backingFile).checkBlock
        (r.counted (r.fixedClusters + r.tableClusters blocks)) =
        r.counted (r.fixedClusters + r.tableClusters blocks + blocks) := by
    intro n hn
    induction n with
    | zero => exact hsome blocks le_rfl
    | succ n ih =>
      rw [← Nat.add_assoc, List.range_succ, List.foldl_append, ih (by omega), List.foldl_cons, List.foldl_nil,
        checkBlock_none h hs (by omega) (by omega)]
  obtain ⟨n, hn⟩ := Nat.exists_eq_add_of_le hle
  have hall := hnone n hn.ge
  rwa [← hn] at hall

/-- The image has a refcount of one for each of its clusters. -/
theorem getRefcount_eq {i : Nat} (hi : i < r.fixedClusters + r.tableClusters blocks + blocks) :
    (r.opened blocks backingFormat backingFile).getRefcount i = some 1 := by
  have hc := r.clusterSize_pos
  have hcLe := r.clusterSize_le
  have hmin := r.minClusterBits
  have hhead := r.headClusters_pos
  have hfixedLe := fixedClusters_le h
  have hmax := maxBlocks_le h
  have hblocksLe := hs.le
  have htableLe := tableClusters_le (r := r) blocks
  have hblocks := blocks_mul_le h hs
  have hfixed := fixedClusters_mul_le h
  have htable := tableClusters_mul_le h hs
  have htotal := totalClusters_le hs
  have hle := @blocks_le_tableEntries r blocks
  obtain ⟨half, hhalf⟩ : ∃ half, half = 2 ^ (r.clusterBits - 1) := ⟨_, rfl⟩
  have htwo : r.clusterSize = 2 * half := by
    rw [clusterSize_eq, hhalf, ← Nat.pow_succ']
    congr 1
    omega
  have hhalfPos : 0 < half := by omega
  obtain ⟨q, hq⟩ : ∃ q, q = i / half := ⟨_, rfl⟩
  have hindex : q < blocks := by
    rw [hq, Nat.div_lt_iff_lt_mul hhalfPos]
    rw [htwo, Nat.mul_left_comm] at htotal
    omega
  have hentry := table_entry h hs (hindex.trans_le hle)
  rw [if_pos hindex] at hentry
  have hmul : q * r.clusterSize ≤ blocks * r.clusterSize := Nat.mul_le_mul_right _ hindex.le
  have hnext : q * r.clusterSize + r.clusterSize ≤ blocks * r.clusterSize := by
    rw [← Nat.succ_mul]
    exact Nat.mul_le_mul_right _ hindex
  have hpos : (r.fixedClusters + r.tableClusters blocks + q) * r.clusterSize ≠ 0 :=
    (Nat.mul_pos (by rw [fixedClusters]; omega) hc).ne'
  have hlt : (r.fixedClusters + r.tableClusters blocks + q) * r.clusterSize < 2 ^ 63 := by
    rw [Nat.add_mul, Nat.add_mul]
    omega
  have hoff : 2 * (q * half) = q * r.clusterSize := by rw [htwo, Nat.mul_left_comm]
  have hin : q * half + half ≤ blocks * r.clusterSize / 2 := by omega
  -- the block is a part of what is written last
  have hblock : (r.writtenFile blocks).read ((r.fixedClusters + r.tableClusters blocks + q) * r.clusterSize)
      r.clusterSize = beArray 2 half fun k => (r.refcountBlock blocks ((q * half + k : Nat) : Int)).toNat := by
    have hlen := length_blocks h hs
    have hpart := beArray_part 2 (fun i => (r.refcountBlock blocks (i : Nat)).toNat) hin
    rw [hoff, ← htwo] at hpart
    rw [writtenFile, blockPos_eq h hs, Nat.add_mul _ q, File.read_write_part (by omega), CreateRequest.blocks,
      blockBytes_eq h hs, Int.toNat_natCast, hpart]
  have hone : beEntry 2 (beArray 2 half fun k => (r.refcountBlock blocks ((q * half + k : Nat) : Int)).toNat)
      (i % half) = 1 := by
    have hsplit : q * half + i % half = i := by rw [hq, Nat.div_add_mod']
    rw [beEntry_beArray (Nat.mod_lt _ hhalfPos), hsplit, refcountBlock_eq h hs hi]
    · rfl
    · exact (r.refcountBlock blocks _).toNat_lt
  have hget := getRefcount_of_block (s := r.opened blocks backingFormat backingFile) (i := i)
    (by rw [hq, hhalf]; rfl) (by omega) (hindex.trans_le hle) hentry hpos hlt (by rw [opened_clusterSize]; omega)
  have hbits : (r.opened blocks backingFormat backingFile).clusterBits = r.clusterBits := rfl
  have hfile : (r.opened blocks backingFormat backingFile).file = r.writtenFile blocks := rfl
  rw [hget, hbits, hfile, opened_clusterSize, ← hhalf, hblock, hone]

/-- The clusters of the header after the first are leaks. -/
theorem compareRefcounts_counted :
    (List.range (r.fixedClusters + r.tableClusters blocks + blocks)).foldl
      (r.opened blocks backingFormat backingFile).compareRefcounts
      (r.counted (r.fixedClusters + r.tableClusters blocks + blocks)) =
      { r.counted (r.fixedClusters + r.tableClusters blocks + blocks) with leaks := r.headClusters - 1 } := by
  have hhead := r.headClusters_pos
  have hle : r.headClusters ≤ r.fixedClusters + r.tableClusters blocks + blocks := by
    rw [fixedClusters]
    omega
  have hrange : ∀ n ≤ r.fixedClusters + r.tableClusters blocks + blocks, (List.range n).foldl
      (r.opened blocks backingFormat backingFile).compareRefcounts
      (r.counted (r.fixedClusters + r.tableClusters blocks + blocks)) =
      { r.counted (r.fixedClusters + r.tableClusters blocks + blocks) with leaks := min n r.headClusters - 1 } := by
    intro n hn
    induction n with
    | zero => rfl
    | succ n ih =>
      rw [List.range_succ, List.foldl_append, ih (by omega), List.foldl_cons, List.foldl_nil,
        OpenImage.compareRefcounts, getRefcount_eq h hs hn, Option.elim_some]
      dsimp only [counted]
      by_cases hcounted : n = 0 ∨ r.headClusters ≤ n ∧ n < r.fixedClusters + r.tableClusters blocks + blocks
      · have hmin : min (n + 1) r.headClusters - 1 = min n r.headClusters - 1 := by omega
        rw [if_pos hcounted, hmin]
        rfl
      · have hmin : min (n + 1) r.headClusters - 1 = min n r.headClusters - 1 + 1 := by omega
        rw [if_neg hcounted, hmin]
        rfl
  rw [hrange _ le_rfl, Nat.min_eq_right hle]

/-- The checker finds no corruption, and a leak for each cluster of the header after the first. -/
theorem checkRefcounts_eq :
    (r.opened blocks backingFormat backingFile).checkRefcounts =
      some { r.counted (r.fixedClusters + r.tableClusters blocks + blocks) with leaks := r.headClusters - 1 } := by
  have hc := r.clusterSize_pos
  have hhead := r.headClusters_pos
  have hfixedMul := fixedClusters_mul_le h
  have htableMul := tableClusters_mul_le h hs
  have hceil : (r.tableClusters blocks * r.clusterSize / 8 * 8 + (r.clusterSize - 1)) / r.clusterSize =
      r.tableClusters blocks := by
    rw [Nat.div_mul_cancel (r.eight_dvd_clusterSize.mul_left _), Nat.add_comm, Nat.add_mul_div_right _ _ hc,
      Nat.div_eq_of_lt (by omega), Nat.zero_add]
  have htable := @incRefcounts_counted _ h _ hs backingFormat backingFile
    r.fixedClusters (r.tableClusters blocks * r.clusterSize / 8 * 8)
    (by rw [fixedClusters]; omega) (by rw [hceil]; omega)
  rw [hceil, Nat.cast_mul _ 8, Nat.cast_ofNat] at htable
  have hoffset : int64 (r.fixedClusters * r.clusterSize : Nat) = (r.fixedClusters * r.clusterSize : Nat) :=
    int64_of_lt (by omega) (by omega)
  rw [← hoffset] at htable
  have hl1 := @checkRefcountsL1_counted _ h _ hs backingFormat backingFile
  have hnb := @opened_nbClusters _ h _ hs backingFormat backingFile
  have hheader := @incRefcounts_header _ h _ hs backingFormat backingFile
  have hblocks := @checkBlocks_counted _ h _ hs backingFormat backingFile
  have hcompare := @compareRefcounts_counted _ h _ hs backingFormat backingFile
  have hsize := @opened_clusterSize r blocks backingFormat backingFile
  have hl1Offset : (r.opened blocks backingFormat backingFile).l1TableOffset = r.headClusters * r.clusterSize := rfl
  have hl1Size : (r.opened blocks backingFormat backingFile).l1Size = r.l1Size := rfl
  have hsnapshots : (r.opened blocks backingFormat backingFile).snapshots = [] := rfl
  have hsnapshotsSize : (r.opened blocks backingFormat backingFile).snapshotsSize = 0 := rfl
  have htableOffset : (r.opened blocks backingFormat backingFile).refcountTableOffset =
      r.fixedClusters * r.clusterSize := rfl
  have htableSize : (r.opened blocks backingFormat backingFile).refcountTableSize =
      r.tableClusters blocks * r.clusterSize / 8 := rfl
  have hnone (st : CheckState) (offset : Int) :
      (r.opened blocks backingFormat backingFile).incRefcounts st offset 0 = st := if_pos le_rfl
  generalize r.opened blocks backingFormat backingFile = s at *
  have hnonneg : 0 ≤ s.nbClusters := by
    rw [hnb]
    exact Int.natCast_nonneg _
  rw [OpenImage.checkRefcounts, guard, if_pos hnonneg, hsize, hheader, hl1Offset, hl1Size, hsnapshots,
    hsnapshotsSize, htableOffset, htableSize, hnb, Int.toNat_natCast]
  simp only [Option.pure_def, Option.bind_eq_bind, Option.bind_some, List.foldlM_nil, hnone, hl1]
  rw [htable, hblocks, hcompare]

omit h hs in
/-- When an image is consistent: its L1 table can be opened, its header is in the first cluster, and its names can
be read. -/
theorem consistent_iff_fits (r : CreateRequest) : r.Consistent ↔ r.L1Fits ∧ r.headerSize ≤ r.clusterSize ∧ r.NamesOpen := by
  constructor
  · rintro ⟨fuel, image, hcreate, hinside, s, hopen, st, hcheck, -, hleaks⟩
    obtain ⟨ref, href, himage⟩ := Option.bind_eq_some_iff.mp hcreate
    split at himage
    · cases himage
    · rename_i hsizes
      cases himage
      have htable : 0 ≤ r.tableBytes ref := by omega
      have hoffset := le_refcountTableOffset href htable hinside
      obtain ⟨hl1, hl1Lt, hnames⟩ := l1Size_of_qcowOpen hopen
      rw [decode_header hoffset htable] at hl1 hnames
      rw [header_l1Size] at hl1
      have hfits : r.L1Fits := ⟨hl1 ▸ l1Size_of_checkRefcounts hcheck, hl1 ▸ hl1Lt⟩
      obtain ⟨blocks, rfl, hs⟩ := settled_of_refClusters hfits href
      refine ⟨hfits, ?_, (readNames_isSome hoffset htable).mp (Option.isSome_iff_exists.mpr ⟨_, hnames⟩)⟩
      rw [qcowOpen_eq hfits hs, hnames, Option.map_some, Option.some_inj] at hopen
      rw [← hopen, checkRefcounts_eq hfits hs, Option.some_inj] at hcheck
      rw [← hcheck] at hleaks
      have hhead := r.headClusters_pos
      exact r.headClusters_eq_one.mp (by dsimp only at hleaks; omega)
  · rintro ⟨hfits, hsize, hnames⟩
    obtain ⟨fuel, blocks, hblocks⟩ := exists_refClusters hfits
    obtain ⟨_, hcast, hs⟩ := settled_of_refClusters hfits hblocks
    rw [Nat.cast_inj] at hcast
    subst hcast
    have htable := tableBytes_nonneg hfits hs
    have hopen := (readNames_isSome (le_tableOffset hfits) htable).mpr hnames
    obtain ⟨names, hread⟩ := Option.isSome_iff_exists.mp hopen
    have hsizes : ¬ (r.tableBytes blocks < 0 ∨ r.blockBytes blocks < 0) := by
      rw [blockBytes_eq hfits hs]
      omega
    refine ⟨fuel, ⟨r.writtenFile blocks, r.updatedEntries blocks, (r.blockBytes blocks).toNat / 2⟩, ?_,
      fun i => entries_inside hfits hs, r.opened blocks names.1 names.2, ?_, _, checkRefcounts_eq hfits hs, rfl, ?_⟩
    · rw [create, hblocks, Option.bind_some, if_neg hsizes]
    · rw [qcowOpen_eq hfits hs, hread, Option.map_some]
    · dsimp only
      rw [r.headClusters_eq_one.mpr hsize]

omit h hs in
/-- An image is consistent exactly if its L1 table has less than 2 ^ 28 entries as an int and as far as the size has
bits for it, its header with the names is not longer than a cluster, and its names can be read again. -/
theorem create_consistent (r : CreateRequest) :
    r.Consistent ↔ (r.l1Entries < 2 ^ 28 ∧ 2 * r.l1Entries < 2 ^ min 32 (64 - r.shift)) ∧
      r.headerSize ≤ r.clusterSize ∧ r.NamesOpen := by
  rw [consistent_iff_fits, l1Fits_iff]

/-- A megabyte in clusters of 512 bytes, over a file whose name has 500 characters. -/
def longName : CreateRequest where
  totalSize := 2048
  backingFile := some (List.replicate 500 97)
  backingFormat := none
  encrypt := false
  clusterSize := 512
  clusterBits := 9
  isClusterSize := by decide
  minClusterBits := le_rfl
  maxClusterBits := by decide
  isInt := by
    simp only [Option.getD_none, Option.getD_some, List.length_nil, List.length_replicate]
    norm_num

omit h hs in
/-- The header takes two clusters, of which the checker knows one. -/
theorem longName_leaks : ¬ longName.Consistent := by
  intro h
  have hsize : longName.headerSize = 576 := by
    simp only [headerSize, roundedExtBfLen, backingFilenameLen, longName, Option.getD_some, List.length_replicate]
  have hle := ((consistent_iff_fits longName).mp h).2.1
  rw [hsize] at hle
  exact absurd hle (by decide)

end CreateRequest

end Colama.Qemu.Qcow2

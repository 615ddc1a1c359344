import Colama.Qemu.Qcow2.CheckImage
import Colama.Qemu.Qcow2.CreateLayout

namespace Colama.Qemu.Qcow2

open Lib

namespace QCowHeader

/-- The numbers have as many bytes as the fields of the header. -/
structure Sized (h : QCowHeader) : Prop where
  magic : h.magic < 2 ^ 32
  version : h.version < 2 ^ 32
  backingFileOffset : h.backingFileOffset < 2 ^ 64
  backingFileSize : h.backingFileSize < 2 ^ 32
  clusterBits : h.clusterBits < 2 ^ 32
  size : h.size < 2 ^ 64
  cryptMethod : h.cryptMethod < 2 ^ 32
  l1Size : h.l1Size < 2 ^ 32
  l1TableOffset : h.l1TableOffset < 2 ^ 64
  refcountTableOffset : h.refcountTableOffset < 2 ^ 64
  refcountTableClusters : h.refcountTableClusters < 2 ^ 32
  nbSnapshots : h.nbSnapshots < 2 ^ 32
  snapshotsOffset : h.snapshotsOffset < 2 ^ 64

@[simp] theorem length_encode (h : QCowHeader) : h.encode.length = 72 := by
  simp [encode]

theorem beField_skip {width n off size : Nat} (h : width ≤ off) (rest : List UInt8) :
    beField (beBytes width n ++ rest) off size = beField rest (off - width) size := by
  rw [beField, beField, List.drop_append, List.drop_of_length_le (by rw [length_beBytes]; exact h), List.nil_append,
    length_beBytes]

theorem beField_last {size n : Nat} (h : n < 256 ^ size) : beField (beBytes size n) 0 size = n := by
  have hfield := beField_zero h []
  rwa [List.append_nil] at hfield

theorem decode_encode {h : QCowHeader} (hs : h.Sized) : decode h.encode = h := by
  obtain ⟨h₁, h₂, h₃, h₄, h₅, h₆, h₇, h₈, h₉, h₁₀, h₁₁, h₁₂, h₁₃⟩ := hs
  cases h
  dsimp only at *
  simp (disch := omega) [decode, encode, beField_skip, beField_zero, beField_last]

end QCowHeader

theorem bdrvPread_eq {f : File} {offset size : Nat} (h : size < 2 ^ 31) :
    bdrvPread f offset size = some (f.read offset size) := by
  rw [bdrvPread]
  split
  · rename_i hsize
    rw [hsize]
    rfl
  · rw [if_pos ⟨Int.natCast_nonneg _, h⟩, Int.toNat_natCast]

theorem lt_of_bdrvPread {f : File} {offset : Int} {size : Nat} {bs : List UInt8} (h : bdrvPread f offset size = some bs) :
    size < 2 ^ 31 := by
  rw [bdrvPread] at h
  split at h
  · omega
  · split at h
    · rename_i hok
      exact hok.2
    · cases h

/-- The size of the L1 table of an image that opens is the one of the header, and not too much to read. -/
theorem l1Size_of_qcowOpen {f : File} {s : OpenImage} (h : qcowOpen f = some s) :
    s.l1Size = int32 (QCowHeader.decode (f.read 0 72)).l1Size ∧ s.l1Size < 2 ^ 28 ∧
      (QCowHeader.decode (f.read 0 72)).readNames f = some (s.backingFormat, s.backingFile) := by
  have hread : bdrvPread f 0 72 = some (f.read 0 72) := @bdrvPread_eq _ 0 _ (by norm_num)
  rw [qcowOpen, hread, Option.bind_some] at h
  generalize QCowHeader.decode (f.read 0 72) = header at h ⊢
  dsimp only at h
  split at h
  · obtain ⟨table, htable, h⟩ := Option.bind_eq_some_iff.mp h
    rw [QCowHeader.readTables] at htable
    obtain ⟨l1, hl1, -⟩ := Option.bind_eq_some_iff.mp htable
    have hlt := lt_of_bdrvPread hl1
    obtain ⟨⟨backingFormat, backingFile⟩, hnames, h⟩ := Option.bind_eq_some_iff.mp h
    obtain ⟨⟨snapshots, size⟩, -, rfl⟩ := Option.map_eq_some_iff.mp h
    refine ⟨?_, ?_, hnames⟩
    · dsimp only
    · dsimp only
      omega
  · cases h

theorem l1Size_of_checkRefcounts {s : OpenImage} {st : CheckState} (h : s.checkRefcounts = some st) : 0 ≤ s.l1Size := by
  rw [OpenImage.checkRefcounts] at h
  obtain ⟨_, -, h⟩ := Option.bind_eq_some_iff.mp h
  obtain ⟨st', hl1, -⟩ := Option.bind_eq_some_iff.mp h
  rw [OpenImage.checkRefcountsL1] at hl1
  obtain ⟨_, hguard, -⟩ := Option.bind_eq_some_iff.mp hl1
  by_contra hneg
  rw [guard, if_neg hneg] at hguard
  cases hguard

theorem uint64_lt (z : Int) : uint64 z < 2 ^ 64 := by
  have hlt := Int.emod_lt_of_pos z (b := 2 ^ 64) (by norm_num)
  rw [uint64]
  omega

theorem uint32_lt (z : Int) : uint32 z < 2 ^ 32 := by
  have hlt := Int.emod_lt_of_pos z (b := 2 ^ 32) (by norm_num)
  rw [uint32]
  omega

namespace CreateRequest

variable {r : CreateRequest} {ref : Int}

/-- Where the refcount table is, as an int64. -/
theorem int64_refcountTableOffset (r : CreateRequest) :
    ∃ k : Int, int64 r.refcountTableOffset = k * r.clusterSize ∧ r.refcountTableOffset = uint64 (k * r.clusterSize) ∧
      k * r.clusterSize < 2 ^ 40 := by
  have hc := r.clusterSize_le
  have hpos := r.clusterSize_pos
  have hl1 := int32_mem (int64 (r.size + 2 ^ r.shift - 1) / 2 ^ r.shift)
  rw [← l1Size] at hl1
  have hhead := r.headClusters_mul_le
  have hsize := r.headerSize_lt
  have hdiv := Int.ediv_mul_le (r.l1Size * 8 + r.clusterSize - 1) (b := r.clusterSize) (by omega)
  have hlt := Int.lt_ediv_add_one_mul_self (r.l1Size * 8 + r.clusterSize - 1) (b := r.clusterSize) (by omega)
  have heq : r.l1TableOffset + alignOffset (r.l1Size * 8) r.clusterSize =
      (r.headClusters + (r.l1Size * 8 + r.clusterSize - 1) / r.clusterSize) * r.clusterSize := by
    rw [l1TableOffset_eq, alignOffset, add_mul]
    push_cast
    rfl
  refine ⟨r.headClusters + (r.l1Size * 8 + r.clusterSize - 1) / r.clusterSize, ?_, ?_, ?_⟩
  · rw [refcountTableOffset, heq]
    apply int64_uint64 <;> rw [add_mul] <;> rw [add_mul] at hlt <;> push_cast at * <;> omega
  · rw [refcountTableOffset, heq]
  · rw [add_mul]
    push_cast at *
    omega

theorem zero_mem_updatedEntries : 0 ∈ r.updatedEntries ref := by
  have hle := r.le_headerSize
  have hc := r.clusterSize_pos
  rw [updatedEntries]
  apply List.mem_append_left
  apply List.mem_append_left
  apply List.mem_append_left
  refine mem_clusterRange.mpr ⟨by rw [Int.zero_ediv], ?_⟩
  exact Int.ediv_nonneg (by omega) (by omega)

/-- A range that is not empty starts with the cluster of its offset. -/
theorem start_mem_clusterRange {c : Nat} (hc : 0 < c) {offset size : Int} (hsize : 0 < size) :
    offset / c ∈ clusterRange c offset size :=
  mem_clusterRange.mpr ⟨le_rfl, Int.ediv_le_ediv (by omega) (by omega)⟩

/-- At offset zero there would be no refcount blocks. -/
theorem refClusters_zero (h : r.refcountTableOffset = 0) {fuel : Nat} (heq : r.refClusters fuel = some ref) :
    ref = 0 := by
  have hc := r.le_clusterSize
  have huint : uint64 0 = 0 := rfl
  have hclusters : r.numClusters 0 = 0 := by
    rw [numClusters_eq r (by norm_num), Nat.zero_add, Nat.div_eq_of_lt (by omega)]
  have hint : int32 (0 : Nat) = 0 := rfl
  have htable : r.reftableClusters 0 = 0 := by rw [reftableClusters, zero_mul, huint, hclusters, hint]
  have hblocks : r.refClustersFor 0 = 0 := by rw [refClustersFor, Nat.cast_zero, zero_mul, huint, hclusters, hint]
  have himage : r.imageClusters 0 = 0 := by
    rw [imageClusters, h, hclusters, htable, Nat.cast_zero, add_zero, add_zero, huint]
  rw [CreateRequest.refClusters, h, hclusters, hblocks] at heq
  cases fuel with
  | zero => cases heq
  | succ fuel =>
    rw [settle, if_pos (by rw [himage, hblocks])] at heq
    exact (Option.some_inj.mp heq).symm

/-- The refcount table is past the first cluster of an image whose counts are all inside its blocks. -/
theorem le_refcountTableOffset {fuel : Nat} (heq : r.refClusters fuel = some ref)
    (htable : 0 ≤ r.tableBytes ref)
    (hinside : ∀ i ∈ r.updatedEntries ref, 0 ≤ i ∧ i < ((r.blockBytes ref).toNat / 2 : Nat)) :
    (r.clusterSize : Int) ≤ int64 r.refcountTableOffset := by
  obtain ⟨k, hk, huint, hlt⟩ := int64_refcountTableOffset r
  have hpos := r.clusterSize_pos
  have hblocks : 0 < r.blockBytes ref := by
    have hzero := (hinside 0 zero_mem_updatedEntries).2
    omega
  have hdiv : int64 r.refcountTableOffset / r.clusterSize = k := by rw [hk, Int.mul_ediv_cancel _ (by omega)]
  -- the range of the table, or else that of the blocks, starts where the table does
  have hnonneg : 0 ≤ k := by
    rcases htable.lt_or_eq with hsome | hnone
    · have hmem := @start_mem_clusterRange _ hpos (int64 r.refcountTableOffset) _ hsome
      rw [hdiv] at hmem
      exact (hinside k (List.mem_append_left _ (List.mem_append_right _ hmem))).1
    · have hoffset : r.refcountBlockOffset ref = r.refcountTableOffset := by
        rw [refcountBlockOffset, ← hnone, add_zero, uint64_of_lt]
        rw [huint]
        exact uint64_lt _
      have hmem := @start_mem_clusterRange _ hpos (int64 (r.refcountBlockOffset ref)) _ hblocks
      rw [hoffset, hdiv] at hmem
      exact (hinside k (List.mem_append_right _ (by rwa [hoffset]))).1
  rcases hnonneg.lt_or_eq with hk0 | hk0
  · rw [hk]
    exact le_mul_of_one_le_left (by omega) hk0
  · have hoffset : r.refcountTableOffset = 0 := by
      rw [huint, ← hk0, zero_mul]
      rfl
    have hzero := refClusters_zero hoffset heq
    rw [blockBytes, hzero, zero_mul] at hblocks
    exact absurd hblocks (lt_irrefl 0)

theorem le_seek {c pos : Nat} {offset : Int} (h : (c : Int) ≤ offset) : c ≤ seek pos offset := by
  rw [seek, if_pos (by omega)]
  omega

/-- The first cluster of the file has the start of what is written before the L1 table. -/
theorem read_writtenFile (hoffset : (r.clusterSize : Int) ≤ int64 r.refcountTableOffset)
    (htable : 0 ≤ r.tableBytes ref) {off n : Nat} (hn : off + n ≤ r.clusterSize) :
    (r.writtenFile ref).read off n = ((r.front ref ++ List.replicate (off + n) 0).drop off).take n := by
  obtain ⟨k, hk, huint, hlt⟩ := int64_refcountTableOffset r
  have hpos := r.clusterSize_pos
  have hbytes := int32_mem (r.reftableClusters ref * r.clusterSize)
  rw [← tableBytes] at hbytes
  rw [hk] at hoffset
  have hcast : (uint64 (k * r.clusterSize) : Int) = k * r.clusterSize := by
    rw [uint64, Int.toNat_of_nonneg (Int.emod_nonneg _ (by norm_num)), Int.emod_eq_of_lt (by omega) (by omega)]
  have hblock : int64 (r.refcountBlockOffset ref) = k * r.clusterSize + r.tableBytes ref := by
    rw [refcountBlockOffset, huint, hcast, int64_uint64 (by omega) (by omega)]
  have hl1 : (r.clusterSize : Int) ≤ r.l1TableOffset := by
    rw [l1TableOffset_eq]
    exact_mod_cast Nat.le_mul_of_pos_left _ r.headClusters_pos
  have hblockOffset : (r.clusterSize : Int) ≤ int64 (r.refcountBlockOffset ref) := by
    rw [hblock]
    omega
  rw [← hk] at hoffset
  have hread := @File.read_add_left (File.empty.write 0 (r.front ref)) 0 n off
  rw [Nat.zero_add, File.read_write_end (Nat.zero_le _)] at hread
  rw [writtenFile, blockPos, tablePos, l1Pos, File.read_write_of_le (hn.trans (le_seek hblockOffset)),
    File.read_write_of_le (hn.trans (le_seek hoffset)), File.read_write_of_le (hn.trans (le_seek hl1)), hread,
    List.drop_take, Nat.add_sub_cancel_left]

theorem header_sized : (r.header ref).Sized := by
  have hext := r.roundedExtBfLen_le
  have hint := r.isInt
  have hmax := r.maxClusterBits
  constructor <;> dsimp only [header]
  case size => exact uint64_lt _
  case l1TableOffset => exact uint64_lt _
  case refcountTableOffset => exact uint64_lt _
  case l1Size => exact uint32_lt _
  case refcountTableClusters => exact uint32_lt _
  case magic => norm_num [qcowMagic]
  case version => norm_num [qcowVersion]
  case backingFileSize =>
    rw [backingFilenameLen]
    omega
  case backingFileOffset => split <;> omega
  case cryptMethod => split <;> omega
  all_goals omega

/-- The header can be read back. -/
theorem decode_header (hoffset : (r.clusterSize : Int) ≤ int64 r.refcountTableOffset)
    (htable : 0 ≤ r.tableBytes ref) : QCowHeader.decode ((r.writtenFile ref).read 0 72) = r.header ref := by
  have hc := r.le_clusterSize
  rw [read_writtenFile hoffset htable (by omega), List.drop_zero, front, List.append_assoc,
    List.take_left' (QCowHeader.length_encode _), QCowHeader.decode_encode header_sized]

/-- What follows the header can be read back. -/
theorem read_afterHeader (hoffset : (r.clusterSize : Int) ≤ int64 r.refcountTableOffset)
    (htable : 0 ≤ r.tableBytes ref) :
    (r.writtenFile ref).read 72 8 = (r.afterHeader ++ List.replicate 80 0).take 8 := by
  have hc := r.le_clusterSize
  rw [read_writtenFile hoffset htable (by omega), front, List.append_assoc,
    List.drop_left' (QCowHeader.length_encode _)]

/-- Eight bytes after the header, as they are when the format is empty: the name, which ends before where it is
looked for. -/
def nameBytes (r : CreateRequest) : List UInt8 := (r.backingFile.getD [] ++ List.replicate 8 0).take 8

/-- The names can be read again: the format has less than 16 characters, and the name is not taken for an
extension that is too long. -/
def NamesOpen (r : CreateRequest) : Prop :=
  ∀ backingFile backingFormat, r.backingFile = some backingFile → r.backingFormat = some backingFormat →
    if backingFormat.length = 0 then
      beField r.nameBytes 0 4 = qcowExtMagicBackingFormat → beField r.nameBytes 4 4 < 16
    else backingFormat.length < 16

end CreateRequest

theorem walkExtensions_end {read : Nat → ExtensionRead} {endOffset fuel offset : Nat} {backingFormat : List UInt8}
    (hfuel : 0 < fuel) (h : endOffset ≤ offset) :
    walkExtensions read endOffset fuel offset backingFormat = some backingFormat := by
  cases fuel with
  | zero => omega
  | succ fuel => rw [walkExtensions, if_neg h.not_gt]

/-- The place after the header, and after an extension that is there. -/
theorem readExtension_eq {f : File} {ext : List UInt8} {len : Nat} (hext : f.read 72 8 = ext)
    (hlen : beField ext 4 4 = len) (hint : len < 2 ^ 32) :
    readExtension f 72 =
      if beField ext 0 4 = 0 then .ended
      else if beField ext 0 4 = qcowExtMagicBackingFormat then
        if 16 ≤ len then .failed else .next ((80 + len + 7) / 8 * 8) (some (cString (f.read 80 len)))
      else .next ((80 + len + 7) / 8 * 8) none := by
  have hread : bdrvPread f (int64 (72 : Nat)) 8 = some ext := by
    rw [int64_of_lt (by norm_num) (by norm_num), bdrvPread_eq (by norm_num), hext]
  have hnext : uint64 (((72 : Nat) : Int) + 8 + len + 7) / 8 * 8 = (80 + len + 7) / 8 * 8 := by
    have hcast : ((72 : Nat) : Int) + 8 + len + 7 = (80 + len + 7 : Nat) := by push_cast; ring
    rw [hcast, uint64_of_lt (by omega)]
  rw [readExtension, hread, Option.elim_some, extensionAt, hlen, hnext]
  split
  · rfl
  · split
    · split
      · rfl
      · rename_i hshort
        have hformat : bdrvPread f (int64 (((72 : Nat) : Int) + 8)) len = some (f.read 80 len) := by
          rw [int64_of_lt (by norm_num) (by norm_num)]
          exact @bdrvPread_eq _ 80 _ (by omega)
        rw [hformat, Option.elim_some]
    · rfl

namespace CreateRequest

variable {r : CreateRequest} {ref : Int}

/-- What is read after the header when there is no extension, or when it is not written. -/
theorem backingFileOffset_eq : (r.header ref).backingFileOffset = if r.backingFile.isSome then 72 + r.roundedExtBfLen else 0 :=
  rfl

theorem extEnd_eq : (r.header ref).extEnd = if r.backingFile.isSome then 72 + r.roundedExtBfLen else r.clusterSize := by
  rw [QCowHeader.extEnd, backingFileOffset_eq, clusterSize_eq]
  split
  · rw [if_pos (by omega)]
  · rfl

theorem readBackingFile_isSome (f : File) : ((r.header ref).readBackingFile f).isSome := by
  have hint := r.isInt
  have hext := r.roundedExtBfLen_le
  have hsize : (r.header ref).backingFileSize = r.backingFilenameLen := rfl
  have hlen : r.backingFilenameLen < 2 ^ 31 := by
    rw [backingFilenameLen]
    omega
  rw [QCowHeader.readBackingFile, hsize, int32_of_lt (Int.natCast_nonneg _) (by omega)]
  split
  · rfl
  · have hoffset : (r.header ref).backingFileOffset < 2 ^ 31 := by
      rw [backingFileOffset_eq]
      split <;> omega
    rw [if_neg (by omega), int64_of_lt (by omega) (by omega), bdrvPread_eq (by omega)]
    rfl

/-- The names of the image can be read. -/
theorem readNames_isSome (hoffset : (r.clusterSize : Int) ≤ int64 r.refcountTableOffset)
    (htable : 0 ≤ r.tableBytes ref) :
    ((r.header ref).readNames (r.writtenFile ref)).isSome ↔ r.NamesOpen := by
  have hext := read_afterHeader hoffset htable
  have hint := r.isInt
  have hread : ((r.header ref).readNames (r.writtenFile ref)).isSome ↔
      (readExtensions (r.writtenFile ref) 72 (r.header ref).extEnd).isSome := by
    have hname := @readBackingFile_isSome r ref (r.writtenFile ref)
    obtain ⟨backingFile, hbackingFile⟩ := Option.isSome_iff_exists.mp hname
    rw [QCowHeader.readNames, hbackingFile]
    cases readExtensions (r.writtenFile ref) 72 (r.header ref).extEnd <;> rfl
  rw [hread, extEnd_eq, readExtensions]
  generalize r.writtenFile ref = f at hext ⊢
  cases hfile : r.backingFile with
  | none =>
    have hafter : r.afterHeader = [] := by rw [afterHeader, hfile]
    have hc := r.le_clusterSize
    have hzero : f.read 72 8 = List.replicate 8 0 := by
      rw [hext, hafter, List.nil_append, List.take_replicate, Nat.min_eq_left (by omega)]
    have hnames : r.NamesOpen := fun _ _ h => by rw [hfile] at h; cases h
    rw [Option.isSome_none, if_neg Bool.false_ne_true, walkExtensions, if_pos (by omega),
      readExtension_eq hzero rfl (by decide), if_pos (by decide)]
    simp [hnames]
  | some backingFile =>
    rw [Option.isSome_some, if_pos rfl]
    cases hformat : r.backingFormat with
    | none =>
      have hrounded : r.roundedExtBfLen = 0 := by rw [roundedExtBfLen, hfile, hformat]
      have hnames : r.NamesOpen := fun _ _ _ h => by rw [hformat] at h; cases h
      rw [walkExtensions_end (by omega) (by omega)]
      simp [hnames]
    | some backingFormat =>
      have hrounded : r.roundedExtBfLen = (8 + backingFormat.length + 7) / 8 * 8 := by
        rw [roundedExtBfLen, hfile, hformat]
      have hnames : r.NamesOpen ↔ if backingFormat.length = 0 then
          beField r.nameBytes 0 4 = qcowExtMagicBackingFormat → beField r.nameBytes 4 4 < 16
          else backingFormat.length < 16 :=
        ⟨fun h => h _ _ hfile hformat, fun h _ _ hfile' hformat' => by
          rw [hformat, Option.some_inj] at hformat'
          rwa [← hformat']⟩
      rw [hformat, Option.getD_some] at hint
      rw [hnames, walkExtensions, if_pos (by omega)]
      by_cases hempty : backingFormat.length = 0
      · have hafter : r.afterHeader = backingFile := by rw [afterHeader, hfile, hformat]; exact if_pos hempty
        have hbytes : f.read 72 8 = r.nameBytes := by
          have hzeros : List.replicate 80 (0 : UInt8) = List.replicate 8 0 ++ List.replicate 72 0 := by
            rw [← List.replicate_add]
          rw [hext, hafter, nameBytes, hfile, hzeros, ← List.append_assoc,
            List.take_append_of_le_length (by rw [List.length_append, List.length_replicate]; omega)]
          rfl
        rw [if_pos hempty, readExtension_eq hbytes rfl (beField_lt _ _ _)]
        by_cases hend : beField r.nameBytes 0 4 = 0
        · rw [if_pos hend, hend]
          simp [qcowExtMagicBackingFormat]
        · rw [if_neg hend]
          by_cases hmagic : beField r.nameBytes 0 4 = qcowExtMagicBackingFormat
          · rw [if_pos hmagic]
            by_cases hlong : 16 ≤ beField r.nameBytes 4 4
            · rw [if_pos hlong]
              simp [hmagic, hlong]
            · rw [if_neg hlong]
              dsimp only
              rw [walkExtensions_end (by omega) (by omega)]
              simp [hmagic, Nat.not_le.mp hlong]
          · rw [if_neg hmagic]
            dsimp only
            rw [walkExtensions_end (by omega) (by omega)]
            simp [hmagic]
      · have hafter : r.afterHeader = beBytes 4 qcowExtMagicBackingFormat ++ (beBytes 4 backingFormat.length ++
            (backingFormat ++ (List.replicate (r.roundedExtBfLen - (backingFormat.length + 8)) 0 ++ backingFile))) := by
          rw [afterHeader, hfile, hformat]
          dsimp only
          rw [if_neg hempty, List.append_assoc, List.append_assoc, List.append_assoc]
        have hmagic : beField (f.read 72 8) 0 4 = qcowExtMagicBackingFormat := by
          rw [hext, hafter, beField_take (by norm_num), List.append_assoc, beField_zero (by decide)]
        have hlen : beField (f.read 72 8) 4 4 = backingFormat.length := by
          rw [hext, hafter, beField_take (by norm_num), List.append_assoc, QCowHeader.beField_skip (by norm_num),
            List.append_assoc, beField_zero (by omega)]
        rw [if_neg hempty, readExtension_eq rfl hlen (by omega), hmagic, if_neg (by decide), if_pos rfl]
        by_cases hlong : 16 ≤ backingFormat.length
        · rw [if_pos hlong]
          simp [hlong]
        · rw [if_neg hlong]
          dsimp only
          rw [walkExtensions_end (by omega) (by omega)]
          simp [Nat.not_le.mp hlong]

end CreateRequest

end Colama.Qemu.Qcow2

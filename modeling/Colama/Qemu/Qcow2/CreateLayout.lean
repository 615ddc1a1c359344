import Colama.Qemu.Qcow2.CreateImage
import Colama.Qemu.Qcow2.WritesSpec

namespace Colama.Qemu.Qcow2

open Lib

theorem int64_of_lt {z : Int} (hlo : -2 ^ 63 ≤ z) (hhi : z < 2 ^ 63) : int64 z = z := by
  rw [int64, Int.bmod_eq_of_le] <;> omega

theorem int64_uint64 {z : Int} (hlo : -2 ^ 63 ≤ z) (hhi : z < 2 ^ 63) : int64 (uint64 z) = z := by
  have hmod : ((uint64 z : Nat) : Int) = z % 2 ^ 64 := Int.toNat_of_nonneg (Int.emod_nonneg _ (by norm_num))
  rw [hmod, int64]
  simp only [Int.bmod]
  omega

theorem int32_mem (z : Int) : -2 ^ 31 ≤ int32 z ∧ int32 z < 2 ^ 31 := by
  have hle := Int.le_bmod (x := z) (m := 2 ^ 32) (by norm_num)
  have hlt := Int.bmod_lt (x := z) (m := 2 ^ 32) (by norm_num)
  rw [int32]
  omega

theorem int32_uint32 {z : Int} (hlo : -2 ^ 31 ≤ z) (hhi : z < 2 ^ 31) : int32 (uint32 z) = z := by
  have hmod : ((uint32 z : Nat) : Int) = z % 2 ^ 32 := Int.toNat_of_nonneg (Int.emod_nonneg _ (by norm_num))
  rw [hmod, int32]
  simp only [Int.bmod]
  omega

theorem eq_pow_of_getBitsFromSize {fuel size bits : Nat} (h : getBitsFromSize fuel size = some bits) :
    size = 2 ^ bits := by
  induction fuel generalizing size bits with
  | zero => cases h
  | succ fuel ih =>
    rw [getBitsFromSize] at h
    split at h
    · cases h
    · split at h
      · rename_i hone
        cases h
        exact hone
      · split at h
        · cases h
        · rename_i hodd
          obtain ⟨half, hhalf, rfl⟩ := Option.map_eq_some_iff.mp h
          have hpow := ih hhalf
          rw [Nat.pow_succ, ← hpow]
          omega

theorem alignOffset_natCast (offset : Nat) {n : Nat} (hn : 0 < n) :
    alignOffset offset n = ((offset + (n - 1)) / n * n : Nat) := by
  have hsub : (offset : Int) + n - 1 = ((offset + (n - 1) : Nat) : Int) := by omega
  rw [alignOffset, hsub]
  norm_cast

theorem mem_clusterRange {c : Nat} {offset size k : Int} :
    k ∈ clusterRange c offset size ↔ offset / c ≤ k ∧ k ≤ (offset + size - 1) / c := by
  simp only [clusterRange, List.mem_map, List.mem_range]
  constructor
  · rintro ⟨i, hi, rfl⟩
    omega
  · rintro ⟨hlo, hhi⟩
    exact ⟨(k - offset / c).toNat, by omega, by omega⟩

/-- A range that starts with a cluster. -/
theorem clusterRange_natCast {c : Nat} (hc : 0 < c) (first size : Nat) :
    clusterRange c (first * c : Nat) size = (List.range ((size + (c - 1)) / c)).map fun i : Nat => (first + i : Int) := by
  have hstart : ((first * c : Nat) : Int) / c = first := by
    rw [Nat.cast_mul, Int.mul_ediv_cancel _ (by omega)]
  have hlast : (((first * c : Nat) : Int) + size - 1) / c + 1 = (first + (size + (c - 1)) / c : Nat) := by
    have hsplit : ((first * c : Nat) : Int) + size - 1 = ((size : Int) - 1) + first * c := by push_cast; ring
    have hceil : ((size : Int) - 1) / c + 1 = ((size + (c - 1)) / c : Nat) := by
      rw [← Int.add_mul_ediv_right _ _ (by omega : (c : Int) ≠ 0), one_mul]
      have hsub : (size : Int) - 1 + c = ((size + (c - 1) : Nat) : Int) := by omega
      rw [hsub]
      norm_cast
    rw [hsplit, Int.add_mul_ediv_right _ _ (by omega : (c : Int) ≠ 0)]
    omega
  have hcount : (((first + (size + (c - 1)) / c : Nat) : Int) - first).toNat = (size + (c - 1)) / c := by
    rw [Nat.cast_add, add_sub_cancel_left, Int.toNat_natCast]
  simp only [clusterRange, hlast, hstart, hcount]

namespace CreateRequest

variable (r : CreateRequest)

theorem clusterSize_eq : r.clusterSize = 2 ^ r.clusterBits := eq_pow_of_getBitsFromSize r.isClusterSize

theorem le_clusterSize : 512 ≤ r.clusterSize := by
  rw [clusterSize_eq]
  exact Nat.pow_le_pow_right (n := 2) (by norm_num) r.minClusterBits

theorem clusterSize_le : r.clusterSize ≤ 2 ^ 21 := by
  rw [clusterSize_eq]
  exact Nat.pow_le_pow_right (n := 2) (by norm_num) r.maxClusterBits

theorem clusterSize_pos : 0 < r.clusterSize := by
  have hle := r.le_clusterSize
  omega

/-- The clusters of the header and the names. -/
def headClusters : Nat := (r.headerSize + (r.clusterSize - 1)) / r.clusterSize

def l1Clusters : Nat := (r.l1Size.toNat * 8 + (r.clusterSize - 1)) / r.clusterSize

/-- The clusters before the refcount table. -/
def fixedClusters : Nat := r.headClusters + r.l1Clusters

def tableClusters (blocks : Nat) : Nat := (blocks * 8 + (r.clusterSize - 1)) / r.clusterSize

def totalClusters (blocks : Nat) : Nat := r.fixedClusters + blocks + r.tableClusters blocks

/-- The blocks for the clusters of an image with the given number of blocks. -/
def blocksFor (blocks : Nat) : Nat := (r.totalClusters blocks * 2 + (r.clusterSize - 1)) / r.clusterSize

theorem roundedExtBfLen_le : r.roundedExtBfLen ≤ ((r.backingFormat.getD []).length + 15) / 8 * 8 := by
  rw [roundedExtBfLen]
  split
  · rename_i hformat
    rw [hformat, Option.getD_some]
    omega
  · exact Nat.zero_le _

theorem headerSize_lt : r.headerSize < 2 ^ 31 := by
  have hext := r.roundedExtBfLen_le
  have hint := r.isInt
  rw [headerSize, backingFilenameLen]
  omega

theorem le_headerSize : 72 ≤ r.headerSize := by
  rw [headerSize]
  omega

theorem l1TableOffset_eq : r.l1TableOffset = (r.headClusters * r.clusterSize : Nat) :=
  alignOffset_natCast _ r.clusterSize_pos

theorem headClusters_pos : 0 < r.headClusters := by
  have hle := r.le_headerSize
  exact Nat.div_pos (by omega) r.clusterSize_pos

theorem headerSize_le : r.headerSize ≤ r.headClusters * r.clusterSize := by
  have hdiv := Nat.lt_div_mul_add r.clusterSize_pos (a := r.headerSize + (r.clusterSize - 1))
  rw [headClusters]
  omega

theorem headClusters_mul_le : r.headClusters * r.clusterSize ≤ r.headerSize + (r.clusterSize - 1) :=
  Nat.div_mul_le_self _ _

theorem headClusters_eq_one : r.headClusters = 1 ↔ r.headerSize ≤ r.clusterSize := by
  have hle := r.le_headerSize
  have hc := r.le_clusterSize
  constructor
  · intro h
    have hhead := r.headerSize_le
    rwa [h, Nat.one_mul] at hhead
  · intro h
    exact Nat.div_eq_of_lt_le (by omega) (by omega)

theorem numClusters_eq {bytes : Nat} (h : bytes < 2 ^ 63) :
    r.numClusters bytes = (bytes + (r.clusterSize - 1)) / r.clusterSize := by
  have hc := r.clusterSize_pos
  have hle := r.clusterSize_le
  have hsub : (bytes : Int) + r.clusterSize - 1 = (bytes + (r.clusterSize - 1) : Nat) := by omega
  rw [numClusters, hsub, uint64_of_lt (by omega)]

theorem numClusters_mul {n : Nat} (h : n * r.clusterSize < 2 ^ 63) : r.numClusters (n * r.clusterSize) = n := by
  have hc := r.clusterSize_pos
  rw [numClusters_eq r h, Nat.add_comm, Nat.add_mul_div_right _ _ hc, Nat.div_eq_of_lt (by omega), Nat.zero_add]

/-- The entries of the L1 table, as far as the 64 bits of the size and the 32 bits of their number go. -/
def l1Entries : Nat :=
  ((r.totalSize * 512 + 2 ^ r.shift - 1) / 2 ^ r.shift % 2 ^ min 32 (64 - r.shift)).toNat

theorem shift_le : r.shift ≤ 39 := by
  have hmax := r.maxClusterBits
  rw [shift]
  omega

/-- The signed value of some bits, without the lowest of them. -/
theorem bmod_ediv (x : Int) {half d : Nat} (hhalf : 0 < half) (hd : 0 < d) :
    x.bmod (2 * half * d) / d = (x / d).bmod (2 * half) := by
  have hdiv : x.bmod (2 * half * d) / d = x / d - 2 * half * x.bdiv (2 * half * d) := by
    have hx : x.bmod (2 * half * d) = x + -(2 * half * x.bdiv (2 * half * d)) * d := by
      rw [Int.bmod_eq_self_sub_mul_bdiv]
      push_cast
      ring
    rw [hx, Int.add_mul_ediv_right _ _ (by omega), Int.sub_eq_add_neg]
  have hlo := Int.le_bmod (x := x) (m := 2 * half * d) (by positivity)
  have hhi := Int.bmod_lt (x := x) (m := 2 * half * d) (by positivity)
  have hmid : ((2 * half * d : Nat) : Int) = 2 * (half * d) := by push_cast; ring
  rw [hmid] at hlo hhi
  refine ((Int.bmod_eq_iff (by omega)).mpr ⟨?_, ?_, ?_⟩).symm
  · apply Int.le_ediv_of_mul_le (by omega)
    push_cast
    rw [Int.mul_ediv_cancel_left _ (by norm_num), neg_mul]
    omega
  · apply Int.ediv_lt_of_lt_mul (by omega)
    have hone : ((2 * half : Nat) + 1 : Int) / 2 = half := by omega
    rw [hone]
    omega
  · rw [hdiv]
    exact ⟨-x.bdiv (2 * half * d), by push_cast; ring⟩

theorem l1Size_eq : r.l1Size = ((r.totalSize * 512 + 2 ^ r.shift - 1) / 2 ^ r.shift).bmod (2 ^ min 32 (64 - r.shift)) := by
  have hshift := r.shift_le
  have hpow : 2 ^ 64 = 2 * 2 ^ (63 - r.shift) * 2 ^ r.shift := by
    rw [← Nat.pow_succ', ← pow_add]
    congr 1
    omega
  have hwrap : int64 (r.size + 2 ^ r.shift - 1) = (r.totalSize * 512 + 2 ^ r.shift - 1).bmod (2 ^ 64) := by
    rw [int64, size, int64, add_sub_assoc, Int.bmod_add_bmod, ← add_sub_assoc]
  have hdiv := @bmod_ediv (r.totalSize * 512 + 2 ^ r.shift - 1) (2 ^ (63 - r.shift)) (2 ^ r.shift)
    (by positivity) (by positivity)
  rw [← hpow, ← hwrap, ← Nat.pow_succ'] at hdiv
  push_cast at hdiv
  rw [l1Size, hdiv, int32]
  have hsub : 63 - r.shift + 1 = 64 - r.shift := by omega
  rw [Nat.succ_eq_add_one, hsub]
  rcases Nat.le_total 32 (64 - r.shift) with hle | hge
  · rw [Nat.min_eq_left hle, Int.bmod_bmod_of_dvd (Nat.pow_dvd_pow 2 hle)]
  · rw [Nat.min_eq_right hge]
    have hmono : 2 ^ (64 - r.shift) ≤ 2 ^ 32 := Nat.pow_le_pow_right (by norm_num) hge
    have hlo := Int.le_bmod (x := (r.totalSize * 512 + 2 ^ r.shift - 1) / 2 ^ r.shift)
      (m := 2 ^ (64 - r.shift)) (by positivity)
    have hhi := Int.bmod_lt (x := (r.totalSize * 512 + 2 ^ r.shift - 1) / 2 ^ r.shift)
      (m := 2 ^ (64 - r.shift)) (by positivity)
    exact Int.bmod_eq_of_le (by omega) (by omega)

/-- The L1 table can be opened. -/
def L1Fits : Prop := 0 ≤ r.l1Size ∧ r.l1Size < 2 ^ 28

theorem l1Fits_iff : r.L1Fits ↔ r.l1Entries < 2 ^ 28 ∧ 2 * r.l1Entries < 2 ^ min 32 (64 - r.shift) := by
  have hpos : 0 < 2 ^ min 32 (64 - r.shift) := by positivity
  have hnonneg := Int.emod_nonneg ((r.totalSize * 512 + 2 ^ r.shift - 1) / 2 ^ r.shift)
    (b := (2 ^ min 32 (64 - r.shift) : Nat)) (by omega)
  have hlt := Int.emod_lt_of_pos ((r.totalSize * 512 + 2 ^ r.shift - 1) / 2 ^ r.shift)
    (b := (2 ^ min 32 (64 - r.shift) : Nat)) (by omega)
  have hentries : r.l1Entries =
      ((r.totalSize * 512 + 2 ^ r.shift - 1) / 2 ^ r.shift % (2 ^ min 32 (64 - r.shift) : Nat)).toNat := by
    rw [l1Entries]
    push_cast
    rfl
  rw [L1Fits, l1Size_eq, hentries, Int.bmod_eq_emod]
  split <;> omega

variable {r}

section Fits

variable (h : r.L1Fits)

include h

theorem refcountTableOffset_eq : r.refcountTableOffset = r.fixedClusters * r.clusterSize := by
  obtain ⟨hlo, hhi⟩ := h
  have hl1 : r.l1Size * 8 = (r.l1Size.toNat * 8 : Nat) := by omega
  have halign : alignOffset (r.l1Size * 8) r.clusterSize = (r.l1Clusters * r.clusterSize : Nat) := by
    rw [hl1, alignOffset_natCast _ r.clusterSize_pos, l1Clusters]
  have hhead := r.headClusters_mul_le
  have hsize := r.headerSize_lt
  have hc := r.clusterSize_le
  have hmul : r.l1Clusters * r.clusterSize ≤ r.l1Size.toNat * 8 + (r.clusterSize - 1) := Nat.div_mul_le_self _ _
  have hsum : (r.headClusters * r.clusterSize : Nat) + (r.l1Clusters * r.clusterSize : Nat) =
      r.fixedClusters * r.clusterSize := (Nat.add_mul ..).symm
  rw [refcountTableOffset, l1TableOffset_eq, halign, ← Nat.cast_add, hsum, uint64_of_lt (by omega)]

theorem fixedClusters_mul_le : r.fixedClusters * r.clusterSize ≤ 2 ^ 32 + 2 ^ 22 := by
  obtain ⟨hlo, hhi⟩ := h
  have hhead := r.headClusters_mul_le
  have hsize := r.headerSize_lt
  have hc := r.clusterSize_le
  have hmul : r.l1Clusters * r.clusterSize ≤ r.l1Size.toNat * 8 + (r.clusterSize - 1) := Nat.div_mul_le_self _ _
  rw [fixedClusters, Nat.add_mul]
  omega

theorem fixedClusters_le : r.fixedClusters ≤ 2 ^ 23 + 2 ^ 13 := by
  have hmul := (Nat.mul_le_mul_left r.fixedClusters r.le_clusterSize).trans (fixedClusters_mul_le h)
  omega

end Fits

/-- A bound for the number of refcount blocks. -/
def maxBlocks (r : CreateRequest) : Nat := r.fixedClusters / 64 + 2

theorem tableClusters_le (blocks : Nat) : r.tableClusters blocks ≤ blocks / 64 + 1 := by
  have hc := r.le_clusterSize
  rw [tableClusters, ← Nat.lt_succ_iff, Nat.div_lt_iff_lt_mul r.clusterSize_pos]
  have hmul := Nat.mul_le_mul_left (blocks / 64 + 1) hc
  rw [Nat.succ_mul]
  omega

theorem tableClusters_mono {a b : Nat} (h : a ≤ b) : r.tableClusters a ≤ r.tableClusters b :=
  Nat.div_le_div_right (by omega)

theorem blocksFor_mono : Monotone r.blocksFor := by
  intro a b hab
  have htable := tableClusters_mono (r := r) hab
  apply Nat.div_le_div_right
  rw [totalClusters, totalClusters]
  omega

/-- The blocks for so many clusters are no more than one for 256 of them and one more. -/
theorem ceil_le {n : Nat} : (n * 2 + (r.clusterSize - 1)) / r.clusterSize ≤ n / 256 + 1 := by
  have hc := r.le_clusterSize
  rw [← Nat.lt_succ_iff, Nat.div_lt_iff_lt_mul r.clusterSize_pos]
  have hmul := Nat.mul_le_mul_left (n / 256 + 1) hc
  rw [Nat.succ_mul]
  omega

theorem blocksFor_le {blocks : Nat} (h : blocks ≤ r.maxBlocks) : r.blocksFor blocks ≤ r.maxBlocks := by
  have htable := tableClusters_le (r := r) blocks
  have hceil := ceil_le (r := r) (n := r.totalClusters blocks)
  rw [maxBlocks] at h ⊢
  rw [blocksFor]
  have htotal : r.totalClusters blocks ≤ r.fixedClusters + blocks + (blocks / 64 + 1) := by
    rw [totalClusters]
    omega
  omega

/-- The blocks that the loop starts with. -/
def firstBlocks (r : CreateRequest) : Nat := (r.fixedClusters * 2 + (r.clusterSize - 1)) / r.clusterSize

theorem firstBlocks_le : r.firstBlocks ≤ r.maxBlocks := by
  have hceil := ceil_le (r := r) (n := r.fixedClusters)
  rw [firstBlocks, maxBlocks]
  omega

theorem firstBlocks_pos : 0 < r.firstBlocks := by
  have hhead := r.headClusters_pos
  have hfixed : 0 < r.fixedClusters := Nat.add_pos_left hhead _
  exact Nat.div_pos (by omega) r.clusterSize_pos

theorem firstBlocks_le_blocksFor (blocks : Nat) : r.firstBlocks ≤ r.blocksFor blocks := by
  apply Nat.div_le_div_right
  rw [totalClusters]
  omega

/-- What the loop has when it ends. -/
structure Settled (r : CreateRequest) (blocks : Nat) : Prop where
  pos : 0 < blocks
  le : blocks ≤ r.maxBlocks
  fixed : r.blocksFor blocks = blocks

section Fits

variable (h : r.L1Fits) {blocks : Nat}

include h

theorem maxBlocks_le : r.maxBlocks ≤ 2 ^ 18 := by
  have hle := fixedClusters_le h
  rw [maxBlocks]
  omega

theorem reftableClusters_natCast (hblocks : blocks ≤ r.maxBlocks) :
    r.reftableClusters blocks = r.tableClusters blocks := by
  have hmax := maxBlocks_le h
  have htable := tableClusters_le (r := r) blocks
  have height : (blocks : Int) * 8 = (blocks * 8 : Nat) := by push_cast; rfl
  rw [reftableClusters, height, uint64_of_lt (by omega), numClusters_eq r (by omega), ← tableClusters,
    int32_of_lt (by omega) (by omega)]

theorem numClusters_refcountTableOffset : r.numClusters r.refcountTableOffset = r.fixedClusters := by
  have hle := fixedClusters_mul_le h
  rw [refcountTableOffset_eq h, numClusters_mul r (by omega)]

theorem imageClusters_natCast (hblocks : blocks ≤ r.maxBlocks) : r.imageClusters blocks = r.totalClusters blocks := by
  have hmax := maxBlocks_le h
  have hfixed := fixedClusters_le h
  have htable := tableClusters_le (r := r) blocks
  rw [imageClusters, numClusters_refcountTableOffset h, reftableClusters_natCast h hblocks, ← Nat.cast_add,
    ← Nat.cast_add, uint64_of_lt (by omega), totalClusters]

theorem refClustersFor_eq {n : Nat} (hn : n ≤ 2 ^ 25) :
    r.refClustersFor n = ((n * 2 + (r.clusterSize - 1)) / r.clusterSize : Nat) := by
  have hceil := ceil_le (r := r) (n := n)
  have htwo : (n : Int) * 2 = (n * 2 : Nat) := by push_cast; rfl
  rw [refClustersFor, htwo, uint64_of_lt (by omega), numClusters_eq r (by omega),
    int32_of_lt (Int.natCast_nonneg _) (by omega)]

theorem refClustersFor_imageClusters (hblocks : blocks ≤ r.maxBlocks) :
    r.refClustersFor (r.imageClusters blocks) = r.blocksFor blocks := by
  have hmax := maxBlocks_le h
  have hfixed := fixedClusters_le h
  have htable := tableClusters_le (r := r) blocks
  have hle : r.totalClusters blocks ≤ 2 ^ 25 := by
    rw [totalClusters]
    omega
  rw [imageClusters_natCast h hblocks, refClustersFor_eq h hle, blocksFor]

theorem refClusters_eq (fuel : Nat) :
    r.refClusters fuel = (settle r.blocksFor fuel r.firstBlocks).map Nat.cast := by
  have hfixed := fixedClusters_le h
  rw [refClusters, numClusters_refcountTableOffset h, refClustersFor_eq h (by omega)]
  exact settle_map Nat.cast_injective (P := fun blocks => blocks ≤ r.maxBlocks)
    (fun blocks => refClustersFor_imageClusters h) (fun blocks => blocksFor_le) firstBlocks_le

theorem settled_of_refClusters {fuel : Nat} {refClusters : Int} (heq : r.refClusters fuel = some refClusters) :
    ∃ blocks : Nat, refClusters = blocks ∧ r.Settled blocks := by
  rw [refClusters_eq h] at heq
  obtain ⟨blocks, hblocks, rfl⟩ := Option.map_eq_some_iff.mp heq
  have hkeep := settle_keeps (P := fun blocks => 0 < blocks ∧ blocks ≤ r.maxBlocks)
    (fun n hn => ⟨firstBlocks_pos.trans_le (firstBlocks_le_blocksFor n), blocksFor_le hn.2⟩)
    ⟨firstBlocks_pos, firstBlocks_le⟩ hblocks
  exact ⟨blocks, rfl, hkeep.1, hkeep.2, settle_fixed hblocks⟩

/-- The loop ends. -/
theorem exists_refClusters : ∃ fuel blocks, r.refClusters fuel = some ((blocks : Nat) : Int) := by
  obtain ⟨fuel, blocks, hblocks⟩ :=
    exists_settle blocksFor_mono (firstBlocks_le_blocksFor (r := r) _) (blocksFor_le le_rfl) firstBlocks_le
  exact ⟨fuel, blocks, by rw [refClusters_eq h, hblocks, Option.map_some]⟩

end Fits

section Settled

variable (h : r.L1Fits) {blocks : Nat} (hs : r.Settled blocks)

include h hs

theorem blocks_mul_le : blocks * r.clusterSize ≤ 2 ^ 27 := by
  have hc := r.clusterSize_le
  have hmul := Nat.mul_le_mul_right r.clusterSize hs.le
  have hfixed := fixedClusters_mul_le h
  have hdiv : r.fixedClusters / 64 * r.clusterSize ≤ r.fixedClusters * r.clusterSize / 64 := by
    rw [Nat.le_div_iff_mul_le (by norm_num), Nat.mul_right_comm]
    exact Nat.mul_le_mul_right _ (Nat.div_mul_le_self _ _)
  rw [maxBlocks, Nat.add_mul] at hmul
  omega

theorem tableClusters_mul_le : r.tableClusters blocks * r.clusterSize ≤ 2 ^ 22 := by
  have hc := r.clusterSize_le
  have hmul : r.tableClusters blocks * r.clusterSize ≤ blocks * 8 + (r.clusterSize - 1) := Nat.div_mul_le_self _ _
  have hle := hs.le.trans (maxBlocks_le h)
  omega

theorem tableBytes_eq : r.tableBytes blocks = (r.tableClusters blocks * r.clusterSize : Nat) := by
  have hle := tableClusters_mul_le h hs
  rw [tableBytes, reftableClusters_natCast h hs.le, ← Nat.cast_mul, int32_of_lt (Int.natCast_nonneg _) (by omega)]

theorem blockBytes_eq : r.blockBytes blocks = (blocks * r.clusterSize : Nat) := by
  have hle := blocks_mul_le h hs
  rw [blockBytes, ← Nat.cast_mul, int32_of_lt (Int.natCast_nonneg _) (by omega)]

theorem refcountBlockOffset_eq :
    r.refcountBlockOffset blocks = (r.fixedClusters + r.tableClusters blocks) * r.clusterSize := by
  have htable := tableClusters_mul_le h hs
  have hfixed := fixedClusters_mul_le h
  rw [refcountBlockOffset, refcountTableOffset_eq h, tableBytes_eq h hs, ← Nat.cast_add, ← Nat.add_mul,
    uint64_of_lt (by rw [Nat.add_mul]; omega)]

theorem updatedEntries_eq :
    r.updatedEntries blocks = (List.range (r.fixedClusters + r.tableClusters blocks + blocks)).map Nat.cast := by
  have hc := r.clusterSize_pos
  have htable := tableClusters_mul_le h hs
  have hfixed := fixedClusters_mul_le h
  have hl1 : r.l1Size * 8 = (r.l1Size.toNat * 8 : Nat) := by
    have hlo := h.1
    omega
  have hceil : ∀ n, (n * r.clusterSize + (r.clusterSize - 1)) / r.clusterSize = n := fun n => by
    rw [Nat.add_comm, Nat.add_mul_div_right _ _ hc, Nat.div_eq_of_lt (by omega), Nat.zero_add]
  have hhead : clusterRange r.clusterSize 0 r.headerSize = (List.range r.headClusters).map Nat.cast := by
    have hrange := clusterRange_natCast hc 0 r.headerSize
    rw [headClusters]
    simpa using hrange
  have hl1Range : clusterRange r.clusterSize r.l1TableOffset (r.l1Size * 8) =
      (List.range r.l1Clusters).map fun i : Nat => (r.headClusters + i : Int) := by
    rw [hl1, l1TableOffset_eq, clusterRange_natCast hc, l1Clusters]
  have htableRange : clusterRange r.clusterSize (int64 r.refcountTableOffset) (r.tableBytes blocks) =
      (List.range (r.tableClusters blocks)).map fun i : Nat => (r.fixedClusters + i : Int) := by
    rw [refcountTableOffset_eq h, int64_of_lt (by omega) (by omega), tableBytes_eq h hs, clusterRange_natCast hc, hceil]
  have hblockRange : clusterRange r.clusterSize (int64 (r.refcountBlockOffset blocks)) (r.blockBytes blocks) =
      (List.range blocks).map fun i : Nat => ((r.fixedClusters + r.tableClusters blocks : Nat) + i : Int) := by
    rw [refcountBlockOffset_eq h hs, int64_of_lt (by omega) (by rw [Nat.add_mul]; omega), blockBytes_eq h hs,
      clusterRange_natCast hc, hceil]
  rw [updatedEntries, hhead, hl1Range, htableRange, hblockRange, fixedClusters]
  simp only [List.range_add, List.map_append, List.map_map, Function.comp_def, Nat.cast_add]

omit h in
/-- There is an entry for each cluster. -/
theorem totalClusters_le : (r.fixedClusters + r.tableClusters blocks + blocks) * 2 ≤ blocks * r.clusterSize := by
  have hfixed := hs.fixed
  have hdiv := Nat.lt_div_mul_add r.clusterSize_pos (a := r.totalClusters blocks * 2 + (r.clusterSize - 1))
  rw [← blocksFor, hfixed] at hdiv
  rw [totalClusters] at hdiv
  omega

/-- All entries that are counted are in the refcount blocks. -/
theorem entries_inside {i : Int} (hi : i ∈ r.updatedEntries blocks) :
    0 ≤ i ∧ i < ((r.blockBytes blocks).toNat / 2 : Nat) := by
  have htotal := totalClusters_le hs
  rw [updatedEntries_eq h hs] at hi
  obtain ⟨n, hn, rfl⟩ := List.mem_map.mp hi
  rw [List.mem_range] at hn
  rw [blockBytes_eq h hs, Int.toNat_natCast]
  omega

end Settled

end CreateRequest

end Colama.Qemu.Qcow2

import Mathlib
import Colama.Qemu.Qcow2.TableGrowth

namespace Colama.Qemu.Qcow2

open Lib

namespace TableGrowth

variable (g : TableGrowth)

theorem clusterSize_eq : g.clusterSize = 8 * g.clusterEntries := by
  have h := g.minClusterBits
  show 2 ^ g.clusterBits = 2 ^ 3 * 2 ^ (g.clusterBits - 3)
  rw [← pow_add, Nat.add_sub_cancel' (by omega)]

theorem refcountBlockClusters_eq : g.refcountBlockClusters = 4 * g.clusterEntries := by
  have h := g.minClusterBits
  show 2 ^ (g.clusterBits - 1) = 2 ^ 2 * 2 ^ (g.clusterBits - 3)
  rw [← pow_add, show 2 + (g.clusterBits - 3) = g.clusterBits - 1 by omega]

theorem clusterEntries_ge : 64 ≤ g.clusterEntries := by
  have h := g.minClusterBits
  exact Nat.pow_le_pow_right (show 0 < 2 by omega) (show 6 ≤ g.clusterBits - 3 by omega)

theorem clusterEntries_le : g.clusterEntries ≤ 2 ^ 18 := by
  have h := g.maxClusterBits
  exact Nat.pow_le_pow_right (by omega) (by omega)

theorem sizeToClusters_eq (size : Nat) :
    g.sizeToClusters size = (size + (8 * g.clusterEntries - 1)) / (8 * g.clusterEntries) := by
  rw [sizeToClusters, Nat.shiftRight_eq_div_pow, show 2 ^ g.clusterBits = g.clusterSize from rfl, clusterSize_eq]

/-- A table of whole clusters takes these. -/
theorem tableClusters_eq (clusters : Nat) : g.tableClusters (clusters * g.clusterEntries) = clusters := by
  have h := g.clusterEntries_ge
  rw [tableClusters, sizeToClusters_eq, Nat.mul_assoc, Nat.mul_comm g.clusterEntries 8, Nat.add_comm,
    Nat.add_mul_div_right _ _ (by omega), Nat.div_eq_of_lt (by omega), Nat.zero_add]

/-- The loop counts an eighth of the clusters. -/
theorem sizeToClusters_entries (clusters : Nat) :
    g.sizeToClusters (clusters * g.clusterEntries) = (clusters + 7) / 8 := by
  have h := g.clusterEntries_ge
  rw [sizeToClusters_eq, Nat.mul_comm 8, ← Nat.div_div_eq_div_mul, Nat.add_comm, Nat.add_mul_div_right _ _ (by omega)]
  have hdiv : (g.clusterEntries * 8 - 1) / g.clusterEntries = 7 := by
    apply Nat.div_eq_of_lt_le <;> omega
  rw [hdiv, Nat.add_comm]

/-- The new blocks have room for the table just if it is two clusters smaller than a cluster has bytes. -/
theorem entries_fit (clusters : Nat) :
    clusters + g.blocksClusters (clusters * g.clusterEntries) ≤
        g.blocksClusters (clusters * g.clusterEntries) * g.refcountBlockClusters ↔ clusters + 2 ≤ g.clusterSize := by
  have he := g.clusterEntries_ge
  rw [blocksClusters, sizeToClusters_entries, refcountBlockClusters_eq, clusterSize_eq]
  generalize g.clusterEntries = e at he ⊢
  generalize ht : (clusters + 7) / 8 = t
  generalize hq : (t + 4 * e - 1) / (4 * e) = q
  have hlow : 4 * (q * e) ≤ t + 4 * e - 1 := by
    calc 4 * (q * e) = q * (4 * e) := Nat.mul_left_comm 4 q e
      _ ≤ t + 4 * e - 1 := hq ▸ Nat.div_mul_le_self _ _
  have hhigh : t + 4 * e - 1 < 4 * (q * e) + 4 * e := by
    calc t + 4 * e - 1 < (q + 1) * (4 * e) := (Nat.div_lt_iff_lt_mul (by omega)).mp (hq ▸ Nat.lt_succ_self q)
      _ = 4 * (q * e) + 4 * e := by rw [Nat.succ_mul, Nat.mul_left_comm]
  have hroom : (1 + q) * (4 * e) = 4 * e + 4 * (q * e) := by
    rw [Nat.add_mul, Nat.one_mul, Nat.mul_left_comm]
  rw [hroom]
  match q with
  | 0 => omega
  | 1 => omega
  | q + 2 =>
    have hmany : 2 * e ≤ (q + 2) * e := Nat.mul_le_mul_right e (by omega)
    generalize (q + 2) * e = n at hlow hhigh hmany ⊢
    omega

/-- One block more than are used is then enough, for the loop and for the new blocks. -/
theorem metaBlocks_of_fit {clusters : Nat} (hpos : 0 < clusters) (hfit : clusters + 2 ≤ g.clusterSize) :
    g.blocksClusters (clusters * g.clusterEntries) = 2 ∧ g.metaBlocks (clusters * g.clusterEntries) = 1 := by
  have he := g.clusterEntries_ge
  rw [clusterSize_eq] at hfit
  have hblocks : g.blocksClusters (clusters * g.clusterEntries) = 2 := by
    rw [blocksClusters, sizeToClusters_entries, refcountBlockClusters_eq]
    have hone : ((clusters + 7) / 8 + 4 * g.clusterEntries - 1) / (4 * g.clusterEntries) = 1 := by
      apply Nat.div_eq_of_lt_le <;> omega
    rw [hone]
  refine ⟨hblocks, ?_⟩
  rw [metaBlocks, hblocks, sizeToClusters_entries, refcountBlockClusters_eq]
  apply Nat.div_eq_of_lt_le <;> omega

theorem growClusters_eq {k : Nat} (h : k < 2 ^ 30) : growClusters k = (k * 3 + 1) / 2 := by
  rw [growClusters, Nat.mod_eq_of_lt (by omega)]

/-- `next_refcount_table_size` takes the first table of the sizes it can grow to that has more entries. -/
theorem nextRefcountTableSize_eq {minSize : Nat} (hmin : minSize < 2 ^ 32) :
    g.nextRefcountTableSize minSize =
      climb (fun k => (k * 3 + 1) / 2) (minSize / g.clusterEntries + 1) (minSize / g.clusterEntries + 1)
        (max 1 (g.refcountTableSize / g.clusterEntries)) * g.clusterEntries % 2 ^ 32 := by
  have he := g.clusterEntries_ge
  have hbound : minSize / g.clusterEntries + 1 < 2 ^ 30 := by
    have hle : minSize / g.clusterEntries ≤ minSize / 64 := Nat.div_le_div_left he (by omega)
    omega
  rw [nextRefcountTableSize, Nat.shiftLeft_eq, Nat.shiftRight_eq_div_pow, Nat.shiftRight_eq_div_pow]
  show climb growClusters (minSize / g.clusterEntries + 1) _ _ * g.clusterEntries % 2 ^ 32 = _
  rw [climb_congr fun y hy => growClusters_eq (by omega)]
  rfl

/-- The clusters of the table that has more entries, before the product with the entries of one is truncated. -/
def grownClusters (minSize : Nat) : Nat :=
  climb (fun k => (k * 3 + 1) / 2) (minSize / g.clusterEntries + 1) (minSize / g.clusterEntries + 1)
    (max 1 (g.refcountTableSize / g.clusterEntries))

theorem lt_grownClusters (minSize : Nat) : minSize < g.grownClusters minSize * g.clusterEntries := by
  have he := g.clusterEntries_ge
  have hreach : minSize / g.clusterEntries < g.grownClusters minSize :=
    Nat.lt_of_succ_le (le_climb (fun y _ _ => by omega) (Nat.le_add_left _ _))
  exact (Nat.div_lt_iff_lt_mul (by omega)).mp hreach

theorem grownClusters_le {minSize n : Nat}
    (h : minSize < (fun k => (k * 3 + 1) / 2)^[n] (max 1 (g.refcountTableSize / g.clusterEntries)) * g.clusterEntries) :
    g.grownClusters minSize ≤
      (fun k => (k * 3 + 1) / 2)^[n] (max 1 (g.refcountTableSize / g.clusterEntries)) := by
  have he := g.clusterEntries_ge
  exact climb_le (fun y => by omega) ((Nat.div_lt_iff_lt_mul (by omega)).mpr h)

/-- A size that was truncated would not be more than what it was computed for. -/
theorem nextRefcountTableSize_of_lt {minSize : Nat} (hmin : minSize < 2 ^ 32)
    (h : minSize < g.nextRefcountTableSize minSize) :
    g.nextRefcountTableSize minSize = g.grownClusters minSize * g.clusterEntries := by
  have he := g.clusterEntries_ge
  have he' := g.clusterEntries_le
  have heq : g.nextRefcountTableSize minSize = g.grownClusters minSize * g.clusterEntries % 2 ^ 32 :=
    g.nextRefcountTableSize_eq hmin
  rw [heq] at h ⊢
  apply Nat.mod_eq_of_lt
  by_contra hwrap
  rw [Nat.not_lt] at hwrap
  have hclimb : g.grownClusters minSize = max 1 (g.refcountTableSize / g.clusterEntries) ∨
      ∃ y, y < minSize / g.clusterEntries + 1 ∧ g.grownClusters minSize = (y * 3 + 1) / 2 := climb_eq_or
  rcases hclimb with hstart | hstep
  · have hle : g.grownClusters minSize * g.clusterEntries < 2 ^ 32 := by
      rw [hstart]
      rcases Nat.le_total (g.refcountTableSize / g.clusterEntries) 1 with hsmall | hlarge
      · rw [Nat.max_eq_left hsmall]
        omega
      · rw [Nat.max_eq_right hlarge]
        exact (Nat.div_mul_le_self _ _).trans_lt g.isUInt32
    omega
  · obtain ⟨y, hy, hgrown⟩ := hstep
    have hsize : y * g.clusterEntries ≤ minSize :=
      (Nat.le_div_iff_mul_le (by omega)).mp (Nat.le_of_lt_succ hy)
    have hdouble : 2 * (g.grownClusters minSize * g.clusterEntries) ≤ 3 * (y * g.clusterEntries) + g.clusterEntries := by
      calc 2 * (g.grownClusters minSize * g.clusterEntries)
          = (2 * ((y * 3 + 1) / 2)) * g.clusterEntries := by rw [hgrown, Nat.mul_assoc]
        _ ≤ (3 * y + 1) * g.clusterEntries := Nat.mul_le_mul_right _ (by omega)
        _ = 3 * (y * g.clusterEntries) + g.clusterEntries := by rw [Nat.succ_mul, Nat.mul_assoc]
    omega

/-- What the loop ends with is a size that it leaves as it is. -/
theorem tableSizeLoop_some {fuel start tableSize blocksClusters : Nat}
    (h : g.tableSizeLoop fuel start = some (tableSize, blocksClusters)) :
    g.nextRefcountTableSize ((g.blocksUsed + g.metaBlocks tableSize) % 2 ^ 32) = tableSize ∧
      g.blocksClusters tableSize = blocksClusters := by
  induction fuel generalizing start with
  | zero => cases h
  | succ fuel ih =>
    rw [tableSizeLoop] at h
    split at h
    · exact ih h
    · rename_i heq
      rw [not_not] at heq
      cases h
      rw [← heq]
      exact ⟨heq.symm, rfl⟩

theorem entries_dvd_nextRefcountTableSize (minSize : Nat) : g.clusterEntries ∣ g.nextRefcountTableSize minSize := by
  have hpow : g.clusterEntries ∣ 2 ^ 32 :=
    Nat.pow_dvd_pow 2 ((Nat.sub_le _ _).trans (g.maxClusterBits.trans (by omega)))
  rw [nextRefcountTableSize, Nat.shiftLeft_eq]
  exact (Nat.dvd_mod_iff hpow).mpr (Nat.dvd_mul_left _ _)

theorem blocksUsed_bounds : g.freeClusterIndex ≤ g.blocksUsed * g.refcountBlockClusters ∧
    g.blocksUsed * g.refcountBlockClusters ≤ g.freeClusterIndex + g.refcountBlockClusters - 1 := by
  have hpos : 0 < g.refcountBlockClusters := Nat.two_pow_pos _
  refine ⟨?_, Nat.div_mul_le_self _ _⟩
  have hlt : g.freeClusterIndex + g.refcountBlockClusters - 1 <
      g.blocksUsed * g.refcountBlockClusters + g.refcountBlockClusters := by
    rw [← Nat.succ_mul]
    exact (Nat.div_lt_iff_lt_mul hpos).mp (Nat.lt_succ_self _)
  omega

/-- The cluster is one that the blocks in use are for. -/
theorem refcountTableIndex_lt : g.refcountTableIndex < g.blocksUsed ∧
    g.refcountTableSize * g.refcountBlockClusters ≤ g.clusterIndex := by
  have hpos : 0 < g.refcountBlockClusters := Nat.two_pow_pos _
  have hle : g.refcountTableIndex ≤ g.clusterIndex / g.refcountBlockClusters := by
    rw [refcountTableIndex, Nat.shiftRight_eq_div_pow]
    exact Nat.mod_le _ _
  constructor
  · apply hle.trans_lt
    exact (Nat.div_lt_iff_lt_mul hpos).mpr (g.handedOut.trans_le g.blocksUsed_bounds.1)
  · exact (Nat.le_div_iff_mul_le hpos).mp (g.mustGrow.trans hle)

theorem metaOffset_eq : g.metaOffset = g.blocksUsed * g.refcountBlockClusters * g.clusterSize := by
  have he := g.clusterEntries_le
  have hoffset := g.isOffset
  have hhanded := g.handedOut
  have hblock : g.refcountBlockClusters * g.clusterSize ≤ 2 ^ 41 := by
    rw [refcountBlockClusters_eq, clusterSize_eq]
    calc 4 * g.clusterEntries * (8 * g.clusterEntries) ≤ 4 * 2 ^ 18 * (8 * 2 ^ 18) :=
          Nat.mul_le_mul (Nat.mul_le_mul_left 4 he) (Nat.mul_le_mul_left 8 he)
      _ = 2 ^ 41 := rfl
  apply Nat.mod_eq_of_lt
  calc g.blocksUsed * g.refcountBlockClusters * g.clusterSize
      ≤ (g.freeClusterIndex - 1 + g.refcountBlockClusters) * g.clusterSize :=
        Nat.mul_le_mul_right _ (g.blocksUsed_bounds.2.trans (by omega))
    _ = (g.freeClusterIndex - 1) * 2 ^ g.clusterBits + g.refcountBlockClusters * g.clusterSize := Nat.add_mul _ _ _
    _ < 2 ^ 64 := by omega

theorem past_metaOffset {k : Nat}
    (h : k < g.freeClusterIndex ∨ k < g.refcountTableSize * g.refcountBlockClusters) :
    (k + 1) * g.clusterSize ≤ g.metaOffset := by
  have hcluster := g.refcountTableIndex_lt.2
  have hhanded := g.handedOut
  have hused := g.blocksUsed_bounds.1
  rw [metaOffset_eq]
  apply Nat.mul_le_mul_right
  omega

/-- The growth of the refcount table ends, and all that it writes is in bounds and past what is in use, just if
the table grows to a size inside. -/
theorem grownTable_inBounds :
    (∃ fuel tableSize blocksClusters, g.grownTable fuel = some (tableSize, blocksClusters) ∧
      g.InBounds tableSize blocksClusters) ↔ g.GrowsInside := by
  have he := g.clusterEntries_ge
  constructor
  · rintro ⟨fuel, tableSize, blocksClusters, hloop, hin⟩
    obtain ⟨hfixed, hblocks⟩ := g.tableSizeLoop_some hloop
    obtain ⟨clusters, hclusters⟩ := hfixed ▸ g.entries_dvd_nextRefcountTableSize _
    rw [Nat.mul_comm] at hclusters
    have hlt : tableSize < 2 ^ 32 := by
      rw [← hfixed]
      exact Nat.mod_lt _ (by omega)
    have hfit : clusters + 2 ≤ g.clusterSize := by
      have hentries := hin.entries
      rw [← hblocks, hclusters, tableClusters_eq] at hentries
      exact (g.entries_fit clusters).mp hentries
    have hone : 1 ≤ blocksClusters := by
      rw [← hblocks]
      exact Nat.le_add_right 1 _
    have hused := hin.blocks
    have hpos : 0 < clusters := by
      apply Nat.pos_of_ne_zero
      rintro rfl
      omega
    obtain ⟨htwo, hmeta⟩ := g.metaBlocks_of_fit hpos hfit
    rw [← hclusters] at htwo hmeta
    have hused' : g.blocksUsed + 2 ≤ tableSize := by rwa [← htwo, hblocks]
    rw [hmeta, Nat.mod_eq_of_lt (by omega)] at hfixed
    have hgrown := g.nextRefcountTableSize_of_lt (show g.blocksUsed + 1 < 2 ^ 32 by omega) (by omega)
    rw [hfixed, hclusters] at hgrown
    have heq := Nat.eq_of_mul_eq_mul_right (by omega) hgrown
    obtain ⟨n, hn⟩ : ∃ n, g.grownClusters (g.blocksUsed + 1) =
        (fun k => (k * 3 + 1) / 2)^[n] (max 1 (g.refcountTableSize / g.clusterEntries)) := climb_eq_iterate
    refine ⟨n, ?_⟩
    rw [← hn, ← heq]
    have hroom : g.blocksUsed + 1 < clusters * g.clusterEntries := by omega
    exact ⟨hroom, hfit, hclusters ▸ hlt⟩
  · rintro ⟨n, hused, hfit, hlt⟩
    have hle := g.grownClusters_le hused
    have hmore := g.lt_grownClusters (g.blocksUsed + 1)
    have hsize : g.grownClusters (g.blocksUsed + 1) * g.clusterEntries < 2 ^ 32 :=
      (Nat.mul_le_mul_right _ hle).trans_lt hlt
    have hnext : g.nextRefcountTableSize ((g.blocksUsed + 1) % 2 ^ 32) =
        g.grownClusters (g.blocksUsed + 1) * g.clusterEntries := by
      rw [Nat.mod_eq_of_lt (by omega)]
      exact (g.nextRefcountTableSize_eq (by omega)).trans (Nat.mod_eq_of_lt hsize)
    generalize g.grownClusters (g.blocksUsed + 1) = clusters at hle hmore hsize hnext
    have hpos : 0 < clusters := by
      apply Nat.pos_of_ne_zero
      rintro rfl
      omega
    have hfit' : clusters + 2 ≤ g.clusterSize := by omega
    obtain ⟨htwo, hmeta⟩ := g.metaBlocks_of_fit hpos hfit'
    refine ⟨1, clusters * g.clusterEntries, 2, ?_, ?_, ?_, ?_, fun k => g.past_metaOffset⟩
    · rw [grownTable, tableSizeLoop, hnext, hmeta, hnext, htwo]
      exact if_neg (not_not.mpr rfl)
    · exact hmore
    · have hindex := g.refcountTableIndex_lt.1
      omega
    · rw [tableClusters_eq]
      have hentries := (g.entries_fit clusters).mpr hfit'
      rwa [htwo] at hentries

/-- Clusters of 512 bytes, and a table of 473 of them that is full: 710 clusters of the new one do not fit two
blocks of 256 counts. -/
def fullTable : TableGrowth where
  clusterBits := 9
  minClusterBits := by decide
  maxClusterBits := le_of_lt (by decide)
  refcountTableSize := 473 * 64
  isUInt32 := by decide
  freeClusterIndex := 473 * 64 * 256 + 2
  clusterIndex := 473 * 64 * 256
  handedOut := by decide
  isOffset := by decide
  mustGrow := by decide

theorem fullTable_overflows : ¬ ∃ fuel tableSize blocksClusters,
    fullTable.grownTable fuel = some (tableSize, blocksClusters) ∧ fullTable.InBounds tableSize blocksClusters := by
  rintro ⟨fuel, tableSize, blocksClusters, hloop, hin⟩
  have hfirst : fullTable.nextRefcountTableSize ((fullTable.blocksUsed + 1) % 2 ^ 32) = 45440 := by decide
  have hnext : fullTable.nextRefcountTableSize ((fullTable.blocksUsed + fullTable.metaBlocks 45440) % 2 ^ 32) = 45440 := by
    decide
  have hblocks : fullTable.blocksClusters 45440 = 2 := by decide
  rw [grownTable, hfirst] at hloop
  cases fuel with
  | zero => cases hloop
  | succ fuel =>
    rw [tableSizeLoop, hnext, hblocks] at hloop
    cases hloop
    have hentries := hin.entries
    revert hentries
    decide

end TableGrowth

end Colama.Qemu.Qcow2

import Colama.Qemu.Qcow2.ClusterOffset

namespace Colama.Qemu.Qcow2

/-- Where a sector of the guest is: nowhere in the file, at an offset of it, or in the cluster that a compressed
entry names. -/
inductive SectorMap
  | unallocated
  | host (offset : Nat)
  | compressed (entry : BitVec 64) (index : Nat)
  deriving DecidableEq

/-- What an entry without its copied flag says of the sector of its cluster. -/
def mapOf (entry : BitVec 64) (index : Nat) : SectorMap :=
  if entry = 0 then .unallocated
  else if isCompressed entry then .compressed entry index
  else .host (entry.toNat + index * 512)

theorem clearCopied_toNat (entry : BitVec 64) : (clearCopied entry).toNat = entry.toNat % 2 ^ 63 := by
  apply Nat.eq_of_testBit_eq
  intro i
  rw [clearCopied, qcowOflagCopied, BitVec.testBit_toNat, BitVec.getLsbD_and, BitVec.getLsbD_not, BitVec.getLsbD_twoPow,
    Nat.testBit_mod_two_pow, BitVec.testBit_toNat]
  by_cases hi : i < 64
  · by_cases hcopied : i = 63
    · subst hcopied
      simp
    · have hlt : i < 63 := by omega
      have hne : 63 ≠ i := fun h => hcopied h.symm
      simp [hi, hlt, hne]
  · rw [BitVec.getLsbD_of_ge _ _ (by omega)]
    simp

theorem clearCopied_lt (entry : BitVec 64) : (clearCopied entry).toNat < 2 ^ 63 := by
  rw [clearCopied_toNat]
  exact Nat.mod_lt _ (by omega)

@[simp] theorem clearCopied_zero : clearCopied 0 = 0 := by decide

theorem clearCopied_eq_zero {entry : BitVec 64} : clearCopied entry = 0 ↔ entry = 0 ∨ entry = qcowOflagCopied := by
  have hcopied : qcowOflagCopied.toNat = 2 ^ 63 := by decide
  have hzero : (0 : BitVec 64).toNat = 0 := rfl
  have hlt := entry.isLt
  rw [← BitVec.toNat_inj, ← BitVec.toNat_inj, ← BitVec.toNat_inj, clearCopied_toNat, hcopied, hzero]
  omega

theorem countWhile_spec (test : Nat → Bool) (n i : Nat) :
    i ≤ countWhile test n i ∧ countWhile test n i ≤ i + n ∧ (∀ j, i ≤ j → j < countWhile test n i → test j = true) ∧
      (countWhile test n i < i + n → test (countWhile test n i) = false) := by
  induction n generalizing i with
  | zero => exact ⟨le_rfl, le_rfl, fun j hj hlt => absurd hlt (Nat.not_lt.mpr hj), fun h => absurd h (Nat.lt_irrefl _)⟩
  | succ n ih =>
    rw [countWhile]
    split
    · rename_i htest
      obtain ⟨hle, hle', hall, hend⟩ := ih (i + 1)
      refine ⟨by omega, by omega, fun j hj hlt => ?_, fun h => hend (by omega)⟩
      rcases Nat.eq_or_lt_of_le hj with rfl | hj
      · exact htest
      · exact hall j hj hlt
    · rename_i htest
      refine ⟨le_rfl, by omega, fun j hj hlt => absurd hlt (Nat.not_lt.mpr hj), fun _ => ?_⟩
      exact Bool.eq_false_iff.mpr htest

namespace Tables

variable (t : Tables)

/-- The entries of the L2 table that the L1 table has at an index, all of them zero if it has none. The load may
fail. -/
def l2At (l1Index : Nat) : Option (Nat → BitVec 64) :=
  if l1Index ≥ t.l1Size then some fun _ => 0
  else if t.l1Table l1Index = 0 then some fun _ => 0
  else t.l2Load (clearCopied (t.l1Table l1Index))

/-- Where the tables have a sector of the guest. -/
def sectorMap (sector : Nat) : Option SectorMap :=
  (t.l2At (sector / t.clusterSectors / t.l2Size)).map fun l2Table =>
    mapOf (clearCopied (l2Table (sector / t.clusterSectors % t.l2Size))) (sector % t.clusterSectors)

/-- What is to hold of `*num` and `*cluster_offset`. -/
structure OneMapping (r : ClusterRequest) (result : Int × BitVec 64) : Prop where
  pos : 1 ≤ result.1
  le : result.1 ≤ r.num
  /-- Every sector is where the returned offset has the one that is as far from the start of its cluster. -/
  mapped : ∀ i : Nat, i < result.1 →
    t.sectorMap (r.offset / 512 + i) = some (mapOf result.2 (t.indexInCluster r.offset + i))
  cache : isCompressed result.2 = true → t.cacheCopyEnd r.offset result.1 ≤ t.clusterSize

/-- The entries from that of the offset on, where the code finds them. -/
def foundEntries (offset : Nat) : Option (Nat → BitVec 64) :=
  (t.l2At ((offset >>> t.l1Bits) % 2 ^ 32)).map fun l2Table i => l2Table ((offset >>> t.clusterBits) % t.l2Size + i)

/-- What the entries have to be for the mapping to be one. -/
structure Unmixed (r : ClusterRequest) (entries : Nat → BitVec 64) : Prop where
  /-- There is a sector before the end of what the entry of the L1 table describes. -/
  sector : 512 ≤ 2 ^ t.l1Bits - r.offset % 2 ^ t.l1Bits
  /-- The index into the L1 table fits an unsigned int unless what is found is free. -/
  index : entries 0 ≠ 0 → r.offset >>> t.l1Bits < 2 ^ 32
  /-- No entry is the copied flag alone. -/
  flagged : entries 0 ≠ qcowOflagCopied
  /-- A compressed cluster is not read past its end, or the next entry is not greater by a cluster. -/
  compressed : isCompressed (clearCopied (entries 0)) = true → t.nbNeeded r ≤ t.clusterSectors ∨
    (clearCopied (entries 1)).toNat ≠ (clearCopied (entries 0)).toNat + t.clusterSize
  /-- Entries that are greater by one cluster each do not run into the flag of the compressed ones. -/
  standard : entries 0 ≠ 0 → isCompressed (clearCopied (entries 0)) = false → ∀ i < t.nbClusters r,
    (∀ j ≤ i, (clearCopied (entries j)).toNat = (clearCopied (entries 0)).toNat + j * t.clusterSize) →
      isCompressed (clearCopied (entries i)) = false

theorem clusterSectors_pos : 0 < t.clusterSectors := Nat.two_pow_pos _

theorem l2Size_pos : 0 < t.l2Size := Nat.two_pow_pos _

theorem clusterSize_eq : t.clusterSize = t.clusterSectors * 512 := by
  have h := t.minClusterBits
  show 2 ^ t.clusterBits = 2 ^ (t.clusterBits - 9) * 2 ^ 9
  rw [← pow_add, Nat.sub_add_cancel h]

theorem l1Size_eq : 2 ^ t.l1Bits = t.l2Size * t.clusterSize := pow_add 2 t.l2Bits t.clusterBits

theorem l1Size_le : 2 ^ t.l1Bits ≤ 2 ^ 39 := by
  have h := t.maxClusterBits
  apply Nat.pow_le_pow_right (by omega)
  rw [l1Bits, l2Bits]
  omega

/-- The first sector, its cluster and the place of that in its L2 table. -/
theorem offset_shifts (offset : Nat) : t.indexInCluster offset = offset / 512 % t.clusterSectors ∧
    offset >>> t.clusterBits = offset / 512 / t.clusterSectors ∧
    offset >>> t.l1Bits = offset / 512 / t.clusterSectors / t.l2Size := by
  have hcluster : offset >>> t.clusterBits = offset / 512 / t.clusterSectors := by
    rw [Nat.shiftRight_eq_div_pow, show 2 ^ t.clusterBits = t.clusterSize from rfl, clusterSize_eq, Nat.mul_comm,
      Nat.div_div_eq_div_mul]
  refine ⟨?_, hcluster, ?_⟩
  · rw [indexInCluster, Nat.shiftRight_eq_div_pow]
  · rw [l1Bits, Nat.add_comm, Nat.shiftRight_add, hcluster, Nat.shiftRight_eq_div_pow]
    rfl

/-- What is available stays in the L2 table. -/
theorem nbAvailable_le (offset : Nat) :
    t.nbAvailable offset ≤ (t.l2Size - offset / 512 / t.clusterSectors % t.l2Size) * t.clusterSectors := by
  have hrest : offset % 2 ^ t.l1Bits = 512 * (t.clusterSectors * (offset / 512 / t.clusterSectors % t.l2Size) +
      offset / 512 % t.clusterSectors) + offset % 512 := by
    rw [l1Size_eq, clusterSize_eq, Nat.mul_comm t.l2Size, Nat.mul_comm t.clusterSectors, Nat.mul_assoc, Nat.mod_mul,
      Nat.mod_mul, Nat.add_comm, Nat.add_comm (offset / 512 % t.clusterSectors)]
  have hlt := Nat.mod_lt (offset / 512 / t.clusterSectors) t.l2Size_pos
  have hindex := Nat.mod_lt (offset / 512) t.clusterSectors_pos
  rw [nbAvailable, hrest, (t.offset_shifts offset).1, Nat.shiftRight_eq_div_pow, l1Size_eq, clusterSize_eq]
  generalize offset / 512 / t.clusterSectors % t.l2Size = place at hlt ⊢
  generalize offset / 512 % t.clusterSectors = index at hindex ⊢
  obtain ⟨left, hleft⟩ : ∃ left, t.l2Size = place + left := ⟨t.l2Size - place, by omega⟩
  rw [hleft, Nat.add_sub_cancel_left, Nat.add_mul, ← Nat.mul_assoc place, ← Nat.mul_assoc left,
    Nat.mul_comm t.clusterSectors place]
  generalize place * t.clusterSectors = a
  have hpos : t.clusterSectors ≤ left * t.clusterSectors := Nat.le_mul_of_pos_left _ (by omega)
  generalize left * t.clusterSectors = b at hpos ⊢
  omega

theorem nbNeeded_le (r : ClusterRequest) : t.nbNeeded r ≤ t.nbAvailable r.offset := Nat.min_le_right _ _

/-- `nb_clusters` are just enough for `nb_needed`. -/
theorem nbClusters_spec (r : ClusterRequest) : t.nbNeeded r ≤ t.nbClusters r * t.clusterSectors ∧
    (∀ c < t.nbClusters r, c * t.clusterSectors < t.nbNeeded r) := by
  have hpos := t.clusterSectors_pos
  have heq : t.nbClusters r = (t.nbNeeded r * 512 + (t.clusterSectors * 512 - 1)) / (t.clusterSectors * 512) := by
    rw [nbClusters, Nat.shiftRight_eq_div_pow, Nat.shiftLeft_eq, show 2 ^ t.clusterBits = t.clusterSize from rfl,
      clusterSize_eq]
  have hlow := Nat.div_mul_le_self (t.nbNeeded r * 512 + (t.clusterSectors * 512 - 1)) (t.clusterSectors * 512)
  have hhigh : t.nbNeeded r * 512 + (t.clusterSectors * 512 - 1) < (t.nbClusters r + 1) * (t.clusterSectors * 512) := by
    rw [heq]
    exact (Nat.div_lt_iff_lt_mul (by omega)).mp (Nat.lt_succ_self _)
  rw [← heq, ← Nat.mul_assoc] at hlow
  rw [Nat.succ_mul, ← Nat.mul_assoc] at hhigh
  refine ⟨by omega, fun c hc => ?_⟩
  have hle : (c + 1) * t.clusterSectors ≤ t.nbClusters r * t.clusterSectors := Nat.mul_le_mul_right _ hc
  rw [Nat.succ_mul] at hle
  omega

theorem nbClusters_le (r : ClusterRequest) :
    t.nbClusters r ≤ t.l2Size - r.offset / 512 / t.clusterSectors % t.l2Size := by
  by_contra hlt
  have hmore := (t.nbClusters_spec r).2 _ (Nat.not_le.mp hlt)
  have hle := (t.nbNeeded_le r).trans (t.nbAvailable_le r.offset)
  omega

/-- How many clusters the code takes to belong together. -/
def contiguous (r : ClusterRequest) (entries : Nat → BitVec 64) : Nat :=
  if entries 0 = 0 then countContiguousFreeClusters (t.nbClusters r) entries
  else countContiguousClusters (t.nbClusters r) t.clusterSize entries qcowOflagCopied

/-- Where there is no table the result is that of one of zeros. -/
theorem getClusterOffset_eq (r : ClusterRequest) : t.getClusterOffset r =
    (t.foundEntries r.offset).map fun entries =>
      t.clusterResult r (t.contiguous r entries * t.clusterSectors) (entries 0) := by
  have hzeros : t.clusterResult r (t.nbAvailable r.offset) 0 =
      t.clusterResult r (t.contiguous r (fun _ => 0) * t.clusterSectors) 0 := by
    have hall : t.contiguous r (fun _ => 0) = t.nbClusters r := by
      obtain ⟨-, hle, -, hend⟩ := countWhile_spec (fun _ => decide ((0 : BitVec 64) = 0)) (t.nbClusters r) 0
      rw [contiguous, if_pos rfl, countContiguousFreeClusters]
      by_contra hne
      exact Bool.noConfusion (hend (by omega))
    rw [clusterResult, clusterResult, hall, Nat.min_eq_right (t.nbNeeded_le r),
      Nat.min_eq_right (t.nbClusters_spec r).1]
  unfold getClusterOffset foundEntries findL2 l2At
  dsimp only
  by_cases hindex : (r.offset >>> t.l1Bits) % 2 ^ 32 ≥ t.l1Size
  · rw [if_pos hindex, if_pos hindex, hzeros]
    rfl
  · rw [if_neg hindex, if_neg hindex]
    by_cases hzero : t.l1Table ((r.offset >>> t.l1Bits) % 2 ^ 32) = 0
    · rw [if_pos hzero, if_pos hzero, hzeros]
      rfl
    · rw [if_neg hzero, if_neg hzero]
      cases t.l2Load (clearCopied (t.l1Table ((r.offset >>> t.l1Bits) % 2 ^ 32))) with
      | none => rfl
      | some l2Table => rfl

theorem contiguous_free (r : ClusterRequest) {entries : Nat → BitVec 64} (h : entries 0 = 0) :
    (0 < t.nbClusters r → 0 < t.contiguous r entries) ∧ t.contiguous r entries ≤ t.nbClusters r ∧
      ∀ j < t.contiguous r entries, entries j = 0 := by
  obtain ⟨-, hle, hall, hend⟩ := countWhile_spec (fun i => decide (entries i = 0)) (t.nbClusters r) 0
  rw [contiguous, if_pos h, countContiguousFreeClusters]
  refine ⟨fun hpos => ?_, by omega, fun j hj => of_decide_eq_true (hall j (Nat.zero_le j) hj)⟩
  apply Nat.pos_of_ne_zero
  intro hnone
  have hfirst := hend (by omega)
  rw [hnone] at hfirst
  exact of_decide_eq_false hfirst h

theorem contiguous_flag (r : ClusterRequest) {entries : Nat → BitVec 64} (h : entries 0 = qcowOflagCopied) :
    t.contiguous r entries = 0 := by
  have hne : entries 0 ≠ 0 := by
    rw [h]
    decide
  have hclear : clearCopied (entries 0) = 0 := clearCopied_eq_zero.mpr (.inr h)
  rw [contiguous, if_neg hne, countContiguousClusters]
  exact if_pos hclear

/-- The entries that are counted are greater by one cluster each, and the next one is not. -/
theorem contiguous_allocated (r : ClusterRequest) {entries : Nat → BitVec 64} (h : clearCopied (entries 0) ≠ 0) :
    t.contiguous r entries ≤ t.nbClusters r ∧
      (∀ j < t.contiguous r entries,
        (clearCopied (entries j)).toNat = (clearCopied (entries 0)).toNat + j * t.clusterSize) ∧
      (t.contiguous r entries < t.nbClusters r →
        (clearCopied (entries (t.contiguous r entries))).toNat ≠
          (clearCopied (entries 0)).toNat + t.contiguous r entries * t.clusterSize) := by
  have hne : entries 0 ≠ 0 := fun hzero => h (clearCopied_eq_zero.mpr (.inl hzero))
  have hlt := clearCopied_lt (entries 0)
  have hsum : ∀ j ≤ t.nbClusters r, (clearCopied (entries 0) + BitVec.ofNat 64 (j * t.clusterSize)).toNat =
      (clearCopied (entries 0)).toNat + j * t.clusterSize := by
    intro j hj
    have hsize : j * t.clusterSize ≤ 2 ^ 39 := by
      calc j * t.clusterSize ≤ t.l2Size * t.clusterSize :=
            Nat.mul_le_mul_right _ (hj.trans ((t.nbClusters_le r).trans (Nat.sub_le _ _)))
        _ ≤ 2 ^ 39 := t.l1Size_eq ▸ t.l1Size_le
    rw [BitVec.toNat_add, BitVec.toNat_ofNat, Nat.mod_eq_of_lt (by omega : j * t.clusterSize < 2 ^ 64),
      Nat.mod_eq_of_lt (by omega)]
  obtain ⟨-, hle, hall, hend⟩ := countWhile_spec
    (fun i => decide (clearCopied (entries 0) + BitVec.ofNat 64 (i * t.clusterSize) = clearCopied (entries i)))
    (t.nbClusters r) 0
  have hcount : t.contiguous r entries = countWhile
      (fun i => decide (clearCopied (entries 0) + BitVec.ofNat 64 (i * t.clusterSize) = clearCopied (entries i)))
      (t.nbClusters r) 0 := by
    rw [contiguous, if_neg hne, countContiguousClusters]
    exact if_neg h
  rw [← hcount] at hle hall hend
  refine ⟨by omega, fun j hj => ?_, fun hmore => ?_⟩
  · rw [← hsum j (by omega), of_decide_eq_true (hall j (Nat.zero_le j) hj)]
  · rw [← hsum _ hmore.le]
    exact fun heq => of_decide_eq_false (hend (by omega)) (BitVec.eq_of_toNat_eq heq.symm)

/-- A sector of the clusters that are counted, by the entries that are found. -/
theorem sectorMap_eq (r : ClusterRequest) {entries : Nat → BitVec 64} (hfound : t.foundEntries r.offset = some entries)
    {i : Nat} (hi : t.indexInCluster r.offset + i < t.nbClusters r * t.clusterSectors) :
    (r.offset >>> t.l1Bits < 2 ^ 32 → t.sectorMap (r.offset / 512 + i) =
        some (mapOf (clearCopied (entries ((t.indexInCluster r.offset + i) / t.clusterSectors)))
          ((t.indexInCluster r.offset + i) % t.clusterSectors))) ∧
      (2 ^ 32 ≤ r.offset >>> t.l1Bits → t.sectorMap (r.offset / 512 + i) = some .unallocated) := by
  have hpos := t.clusterSectors_pos
  obtain ⟨hindex, hcluster, htable⟩ := t.offset_shifts r.offset
  have hle := t.nbClusters_le r
  have hplace := Nat.mod_lt (r.offset / 512 / t.clusterSectors) t.l2Size_pos
  rw [hindex] at hi ⊢
  have hsector : r.offset / 512 + i =
      r.offset / 512 % t.clusterSectors + i + t.clusterSectors * (r.offset / 512 / t.clusterSectors) := by
    have hdiv := Nat.mod_add_div (r.offset / 512) t.clusterSectors
    omega
  have hcount : (r.offset / 512 % t.clusterSectors + i) / t.clusterSectors < t.nbClusters r :=
    (Nat.div_lt_iff_lt_mul hpos).mpr hi
  unfold sectorMap
  rw [hsector, Nat.add_mul_div_left _ _ hpos, Nat.add_mul_mod_self_left]
  unfold foundEntries at hfound
  rw [hcluster, htable] at hfound
  rw [htable]
  generalize r.offset / 512 / t.clusterSectors = cluster at *
  generalize (r.offset / 512 % t.clusterSectors + i) / t.clusterSectors = more at *
  have hsum : more + cluster = t.l2Size * (cluster / t.l2Size) + (cluster % t.l2Size + more) := by
    have hdiv := Nat.div_add_mod cluster t.l2Size
    omega
  have hquot : (more + cluster) / t.l2Size = cluster / t.l2Size := by
    rw [hsum, Nat.mul_add_div t.l2Size_pos,
      Nat.div_eq_of_lt (show cluster % t.l2Size + more < t.l2Size by omega), Nat.add_zero]
  have hrem : (more + cluster) % t.l2Size = cluster % t.l2Size + more := by
    rw [hsum, Nat.mul_add_mod, Nat.mod_eq_of_lt (show cluster % t.l2Size + more < t.l2Size by omega)]
  rw [hquot, hrem]
  constructor
  · intro hsmall
    rw [Nat.mod_eq_of_lt hsmall] at hfound
    obtain ⟨l2Table, hl2, rfl⟩ := Option.map_eq_some_iff.mp hfound
    rw [hl2]
    rfl
  · intro hlarge
    have hsize := t.isInt
    rw [l2At, if_pos (by omega)]
    exact congrArg some (if_pos clearCopied_zero)

theorem mapOf_zero (index : Nat) : mapOf 0 index = .unallocated := if_pos rfl

theorem mapOf_ne_unallocated {entry : BitVec 64} (h : entry ≠ 0) (index : Nat) : mapOf entry index ≠ .unallocated := by
  unfold mapOf
  rw [if_neg h]
  split <;> nofun

theorem mapOf_compressed {entry : BitVec 64} (h : entry ≠ 0) (hcompressed : isCompressed entry = true) (index : Nat) :
    mapOf entry index = .compressed entry index := by
  rw [mapOf, if_neg h, if_pos hcompressed]

theorem mapOf_standard {entry : BitVec 64} (h : entry ≠ 0) (hstandard : isCompressed entry = false) (index : Nat) :
    mapOf entry index = .host (entry.toNat + index * 512) := by
  rw [mapOf, if_neg h, hstandard, if_neg Bool.false_ne_true]

/-- The number of sectors, with the start of their cluster. -/
theorem clusterResult_num (r : ClusterRequest) (c : Nat) (entry : BitVec 64) :
    (t.clusterResult r (c * t.clusterSectors) entry).1 + t.indexInCluster r.offset =
      (min (c * t.clusterSectors) (t.nbNeeded r) : Nat) := by
  rw [clusterResult]
  exact sub_add_cancel _ _

theorem index_lt (offset : Nat) : t.indexInCluster offset < t.clusterSectors := by
  rw [(t.offset_shifts offset).1]
  exact Nat.mod_lt _ t.clusterSectors_pos

/-- There is something to read just if there is a sector before the end of the table. -/
theorem nbNeeded_gt (r : ClusterRequest) :
    t.indexInCluster r.offset < t.nbNeeded r ↔ 512 ≤ 2 ^ t.l1Bits - r.offset % 2 ^ t.l1Bits := by
  have hpos := r.pos
  rw [nbNeeded, nbAvailable, Nat.shiftRight_eq_div_pow]
  omega

/-- What is counted gives a mapping that is one. -/
theorem Unmixed.oneMapping {t : Tables} {r : ClusterRequest} {entries : Nat → BitVec 64}
    (h : t.Unmixed r entries) (hfound : t.foundEntries r.offset = some entries) :
    t.OneMapping r (t.clusterResult r (t.contiguous r entries * t.clusterSectors) (entries 0)) := by
  have hpos := t.clusterSectors_pos
  have hindex := t.index_lt r.offset
  have hneeded := (t.nbNeeded_gt r).mpr h.sector
  have hclusters := (t.nbClusters_spec r).1
  have hsome : 0 < t.nbClusters r := by
    apply Nat.pos_of_ne_zero
    intro hnone
    rw [hnone] at hclusters
    omega
  have hnum := t.clusterResult_num r (t.contiguous r entries) (entries 0)
  have hoffset : (t.clusterResult r (t.contiguous r entries * t.clusterSectors) (entries 0)).2 =
      clearCopied (entries 0) := rfl
  generalize t.clusterResult r (t.contiguous r entries * t.clusterSectors) (entries 0) = result at hnum hoffset
  have hcount : 0 < t.contiguous r entries ∧ t.contiguous r entries ≤ t.nbClusters r := by
    by_cases hzero : entries 0 = 0
    · obtain ⟨hfirst, hle, -⟩ := t.contiguous_free r hzero
      exact ⟨hfirst hsome, hle⟩
    · have hclear : clearCopied (entries 0) ≠ 0 := fun hclear =>
        (clearCopied_eq_zero.mp hclear).elim hzero h.flagged
      obtain ⟨hle, -, hend⟩ := t.contiguous_allocated r hclear
      refine ⟨Nat.pos_of_ne_zero fun hnone => ?_, hle⟩
      rw [hnone] at hend
      exact hend hsome (by omega)
  have hone : t.clusterSectors ≤ t.contiguous r entries * t.clusterSectors := Nat.le_mul_of_pos_left _ hcount.1
  have hall : t.contiguous r entries * t.clusterSectors ≤ t.nbClusters r * t.clusterSectors :=
    Nat.mul_le_mul_right _ hcount.2
  have hasked : t.nbNeeded r ≤ r.num + t.indexInCluster r.offset := Nat.min_le_left _ _
  have hinside : isCompressed (clearCopied (entries 0)) = true →
      min (t.contiguous r entries * t.clusterSectors) (t.nbNeeded r) ≤ t.clusterSectors := by
    intro hcompressed
    have hclear : clearCopied (entries 0) ≠ 0 := fun hclear => by
      rw [hclear] at hcompressed
      cases hcompressed
    rcases h.compressed hcompressed with hfew | hnext
    · omega
    · have hle : t.contiguous r entries ≤ 1 := by
        by_contra hmore
        have hsecond := (t.contiguous_allocated r hclear).2.1 1 (by omega)
        rw [Nat.one_mul] at hsecond
        exact hnext hsecond
      have hle' : t.contiguous r entries * t.clusterSectors ≤ 1 * t.clusterSectors := Nat.mul_le_mul_right _ hle
      omega
  refine ⟨by omega, by omega, fun i hi => ?_, fun hcompressed => ?_⟩
  · have hin : t.indexInCluster r.offset + i < t.contiguous r entries * t.clusterSectors := by omega
    have hcluster : (t.indexInCluster r.offset + i) / t.clusterSectors < t.contiguous r entries :=
      (Nat.div_lt_iff_lt_mul hpos).mpr hin
    obtain ⟨hsmall, hlarge⟩ := t.sectorMap_eq r hfound
      (show t.indexInCluster r.offset + i < t.nbClusters r * t.clusterSectors by omega)
    rw [hoffset]
    by_cases hzero : entries 0 = 0
    · rw [hzero, clearCopied_zero, mapOf_zero]
      rcases Nat.lt_or_ge (r.offset >>> t.l1Bits) (2 ^ 32) with hlt | hge
      · rw [hsmall hlt, (t.contiguous_free r hzero).2.2 _ hcluster, clearCopied_zero, mapOf_zero]
      · exact hlarge hge
    · have hclear : clearCopied (entries 0) ≠ 0 := fun hclear =>
        (clearCopied_eq_zero.mp hclear).elim hzero h.flagged
      rw [hsmall (h.index hzero)]
      cases hcompressed : isCompressed (clearCopied (entries 0)) with
      | true =>
        have hle := hinside hcompressed
        have hlt : t.indexInCluster r.offset + i < t.clusterSectors := by omega
        rw [Nat.div_eq_of_lt hlt, Nat.mod_eq_of_lt hlt]
      | false =>
        obtain ⟨hle, hrun, -⟩ := t.contiguous_allocated r hclear
        have hentry := hrun _ hcluster
        have hstandard := h.standard hzero hcompressed _ (hcluster.trans_le hle) fun j hj =>
          hrun j (hj.trans_lt hcluster)
        have hne : clearCopied (entries ((t.indexInCluster r.offset + i) / t.clusterSectors)) ≠ 0 := by
          intro hnone
          rw [hnone] at hentry
          apply hclear
          apply BitVec.eq_of_toNat_eq
          have hzero : (0 : BitVec 64).toNat = 0 := rfl
          omega
        rw [mapOf_standard hne hstandard, mapOf_standard hclear hcompressed, hentry, clusterSize_eq, ← Nat.mul_assoc,
          Nat.add_assoc, ← Nat.add_mul, Nat.mul_comm _ t.clusterSectors, Nat.div_add_mod]
  · have hle := hinside (hoffset ▸ hcompressed)
    rw [cacheCopyEnd, clusterSize_eq]
    omega

/-- A mapping that is one comes from entries that are not mixed. -/
theorem OneMapping.unmixed {t : Tables} {r : ClusterRequest} {entries : Nat → BitVec 64}
    (h : t.OneMapping r (t.clusterResult r (t.contiguous r entries * t.clusterSectors) (entries 0)))
    (hfound : t.foundEntries r.offset = some entries) : t.Unmixed r entries := by
  have hpos := t.clusterSectors_pos
  have hindex := t.index_lt r.offset
  have hclusters := (t.nbClusters_spec r).1
  have hnum := t.clusterResult_num r (t.contiguous r entries) (entries 0)
  have hoffset : (t.clusterResult r (t.contiguous r entries * t.clusterSectors) (entries 0)).2 =
      clearCopied (entries 0) := rfl
  generalize t.clusterResult r (t.contiguous r entries * t.clusterSectors) (entries 0) = result at h hnum hoffset
  have hfirst := h.pos
  have hflagged : entries 0 ≠ qcowOflagCopied := by
    intro hflag
    rw [t.contiguous_flag r hflag, Nat.zero_mul, Nat.zero_min] at hnum
    omega
  have hclear : entries 0 ≠ 0 → clearCopied (entries 0) ≠ 0 := fun hzero hclear =>
    (clearCopied_eq_zero.mp hclear).elim hzero hflagged
  have hindexed : entries 0 ≠ 0 → r.offset >>> t.l1Bits < 2 ^ 32 := by
    intro hzero
    by_contra hlarge
    have hmapped := h.mapped 0 (by omega)
    have hin : t.indexInCluster r.offset + 0 < t.nbClusters r * t.clusterSectors := by omega
    rw [(t.sectorMap_eq r hfound hin).2 (Nat.not_lt.mp hlarge), hoffset] at hmapped
    exact mapOf_ne_unallocated (hclear hzero) _ (Option.some.inj hmapped).symm
  refine ⟨(t.nbNeeded_gt r).mp (by omega), hindexed, hflagged, fun hcompressed => ?_, ?_⟩
  · by_contra hmixed
    rw [not_or, Nat.not_le, not_not] at hmixed
    have hne : entries 0 ≠ 0 := by
      intro hzero
      rw [hzero] at hcompressed
      cases hcompressed
    obtain ⟨hle, -, hend⟩ := t.contiguous_allocated r (hclear hne)
    have hmore : 2 ≤ t.nbClusters r := by
      by_contra hfew
      have hle' : t.nbClusters r * t.clusterSectors ≤ 1 * t.clusterSectors := Nat.mul_le_mul_right _ (by omega)
      omega
    have htwo : 2 ≤ t.contiguous r entries := by
      by_contra hfew
      have hnext := hend (by omega)
      match hcount : t.contiguous r entries with
      | 0 =>
        rw [hcount] at hnext
        omega
      | 1 =>
        rw [hcount, Nat.one_mul] at hnext
        exact hnext hmixed.2
      | c + 2 => omega
    have hcache := h.cache (hoffset ▸ hcompressed)
    have hmany : 2 * t.clusterSectors ≤ t.contiguous r entries * t.clusterSectors := Nat.mul_le_mul_right _ htwo
    rw [cacheCopyEnd, clusterSize_eq] at hcache
    omega
  · intro hne hstandard i hi hrun
    by_contra hcompressed
    rw [Bool.not_eq_false] at hcompressed
    have hpast : i < t.contiguous r entries := by
      by_contra hle
      exact (t.contiguous_allocated r (hclear hne)).2.2 (by omega) (hrun _ (Nat.not_lt.mp hle))
    have hlater : 0 < i := by
      apply Nat.pos_of_ne_zero
      rintro rfl
      rw [hstandard] at hcompressed
      cases hcompressed
    -- the first sector of the cluster of the compressed entry
    have hstart : t.clusterSectors ≤ i * t.clusterSectors := Nat.le_mul_of_pos_left _ hlater
    have hneeded := (t.nbClusters_spec r).2 i hi
    have hless : i * t.clusterSectors < t.contiguous r entries * t.clusterSectors := Nat.mul_lt_mul_of_pos_right hpast hpos
    have hmore : i * t.clusterSectors < t.nbClusters r * t.clusterSectors := Nat.mul_lt_mul_of_pos_right hi hpos
    have hsum : t.indexInCluster r.offset + (i * t.clusterSectors - t.indexInCluster r.offset) = i * t.clusterSectors := by
      omega
    have hmapped := h.mapped (i * t.clusterSectors - t.indexInCluster r.offset) (by omega)
    have hlt : r.offset >>> t.l1Bits < 2 ^ 32 := hindexed hne
    rw [(t.sectorMap_eq r hfound (by rw [hsum]; exact hmore)).1 hlt, hsum, hoffset, Nat.mul_div_cancel _ hpos] at hmapped
    have hne' : clearCopied (entries i) ≠ 0 := by
      intro hnone
      rw [hnone] at hcompressed
      cases hcompressed
    rw [mapOf_compressed hne' hcompressed, mapOf_standard (hclear hne) hstandard] at hmapped
    cases hmapped

/-- What `qcow2_get_cluster_offset` returns is one mapping, which no reader goes past, just if the entries that it
finds are not mixed. -/
theorem getClusterOffset_oneMapping (r : ClusterRequest) :
    (∀ result, t.getClusterOffset r = some result → t.OneMapping r result) ↔
      ∀ entries, t.foundEntries r.offset = some entries → t.Unmixed r entries := by
  rw [getClusterOffset_eq]
  constructor
  · intro h entries hfound
    exact (h _ (by rw [hfound]; rfl)).unmixed hfound
  · intro h result hresult
    obtain ⟨entries, hfound, rfl⟩ := Option.map_eq_some_iff.mp hresult
    exact (h entries hfound).oneMapping hfound

/-- Clusters of 512 bytes, where two compressed entries are one cluster apart. -/
def neighbours : Tables where
  clusterBits := 9
  minClusterBits := Nat.le.refl
  maxClusterBits := (by decide : 21 ≥ 9)
  l1Size := 1
  isInt := by decide
  l1Table := fun _ => 0x400
  l2Load := fun _ => some fun i => if i < 2 then qcowOflagCompressed + BitVec.ofNat 64 (0x600 + 512 * i) else 0

def twoSectors : ClusterRequest where
  offset := 0
  isUInt64 := by decide
  num := 2
  pos := (by decide : 2 ≥ 1)
  isInt := (by decide : 2 ^ 31 > 2)

theorem neighbours_mixed : ¬ ∀ result, neighbours.getClusterOffset twoSectors = some result →
    neighbours.OneMapping twoSectors result := by
  intro h
  have hresult : neighbours.getClusterOffset twoSectors = some (2, qcowOflagCompressed + 0x600) := by decide
  have hcache := (h _ hresult).cache (by decide)
  revert hcache
  decide

end Tables

end Colama.Qemu.Qcow2

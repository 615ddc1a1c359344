import Colama.Qemu.Qcow2.Image

namespace Colama.Qemu.Qcow2

open Lib

variable {α : Type*} {C : Image α} {s s' s'' : BDRVQcowState α}

theorem getD_updateRefcount (rc : List Nat) (first n : Nat) (f : Nat → Nat) (i : Nat) :
    (updateRefcount rc first n f).getD i 0
      = if first ≤ i ∧ i < first + n then f (rc.getD i 0) else rc.getD i 0 := by
  by_cases hi : i < max rc.length (first + n)
  · simp [updateRefcount, List.getD_eq_getElem?_getD, hi]
  · have hlen : ¬ (first ≤ i ∧ i < first + n) := by omega
    have hrc : rc.length ≤ i := by omega
    rw [if_neg hlen]
    simp [updateRefcount, List.getD_eq_getElem?_getD, hi, hrc]

/-- The search stops behind as many free clusters as it was asked for. -/
theorem searchFree_spec (rc : List Nat) (nb : Nat) :
    ∀ fuel next i, i ≤ next → i ≤ nb → max rc.length (next - i) + nb + 1 ≤ fuel + next →
      (∀ j, next - i ≤ j → j < next → rc.getD j 0 = 0) →
      nb ≤ searchFree rc nb fuel next i ∧
        ∀ j, searchFree rc nb fuel next i - nb ≤ j → j < searchFree rc nb fuel next i → rc.getD j 0 = 0 := by
  intro fuel
  induction fuel with
  | zero =>
    intro next i hin hinb hfuel
    omega
  | succ fuel ih =>
    intro next i hin hinb hfuel hfree
    rw [searchFree]
    by_cases hi : i = nb
    · subst hi
      rw [if_pos rfl]
      exact ⟨hin, hfree⟩
    · rw [if_neg hi]
      by_cases hz : rc.getD next 0 = 0
      · rw [if_pos hz]
        apply ih (next + 1) (i + 1) (by omega) (by omega) (by omega)
        intro j hj hjn
        by_cases hlast : j = next
        · rwa [hlast]
        · exact hfree j (by omega) (by omega)
      · rw [if_neg hz]
        have hlt : next < rc.length := by
          by_contra hge
          apply hz
          simp [List.getD_eq_getElem?_getD, not_lt.mp hge]
        apply ih (next + 1) 0 (by omega) (by omega) (by omega)
        intro j hj hjn
        omega

section Alloc

variable (C s)

def clustersOf (size : Nat) : Nat := (size + (C.clusterSize - 1)) / C.clusterSize

@[simp] theorem allocClusters_l1 (size : Nat) : (allocClusters C s size).2.l1 = s.l1 := rfl

@[simp] theorem allocClusters_l2 (size : Nat) : (allocClusters C s size).2.l2 = s.l2 := rfl

@[simp] theorem allocClusters_file (size : Nat) : (allocClusters C s size).2.file = s.file := rfl

@[simp] theorem allocClusters_entry (size a : Nat) : (allocClusters C s size).2.entry C a = s.entry C a := rfl

@[simp] theorem allocClusters_hosts (size : Nat) : (allocClusters C s size).2.hosts C = s.hosts C := rfl

theorem clustersOf_mul (n : Nat) : clustersOf C (n * C.clusterSize) = n := by
  have hpos := C.clusterSize_pos
  rw [clustersOf, Nat.add_comm, Nat.add_mul_div_right _ _ hpos, Nat.div_eq_of_lt (by omega), Nat.zero_add]

theorem allocClusters_free (size i : Nat) (hlo : (allocClusters C s size).1 ≤ i)
    (hhi : i < (allocClusters C s size).1 + clustersOf C size) : s.refcount i = 0 := by
  obtain ⟨hnb, hfree⟩ := searchFree_spec s.refcounts (clustersOf C size)
    (s.refcounts.length + clustersOf C size + 1) s.freeClusterIndex 0 (by omega) (by omega) (by omega)
    (fun j hj hjn => by omega)
  have hfst : (allocClusters C s size).1 = searchFree s.refcounts (clustersOf C size)
    (s.refcounts.length + clustersOf C size + 1) s.freeClusterIndex 0 - clustersOf C size := rfl
  rw [hfst] at hlo hhi
  exact hfree i hlo (by omega)

theorem allocClusters_refcount (size i : Nat) : (allocClusters C s size).2.refcount i
    = if (allocClusters C s size).1 ≤ i ∧ i < (allocClusters C s size).1 + clustersOf C size then s.refcount i + 1
      else s.refcount i :=
  getD_updateRefcount s.refcounts _ _ (· + 1) i

end Alloc

section Free

variable (C s)

@[simp] theorem freeClusters_l1 (first n : Nat) : (freeClusters s first n).l1 = s.l1 := rfl

@[simp] theorem freeClusters_l2 (first n : Nat) : (freeClusters s first n).l2 = s.l2 := rfl

@[simp] theorem freeClusters_file (first n : Nat) : (freeClusters s first n).file = s.file := rfl

/-- The counts of the whole run are lowered, or none is. -/
theorem freeClusters_refcount (first n : Nat) : (∀ i, (freeClusters s first n).refcount i = s.refcount i) ∨
    ∀ i, (freeClusters s first n).refcount i
      = if i ∈ List.range' first n then s.refcount i - 1 else s.refcount i := by
  by_cases hdone : ((List.range' first n).takeWhile (s.refcount · != 0)).length = n
  · right
    intro i
    have hrc : (freeClusters s first n).refcounts = updateRefcount s.refcounts first n (· - 1) := if_pos hdone
    rw [BDRVQcowState.refcount, hrc, getD_updateRefcount]
    simp only [List.mem_range'_1, BDRVQcowState.refcount]
  · left
    intro i
    have hrc : (freeClusters s first n).refcounts = s.refcounts := if_neg hdone
    rw [BDRVQcowState.refcount, hrc, BDRVQcowState.refcount]

theorem freeClusters_refcount_le (first n i : Nat) :
    s.refcount i ≤ (freeClusters s first n).refcount i + if i ∈ List.range' first n then 1 else 0 := by
  rcases freeClusters_refcount s first n with hrc | hrc
  · rw [hrc i]
    omega
  · rw [hrc i]
    split_ifs <;> omega

theorem freeClusters_refcount_of_notMem (first n i : Nat) (hi : i ∉ List.range' first n) :
    (freeClusters s first n).refcount i = s.refcount i := by
  rcases freeClusters_refcount s first n with hrc | hrc
  · exact hrc i
  · rw [hrc i, if_neg hi]

end Free

/-- What allocations and copies leave alone: the guest's entries, the tables in use, and the clusters that
are counted once and hold no table. -/
structure Keeps (C : Image α) (s s' : BDRVQcowState α) : Prop where
  entry : ∀ a, s'.entry C a = s.entry C a
  held : ∀ h, s.refcount h = 1 → (∀ t, h ∉ (s.l1 t).hosts) → s'.refcount h = 1 ∧ ∀ t, h ∉ (s'.l1 t).hosts
  tables : ∀ t c, s.l1 t = .table true c → s'.l1 t = .table true c

theorem Keeps.refl (C : Image α) (s : BDRVQcowState α) : Keeps C s s where
  entry _ := rfl
  held _ hone htab := ⟨hone, htab⟩
  tables _ _ h := h

theorem Keeps.trans (h : Keeps C s s') (h' : Keeps C s' s'') : Keeps C s s'' where
  entry a := (h'.entry a).trans (h.entry a)
  held k hone htab := by
    obtain ⟨hone', htab'⟩ := h.held k hone htab
    exact h'.held k hone' htab'
  tables t c ht := h'.tables t c (h.tables t c ht)

theorem allocClusters_refcount_one {size h : Nat} (hone : s.refcount h = 1) :
    (allocClusters C s size).2.refcount h = 1 := by
  rw [allocClusters_refcount, if_neg]
  · exact hone
  · intro hin
    have hzero := allocClusters_free C s size h hin.1 hin.2
    omega

theorem allocClusters_le_refcount (C : Image α) (s : BDRVQcowState α) (size i : Nat) :
    s.refcount i ≤ (allocClusters C s size).2.refcount i := by
  rw [allocClusters_refcount]
  split_ifs <;> omega

theorem allocClusters_keeps (C : Image α) (s : BDRVQcowState α) (size : Nat) :
    Keeps C s (allocClusters C s size).2 where
  entry _ := rfl
  held _ hone htab := ⟨allocClusters_refcount_one hone, htab⟩
  tables _ _ ht := ht

theorem allocClusters_covers (hc : Covers (s.hosts C) s.refcount) (size : Nat) :
    Covers ((allocClusters C s size).2.hosts C) (allocClusters C s size).2.refcount :=
  hc.mono (allocClusters_le_refcount C s size)

section L2Allocate

variable (C s) (t : Nat)

theorem clustersOf_l2Table : clustersOf C (C.l2Size * 8) = 1 := by
  have hbits := C.minClusterBits
  have hsize : C.l2Size * 8 = 1 * C.clusterSize := by
    rw [Nat.one_mul]
    show 2 ^ (C.clusterBits - 3) * 2 ^ 3 = 2 ^ C.clusterBits
    rw [← pow_add, Nat.sub_add_cancel (by omega)]
  rw [hsize, clustersOf_mul]

theorem l2Allocate_entry (a : Nat) : (l2Allocate C s t).entry C a = s.entry C a := by
  by_cases ha : a / C.l2Size = t
  · cases ht : s.l1 t <;> simp [l2Allocate, BDRVQcowState.entry, ha, ht]
  · cases ht : s.l1 t <;> simp [l2Allocate, BDRVQcowState.entry, ha, ht]

theorem l2Allocate_hosts : (l2Allocate C s t).hosts C
    = Function.update (s.hosts C) (.inl t) [(allocClusters C s (C.l2Size * 8)).1] := by
  funext r
  cases r with
  | inl u =>
    by_cases hu : u = t
    · subst hu
      simp [BDRVQcowState.hosts, l2Allocate, L1Entry.hosts]
    · have hne : (Sum.inl u : Nat ⊕ Nat) ≠ .inl t := fun h => hu (Sum.inl.inj h)
      rw [Function.update_of_ne hne]
      simp [BDRVQcowState.hosts, l2Allocate, hu]
  | inr a =>
    rw [Function.update_of_ne (by simp)]
    simp [BDRVQcowState.hosts, l2Allocate_entry]

/-- The new table names a cluster that nothing named, once its old one is given up. -/
theorem l2Allocate_covers (hc : Covers (Function.update (s.hosts C) (.inl t) []) s.refcount) :
    Covers ((l2Allocate C s t).hosts C) (l2Allocate C s t).refcount := by
  have hone := clustersOf_l2Table C
  have hzero := allocClusters_free C s (C.l2Size * 8) (allocClusters C s (C.l2Size * 8)).1 le_rfl (by omega)
  have hassign := hc.assign (.inl t) (l := [(allocClusters C s (C.l2Size * 8)).1]) (by
      intro h hh
      rw [List.mem_singleton] at hh
      rw [hh, allocClusters_refcount, if_pos (by omega)]
      exact ⟨fun q => hc.unnamed hzero, by omega⟩) (allocClusters_le_refcount C s (C.l2Size * 8))
  rw [Function.update_idem] at hassign
  rwa [l2Allocate_hosts]

theorem l2Allocate_keeps (ht : ∀ c, s.l1 t ≠ .table true c) : Keeps C s (l2Allocate C s t) where
  entry := l2Allocate_entry C s t
  held h hone htab := by
    apply And.intro (allocClusters_refcount_one hone)
    intro u
    by_cases hu : u = t
    · have hnew := clustersOf_l2Table C
      have hzero := allocClusters_free C s (C.l2Size * 8) (allocClusters C s (C.l2Size * 8)).1 le_rfl (by omega)
      simp only [l2Allocate, hu, Function.update_self, L1Entry.hosts, List.mem_singleton]
      intro heq
      rw [← heq] at hzero
      omega
    · simpa [l2Allocate, hu] using htab u
  tables u c hu := by
    have hne : u ≠ t := by
      rintro rfl
      exact ht c hu
    simpa [l2Allocate, hne] using hu

end L2Allocate

theorem getClusterTable_table (C : Image α) (s : BDRVQcowState α) (a : Nat) :
    ∃ c, (getClusterTable C s a).l1 (a / C.l2Size) = .table true c := by
  unfold getClusterTable
  split
  next c h => exact ⟨c, h⟩
  next old h => exact ⟨_, Function.update_self ..⟩
  next h => exact ⟨_, Function.update_self ..⟩

theorem getClusterTable_file (C : Image α) (s : BDRVQcowState α) (a : Nat) :
    (getClusterTable C s a).file = s.file := by
  unfold getClusterTable
  split <;> rfl

theorem getClusterTable_of_table {a c : Nat} (h : s.l1 (a / C.l2Size) = .table true c) :
    getClusterTable C s a = s := by
  unfold getClusterTable
  rw [h]

theorem getClusterTable_covers (hc : Covers (s.hosts C) s.refcount) (a : Nat) :
    Covers ((getClusterTable C s a).hosts C) (getClusterTable C s a).refcount := by
  unfold getClusterTable
  split
  next c h => exact hc
  next old h =>
    apply l2Allocate_covers
    apply hc.release (.inl (a / C.l2Size))
    intro i
    simpa [BDRVQcowState.hosts, h, L1Entry.hosts] using freeClusters_refcount_le s old 1 i
  next h =>
    apply l2Allocate_covers
    apply hc.release (.inl (a / C.l2Size))
    intro i
    exact Nat.le_add_right _ _

theorem getClusterTable_keeps (C : Image α) (s : BDRVQcowState α) (a : Nat) :
    Keeps C s (getClusterTable C s a) := by
  unfold getClusterTable
  split
  next c h => exact Keeps.refl C s
  next old h =>
    have hfree : Keeps C s (freeClusters s old 1) := {
      entry := fun _ => rfl
      held := by
        intro i hone htab
        apply And.intro _ htab
        rw [freeClusters_refcount_of_notMem, hone]
        simpa [h, L1Entry.hosts] using htab (a / C.l2Size)
      tables := fun _ _ ht => ht }
    apply hfree.trans
    apply l2Allocate_keeps
    intro c hcop
    rw [freeClusters_l1, h] at hcop
    cases hcop
  next h =>
    apply l2Allocate_keeps
    intro c hcop
    rw [h] at hcop
    cases hcop

section Sectors

variable (C s)

theorem writeSectors_file (sector x : Nat) (buf : List α) (y : Nat)
    (hy : ¬ (sector ≤ y ∧ y < sector + buf.length)) : (writeSectors C s sector x buf).file y = s.file y :=
  dif_neg (by omega)

theorem writeSectors_file_add (sector x : Nat) (buf : List α) (k : Nat) (hk : k < buf.length) :
    (writeSectors C s sector x buf).file (sector + k) = C.toFile (x + k) buf[k] := by
  have hin : sector ≤ sector + k ∧ sector + k - sector < buf.length := by omega
  show (if h : _ then _ else _) = _
  rw [dif_pos hin]
  simp only [Nat.add_sub_cancel_left]

theorem copySectors_file (startSect cluster nStart nEnd y : Nat)
    (hy : ¬ (cluster * C.clusterSectors + nStart ≤ y ∧ y < cluster * C.clusterSectors + nEnd)) :
    (copySectors C s startSect cluster nStart nEnd).file y = s.file y := by
  apply writeSectors_file
  rw [List.length_map, List.length_range']
  omega

theorem copySectors_file_add (startSect cluster nStart nEnd i : Nat) (hlo : nStart ≤ i) (hhi : i < nEnd) :
    (copySectors C s startSect cluster nStart nEnd).file (cluster * C.clusterSectors + i)
      = C.toFile (startSect + i) (qcowRead C s (startSect + i)) := by
  have hk : i - nStart < ((List.range' (startSect + nStart) (nEnd - nStart)).map (qcowRead C s)).length := by
    rw [List.length_map, List.length_range']
    omega
  have hfile := writeSectors_file_add C s (cluster * C.clusterSectors + nStart) (startSect + nStart) _ _ hk
  have hy : cluster * C.clusterSectors + nStart + (i - nStart) = cluster * C.clusterSectors + i := by omega
  have hx : startSect + nStart + (i - nStart) = startSect + i := by omega
  rw [hy, hx] at hfile
  rw [copySectors, hfile, List.getElem_map, List.getElem_range', Nat.one_mul, hx]

end Sectors

/-- The sectors of the file that an entry holds lie in the clusters it occupies. -/
theorem mem_hosts_compressed (C : Image α) {coffset n k : Nat} (hk : k < n) :
    (coffset / 512 + k) / C.clusterSectors ∈ (L2Entry.compressed coffset n).hosts C := by
  have hsec : (coffset / 512 + k) / C.clusterSectors = (coffset / 512 * 512 + k * 512) / C.clusterSize := by
    rw [C.clusterSize_eq, ← Nat.add_mul, Nat.mul_div_mul_right _ _ (by omega)]
  have hlo : coffset / 512 * 512 / C.clusterSize ≤ (coffset / 512 * 512 + k * 512) / C.clusterSize :=
    Nat.div_le_div_right (Nat.le_add_right _ _)
  have hhi : (coffset / 512 * 512 + k * 512) / C.clusterSize
      ≤ (coffset / 512 * 512 + n * 512 - 1) / C.clusterSize :=
    Nat.div_le_div_right (by omega)
  rw [L2Entry.hosts, List.mem_range'_1, hsec]
  simp only [L2Entry.extent]
  omega

/-- A read sees the entry of its cluster, and the file in the clusters that the entry occupies. -/
theorem qcowRead_congr {x : Nat} (hentry : s'.entry C (x / C.clusterSectors) = s.entry C (x / C.clusterSectors))
    (hfile : ∀ y, y / C.clusterSectors ∈ (s.entry C (x / C.clusterSectors)).hosts C → s'.file y = s.file y) :
    qcowRead C s' x = qcowRead C s x := by
  rw [qcowRead, qcowRead, hentry]
  cases he : s.entry C (x / C.clusterSectors) with
  | free => rfl
  | standard copied c =>
    have hmem : (c * C.clusterSectors + x % C.clusterSectors) / C.clusterSectors
        ∈ (s.entry C (x / C.clusterSectors)).hosts C := by
      rw [Nat.mul_comm, Nat.mul_add_div C.clusterSectors_pos,
        Nat.div_eq_of_lt (Nat.mod_lt _ C.clusterSectors_pos), he]
      simp [L2Entry.hosts, L2Entry.extent]
    simp only [hfile _ hmem]
  | compressed coffset n =>
    simp only [decompressCluster]
    congr 1
    apply List.map_congr_left
    intro y hy
    obtain ⟨k, hk, rfl⟩ := List.mem_range'.mp hy
    apply hfile
    rw [he, Nat.one_mul]
    exact mem_hosts_compressed C hk

theorem qcowRead_of_keeps (h : Keeps C s s') (hfile : s'.file = s.file) (x : Nat) :
    qcowRead C s' x = qcowRead C s x := by
  apply qcowRead_congr (h.entry _)
  intro y _
  rw [hfile]

theorem writeSectors_keeps (C : Image α) (s : BDRVQcowState α) (sector x : Nat) (buf : List α) :
    Keeps C s (writeSectors C s sector x buf) where
  entry _ := rfl
  held _ hone htab := ⟨hone, htab⟩
  tables _ _ ht := ht

theorem copySectors_keeps (C : Image α) (s : BDRVQcowState α) (startSect cluster nStart nEnd : Nat) :
    Keeps C s (copySectors C s startSect cluster nStart nEnd) :=
  writeSectors_keeps C s _ _ _

end Colama.Qemu.Qcow2

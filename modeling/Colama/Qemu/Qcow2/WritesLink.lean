import Colama.Qemu.Qcow2.WritesSpec

namespace Colama.Qemu.Qcow2

open Lib

variable {α : Type*} {C : Image α} {bs bs' : BDRVQcowState α} {acb : QCowAIOCB α}

/-- The counts cover what the tables name, and an entry with the flag is alone in naming its cluster. -/
structure Sound (C : Image α) (bs : BDRVQcowState α) : Prop where
  covers : Covers (bs.hosts C) bs.refcount
  copied : ∀ b c, bs.entry C b = .standard true c → bs.refcount c = 1

/-- A part of a write, up to the end of a cluster or of the write. -/
structure Part (C : Image α) (acb : QCowAIOCB α) : Prop where
  pos : 0 < acb.curNrSectors
  le : acb.curNrSectors ≤ acb.buf.length
  aligned : acb.curNrSectors < acb.buf.length → (acb.sectorNum + acb.curNrSectors) % C.clusterSectors = 0

/-- The part goes to clusters that are mapped already. -/
structure InPlace (C : Image α) (bs : BDRVQcowState α) (acb : QCowAIOCB α) : Prop extends Part C acb where
  unallocated : acb.l2meta.nbClusters = 0
  entries : ∀ k < acb.curNrSectors, bs.entry C ((acb.sectorNum + k) / C.clusterSectors)
    = .standard true (acb.l2meta.clusterOffset
      + ((acb.sectorNum + k) / C.clusterSectors - acb.sectorNum / C.clusterSectors))

/-- The part goes to clusters that nothing names until it is completed. -/
structure Allocating (C : Image α) (bs : BDRVQcowState α) (acb : QCowAIOCB α) : Prop extends Part C acb where
  clusters : 0 < acb.l2meta.nbClusters
  offset : acb.l2meta.offset = acb.sectorNum * 512
  start : acb.l2meta.nStart = acb.sectorNum % C.clusterSectors
  available : acb.l2meta.nbAvailable = acb.l2meta.nStart + acb.curNrSectors
  last : (acb.l2meta.nbClusters - 1) * C.clusterSectors < acb.l2meta.nbAvailable
  within : acb.l2meta.nbAvailable ≤ acb.l2meta.nbClusters * C.clusterSectors
  fits : acb.l2meta.nbClusters * C.clusterSize < 2 ^ 31
  table : ∃ c, bs.l1 (acb.sectorNum / C.clusterSectors / C.l2Size) = .table true c
  inside : acb.sectorNum / C.clusterSectors % C.l2Size + acb.l2meta.nbClusters ≤ C.l2Size
  unshared : ∀ b, acb.l2meta.Maps C b → ¬ (bs.entry C b).IsCopied
  held : ∀ i < acb.l2meta.nbClusters, bs.refcount (acb.l2meta.clusterOffset + i) = 1 ∧
    ∀ r, acb.l2meta.clusterOffset + i ∉ bs.hosts C r

theorem Keeps.sound (h : Keeps C bs bs') (hs : Sound C bs) (hc : Covers (bs'.hosts C) bs'.refcount) :
    Sound C bs' where
  covers := hc
  copied b c hb := by
    rw [h.entry] at hb
    have hone := hs.copied b c hb
    have hnamed : c ∈ bs.hosts C (.inr b) := by
      simp [BDRVQcowState.hosts, hb, L2Entry.hosts, L2Entry.extent]
    apply (h.held c hone _).1
    intro t ht
    have heq : (Sum.inr b : Nat ⊕ Nat) = .inl t := hs.covers.unique hone hnamed ht
    cases heq

theorem Keeps.unnamed (h : Keeps C bs bs') {c : Nat} (hone : bs.refcount c = 1) (hun : ∀ r, c ∉ bs.hosts C r) :
    bs'.refcount c = 1 ∧ ∀ r, c ∉ bs'.hosts C r := by
  obtain ⟨hone', htab⟩ := h.held c hone fun t => hun (.inl t)
  apply And.intro hone'
  intro r
  cases r with
  | inl t => exact htab t
  | inr b =>
    have hb := hun (.inr b)
    simp only [BDRVQcowState.hosts] at hb ⊢
    rwa [h.entry]

theorem Keeps.inPlace (h : Keeps C bs bs') (hin : InPlace C bs acb) : InPlace C bs' acb :=
  { hin with entries := fun k hk => by rw [h.entry]; exact hin.entries k hk }

theorem Keeps.allocating (h : Keeps C bs bs') (hal : Allocating C bs acb) : Allocating C bs' acb :=
  { hal with
    table := by
      obtain ⟨c, hc⟩ := hal.table
      exact ⟨c, h.tables _ c hc⟩
    unshared := fun b hb => by rw [h.entry]; exact hal.unshared b hb
    held := fun i hi => h.unnamed (hal.held i hi).1 (hal.held i hi).2 }

namespace Allocating

variable (h : Allocating C bs acb)

include h

theorem first_eq : acb.l2meta.offset / C.clusterSize = acb.sectorNum / C.clusterSectors := by
  rw [h.offset, C.offset_div]

theorem maps_iff (b : Nat) : acb.l2meta.Maps C b ↔ acb.sectorNum / C.clusterSectors ≤ b ∧
    b < acb.sectorNum / C.clusterSectors + acb.l2meta.nbClusters := by
  rw [QCowL2Meta.Maps, h.first_eq]

/-- The clusters of an allocation lie in the table of the first one. -/
theorem same_table {b : Nat} (hb : acb.l2meta.Maps C b) :
    b / C.l2Size = acb.sectorNum / C.clusterSectors / C.l2Size := by
  obtain ⟨hlo, hhi⟩ := (h.maps_iff b).mp hb
  have hin := h.inside
  have hpos := C.l2Size_pos
  have hdiv := Nat.div_add_mod (acb.sectorNum / C.clusterSectors) C.l2Size
  apply Nat.div_eq_of_lt_le
  · rw [Nat.mul_comm]
    omega
  · rw [Nat.add_mul, Nat.one_mul, Nat.mul_comm]
    omega

theorem nStart_lt : acb.l2meta.nStart < C.clusterSectors := by
  rw [h.start]
  exact Nat.mod_lt _ C.clusterSectors_pos

theorem sectorNum_eq : acb.sectorNum
    = acb.sectorNum / C.clusterSectors * C.clusterSectors + acb.l2meta.nStart := by
  rw [h.start, Nat.mul_comm, Nat.div_add_mod]

/-- The clusters allocated to a part are in none that an entry occupies. -/
theorem hosts_ne {b c : Nat} (hc : c ∈ (bs.entry C b).hosts C) :
    c < acb.l2meta.clusterOffset ∨ acb.l2meta.clusterOffset + acb.l2meta.nbClusters ≤ c := by
  by_contra hcon
  apply (h.held (c - acb.l2meta.clusterOffset) (by omega)).2 (.inr b)
  rwa [Nat.add_sub_cancel' (by omega)]

/-- A read sees nothing of the clusters allocated to a part. -/
theorem qcowRead_eq (hentry : ∀ b, bs'.entry C b = bs.entry C b)
    (hfile : ∀ y, (y / C.clusterSectors < acb.l2meta.clusterOffset ∨
      acb.l2meta.clusterOffset + acb.l2meta.nbClusters ≤ y / C.clusterSectors) → bs'.file y = bs.file y) (x : Nat) :
    qcowRead C bs' x = qcowRead C bs x := by
  apply qcowRead_congr (hentry _)
  intro y hy
  exact hfile y (h.hosts_ne hy)

end Allocating

theorem copyHead_keeps (C : Image α) (bs : BDRVQcowState α) (m : QCowL2Meta) :
    Keeps C bs (copyHead C bs m) := by
  unfold copyHead
  split_ifs
  · exact Keeps.refl C bs
  · exact copySectors_keeps C bs _ _ _ _

theorem copyTail_keeps (C : Image α) (bs : BDRVQcowState α) (m : QCowL2Meta) :
    Keeps C bs (copyTail C bs m) := by
  unfold copyTail
  simp only
  split_ifs
  · exact Keeps.refl C bs
  · exact copySectors_keeps C bs _ _ _ _

@[simp] theorem copyHead_refcount (C : Image α) (bs : BDRVQcowState α) (m : QCowL2Meta) :
    (copyHead C bs m).refcount = bs.refcount := by
  unfold copyHead
  split_ifs <;> rfl

@[simp] theorem copyTail_refcount (C : Image α) (bs : BDRVQcowState α) (m : QCowL2Meta) :
    (copyTail C bs m).refcount = bs.refcount := by
  unfold copyTail
  simp only
  split_ifs <;> rfl

@[simp] theorem copyHead_l1 (C : Image α) (bs : BDRVQcowState α) (m : QCowL2Meta) :
    (copyHead C bs m).l1 = bs.l1 := by
  unfold copyHead
  split_ifs <;> rfl

@[simp] theorem copyTail_l1 (C : Image α) (bs : BDRVQcowState α) (m : QCowL2Meta) :
    (copyTail C bs m).l1 = bs.l1 := by
  unfold copyTail
  simp only
  split_ifs <;> rfl

namespace Allocating

variable (h : Allocating C bs acb)

include h

/-- Where the part ends within its last cluster. -/
theorem tail_eq (htail : acb.l2meta.nbAvailable % C.clusterSectors ≠ 0) :
    acb.l2meta.nbAvailable / C.clusterSectors + 1 = acb.l2meta.nbClusters := by
  have hpos := C.clusterSectors_pos
  have hlo := h.last
  have hhi := h.within
  have hdiv := Nat.div_add_mod acb.l2meta.nbAvailable C.clusterSectors
  have hle : acb.l2meta.nbClusters - 1 ≤ acb.l2meta.nbAvailable / C.clusterSectors := by
    rw [Nat.le_div_iff_mul_le hpos]
    omega
  have hlt : acb.l2meta.nbAvailable / C.clusterSectors < acb.l2meta.nbClusters := by
    rw [Nat.div_lt_iff_lt_mul hpos]
    apply lt_of_le_of_ne hhi
    intro heq
    rw [heq, Nat.mul_mod_left] at htail
    exact htail rfl
  omega

theorem whole_eq (htail : acb.l2meta.nbAvailable % C.clusterSectors = 0) :
    acb.l2meta.nbAvailable = acb.l2meta.nbClusters * C.clusterSectors := by
  obtain ⟨n, hn⟩ := Nat.dvd_of_mod_eq_zero htail
  rw [Nat.mul_comm] at hn
  have hlo := h.last
  have hhi := h.within
  have hpos := C.clusterSectors_pos
  rw [hn] at hlo hhi ⊢
  have hlt := Nat.lt_of_mul_lt_mul_right hlo
  have hle := Nat.le_of_mul_le_mul_right hhi hpos
  rw [show n = acb.l2meta.nbClusters by omega]

omit h in
/-- What the clusters allocated to the part hold is the file's sectors from their first one on. -/
theorem outside {y : Nat} (hy : y / C.clusterSectors < acb.l2meta.clusterOffset ∨
    acb.l2meta.clusterOffset + acb.l2meta.nbClusters ≤ y / C.clusterSectors) :
    y < acb.l2meta.clusterOffset * C.clusterSectors ∨
      acb.l2meta.clusterOffset * C.clusterSectors + acb.l2meta.nbClusters * C.clusterSectors ≤ y := by
  rw [← Nat.add_mul]
  rcases hy with hy | hy
  · exact Or.inl ((Nat.div_lt_iff_lt_mul C.clusterSectors_pos).mp hy)
  · exact Or.inr ((Nat.le_div_iff_mul_le C.clusterSectors_pos).mp hy)

theorem nStart_le : acb.l2meta.nStart ≤ acb.l2meta.nbClusters * C.clusterSectors := by
  have hone : 1 * C.clusterSectors ≤ acb.l2meta.nbClusters * C.clusterSectors :=
    Nat.mul_le_mul_right _ h.clusters
  have hlt := h.nStart_lt
  omega

theorem copyHead_file {y : Nat} (hy : y / C.clusterSectors < acb.l2meta.clusterOffset ∨
    acb.l2meta.clusterOffset + acb.l2meta.nbClusters ≤ y / C.clusterSectors) :
    (copyHead C bs acb.l2meta).file y = bs.file y := by
  unfold copyHead
  split_ifs
  · rfl
  · apply copySectors_file
    have hout := outside hy
    have hstart := h.nStart_le
    omega

theorem copyHead_file_add (i : Nat) : (copyHead C bs acb.l2meta).file
      (acb.l2meta.clusterOffset * C.clusterSectors + i)
    = if i < acb.l2meta.nStart then
        C.toFile (acb.sectorNum / C.clusterSectors * C.clusterSectors + i)
          (qcowRead C bs (acb.sectorNum / C.clusterSectors * C.clusterSectors + i))
      else bs.file (acb.l2meta.clusterOffset * C.clusterSectors + i) := by
  unfold copyHead
  split_ifs with hzero hi hi
  · omega
  · rfl
  · rw [copySectors_file_add _ _ _ _ _ _ _ (Nat.zero_le i) hi, h.first_eq]
  · apply copySectors_file
    omega

theorem copyTail_file {y : Nat} (hy : y / C.clusterSectors < acb.l2meta.clusterOffset ∨
    acb.l2meta.clusterOffset + acb.l2meta.nbClusters ≤ y / C.clusterSectors) :
    (copyTail C bs acb.l2meta).file y = bs.file y := by
  unfold copyTail
  simp only
  split_ifs with htail
  · rfl
  · apply copySectors_file
    have hout := outside hy
    have hmul : (acb.l2meta.nbAvailable / C.clusterSectors + 1) * C.clusterSectors
        = acb.l2meta.nbClusters * C.clusterSectors := by rw [h.tail_eq htail]
    rw [Nat.add_mul] at hmul ⊢
    omega

theorem copyTail_file_add (i : Nat) (hi : i < acb.l2meta.nbClusters * C.clusterSectors) :
    (copyTail C bs acb.l2meta).file (acb.l2meta.clusterOffset * C.clusterSectors + i)
      = if acb.l2meta.nbAvailable ≤ i then
          C.toFile (acb.sectorNum / C.clusterSectors * C.clusterSectors + i)
            (qcowRead C bs (acb.sectorNum / C.clusterSectors * C.clusterSectors + i))
        else bs.file (acb.l2meta.clusterOffset * C.clusterSectors + i) := by
  have hdiv := Nat.div_add_mod acb.l2meta.nbAvailable C.clusterSectors
  rw [Nat.mul_comm] at hdiv
  unfold copyTail
  simp only
  split_ifs with htail hav hav
  · have hwhole := h.whole_eq htail
    omega
  · rfl
  · have hmul : (acb.l2meta.nbAvailable / C.clusterSectors + 1) * C.clusterSectors
        = acb.l2meta.nbClusters * C.clusterSectors := by rw [h.tail_eq htail]
    rw [Nat.add_mul, Nat.one_mul] at hmul
    have hcopy := copySectors_file_add C bs
      ((acb.l2meta.offset / C.clusterSize + acb.l2meta.nbAvailable / C.clusterSectors) * C.clusterSectors)
      (acb.l2meta.clusterOffset + acb.l2meta.nbAvailable / C.clusterSectors)
      (acb.l2meta.nbAvailable % C.clusterSectors) C.clusterSectors
      (i - acb.l2meta.nbAvailable / C.clusterSectors * C.clusterSectors) (by omega) (by omega)
    have hle : acb.l2meta.nbAvailable / C.clusterSectors * C.clusterSectors ≤ i := by omega
    rw [Nat.add_mul, Nat.add_mul, Nat.add_assoc, Nat.add_sub_cancel' hle, Nat.add_assoc,
      Nat.add_sub_cancel' hle, h.first_eq] at hcopy
    rw [Nat.add_mul, h.first_eq]
    exact hcopy
  · apply copySectors_file
    rw [Nat.add_mul]
    omega

end Allocating

section Free

variable (C) (old : List L2Entry) (bs : BDRVQcowState α)

theorem foldl_free_tables : (old.foldl (freeAnyClusters C) bs).l1 = bs.l1 ∧
    (old.foldl (freeAnyClusters C) bs).l2 = bs.l2 ∧ (old.foldl (freeAnyClusters C) bs).file = bs.file := by
  induction old generalizing bs with
  | nil => exact ⟨rfl, rfl, rfl⟩
  | cons e old ih => exact ih (freeAnyClusters C bs e)

theorem foldl_free_entry (b : Nat) : (old.foldl (freeAnyClusters C) bs).entry C b = bs.entry C b := by
  obtain ⟨hl1, hl2, -⟩ := foldl_free_tables C old bs
  rw [BDRVQcowState.entry, BDRVQcowState.entry, hl1, hl2]

/-- Each entry takes a count off the clusters it occupies, once. -/
theorem foldl_free_refcount_le (c : Nat) : bs.refcount c
    ≤ (old.foldl (freeAnyClusters C) bs).refcount c + old.countP (c ∈ L2Entry.hosts C ·) := by
  induction old generalizing bs with
  | nil => exact le_rfl
  | cons e old ih =>
    have hrest := ih (freeAnyClusters C bs e)
    have hfirst := freeClusters_refcount_le bs (e.extent C).1 (e.extent C).2 c
    have hhosts : c ∈ List.range' (e.extent C).1 (e.extent C).2 ↔ c ∈ e.hosts C := Iff.rfl
    rw [List.foldl_cons, List.countP_cons]
    simp only [hhosts] at hfirst
    simp only [decide_eq_true_eq]
    rw [freeAnyClusters] at hrest ⊢
    omega

theorem foldl_free_refcount (c : Nat) (hc : ∀ e ∈ old, c ∉ e.hosts C) :
    (old.foldl (freeAnyClusters C) bs).refcount c = bs.refcount c := by
  induction old generalizing bs with
  | nil => rfl
  | cons e old ih =>
    rw [List.foldl_cons, ih _ fun f hf => hc f (List.mem_cons_of_mem _ hf)]
    exact freeClusters_refcount_of_notMem bs _ _ c (hc e List.mem_cons_self)

end Free

/-- What a completed allocation leaves: the clusters of the part are mapped to those allocated to it,
where the sectors that the part leaves out are copied to. -/
structure Linked (C : Image α) (bs bs' : BDRVQcowState α) (acb : QCowAIOCB α) : Prop where
  l1 : bs'.l1 = bs.l1
  mapped : ∀ b, acb.l2meta.Maps C b → bs'.entry C b
    = .standard true (acb.l2meta.clusterOffset + (b - acb.sectorNum / C.clusterSectors))
  entry : ∀ b, ¬ acb.l2meta.Maps C b → bs'.entry C b = bs.entry C b
  file : ∀ y, (y / C.clusterSectors < acb.l2meta.clusterOffset ∨
    acb.l2meta.clusterOffset + acb.l2meta.nbClusters ≤ y / C.clusterSectors) → bs'.file y = bs.file y
  copies : ∀ i < acb.l2meta.nbClusters * C.clusterSectors, bs'.file (acb.l2meta.clusterOffset * C.clusterSectors + i)
    = if i < acb.l2meta.nStart ∨ acb.l2meta.nbAvailable ≤ i then
        C.toFile (acb.sectorNum / C.clusterSectors * C.clusterSectors + i)
          (qcowRead C bs (acb.sectorNum / C.clusterSectors * C.clusterSectors + i))
      else bs.file (acb.l2meta.clusterOffset * C.clusterSectors + i)
  single : ∀ c, bs.refcount c = 1 → (∀ b, acb.l2meta.Maps C b → c ∉ (bs.entry C b).hosts C) →
    bs'.refcount c = 1
  covers : Covers (bs.hosts C) bs.refcount → Covers (bs'.hosts C) bs'.refcount

namespace Allocating

variable (h : Allocating C bs acb)

include h

theorem copies (i : Nat) (hi : i < acb.l2meta.nbClusters * C.clusterSectors) :
    (copyTail C (copyHead C bs acb.l2meta) acb.l2meta).file (acb.l2meta.clusterOffset * C.clusterSectors + i)
      = if i < acb.l2meta.nStart ∨ acb.l2meta.nbAvailable ≤ i then
          C.toFile (acb.sectorNum / C.clusterSectors * C.clusterSectors + i)
            (qcowRead C bs (acb.sectorNum / C.clusterSectors * C.clusterSectors + i))
        else bs.file (acb.l2meta.clusterOffset * C.clusterSectors + i) := by
  have hkeeps := copyHead_keeps C bs acb.l2meta
  have hread := h.qcowRead_eq hkeeps.entry (fun y hy => h.copyHead_file hy)
  have hav := h.available
  rw [(hkeeps.allocating h).copyTail_file_add i hi, h.copyHead_file_add i, hread]
  by_cases htail : acb.l2meta.nbAvailable ≤ i
  · rw [if_pos htail, if_pos (Or.inr htail)]
  · rw [if_neg htail]
    by_cases hhead : i < acb.l2meta.nStart
    · rw [if_pos hhead, if_pos (Or.inl hhead)]
    · rw [if_neg hhead, if_neg (not_or.mpr ⟨hhead, htail⟩)]

/-- The image before the entries are replaced, and the entries it gives up. -/
theorem linkL2_eq : linkL2 C bs acb.l2meta =
    ((((List.range' (acb.sectorNum / C.clusterSectors) acb.l2meta.nbClusters).map
        (bs.entry C)).filter (· ≠ .free)).foldl (freeAnyClusters C)
      { copyTail C (copyHead C bs acb.l2meta) acb.l2meta with
        l2 := fun b =>
          if acb.sectorNum / C.clusterSectors ≤ b ∧ b < acb.sectorNum / C.clusterSectors + acb.l2meta.nbClusters then
            .standard true (acb.l2meta.clusterOffset + (b - acb.sectorNum / C.clusterSectors))
          else (copyTail C (copyHead C bs acb.l2meta) acb.l2meta).l2 b }) := by
  have hkeeps := (copyHead_keeps C bs acb.l2meta).trans (copyTail_keeps C _ acb.l2meta)
  obtain ⟨c, hc⟩ := h.table
  have htable := hkeeps.tables _ c hc
  have hentry : (copyTail C (copyHead C bs acb.l2meta) acb.l2meta).entry C = bs.entry C :=
    funext hkeeps.entry
  rw [linkL2, if_neg (Nat.pos_iff_ne_zero.mp h.clusters)]
  simp only [h.first_eq, getClusterTable_of_table htable, hentry]

theorem linked_entry (b : Nat) : (linkL2 C bs acb.l2meta).entry C b
    = if acb.sectorNum / C.clusterSectors ≤ b ∧ b < acb.sectorNum / C.clusterSectors + acb.l2meta.nbClusters then
        .standard true (acb.l2meta.clusterOffset + (b - acb.sectorNum / C.clusterSectors))
      else bs.entry C b := by
  have hkeeps := (copyHead_keeps C bs acb.l2meta).trans (copyTail_keeps C _ acb.l2meta)
  rw [h.linkL2_eq, foldl_free_entry]
  by_cases hb : acb.sectorNum / C.clusterSectors ≤ b ∧ b < acb.sectorNum / C.clusterSectors + acb.l2meta.nbClusters
  · obtain ⟨c, hc⟩ := h.table
    rw [← h.same_table ((h.maps_iff b).mpr hb)] at hc
    have htable := hkeeps.tables _ c hc
    rw [if_pos hb, BDRVQcowState.entry]
    simp only [htable, if_pos hb]
  · rw [if_neg hb, ← hkeeps.entry b, BDRVQcowState.entry, BDRVQcowState.entry]
    simp only [if_neg hb]

theorem linked_single (c : Nat) (hone : bs.refcount c = 1)
    (hc : ∀ b, acb.l2meta.Maps C b → c ∉ (bs.entry C b).hosts C) : (linkL2 C bs acb.l2meta).refcount c = 1 := by
  rw [h.linkL2_eq, foldl_free_refcount]
  · show (copyTail C (copyHead C bs acb.l2meta) acb.l2meta).refcount c = 1
    rw [copyTail_refcount, copyHead_refcount, hone]
  · intro e he
    obtain ⟨b, hb, rfl⟩ := List.mem_map.mp (List.mem_filter.mp he).1
    exact hc b ((h.maps_iff b).mpr (List.mem_range'_1.mp hb))

theorem linked_l1 : (linkL2 C bs acb.l2meta).l1 = bs.l1 := by
  rw [h.linkL2_eq, (foldl_free_tables C _ _).1]
  show (copyTail C (copyHead C bs acb.l2meta) acb.l2meta).l1 = bs.l1
  rw [copyTail_l1, copyHead_l1]

theorem linked_file : (linkL2 C bs acb.l2meta).file
    = (copyTail C (copyHead C bs acb.l2meta) acb.l2meta).file := by
  rw [h.linkL2_eq, (foldl_free_tables C _ _).2.2]

theorem linked_hosts (c : Nat) : bs.refcount c ≤ (linkL2 C bs acb.l2meta).refcount c
    + (((Finset.Ico (acb.sectorNum / C.clusterSectors)
        (acb.sectorNum / C.clusterSectors + acb.l2meta.nbClusters)).map ⟨Sum.inr, Sum.inr_injective⟩).filter
          (c ∈ bs.hosts C ·)).card := by
  have hle := foldl_free_refcount_le C (((List.range' (acb.sectorNum / C.clusterSectors)
    acb.l2meta.nbClusters).map (bs.entry C)).filter (· ≠ .free))
    { copyTail C (copyHead C bs acb.l2meta) acb.l2meta with
      l2 := fun b =>
        if acb.sectorNum / C.clusterSectors ≤ b ∧ b < acb.sectorNum / C.clusterSectors + acb.l2meta.nbClusters then
          .standard true (acb.l2meta.clusterOffset + (b - acb.sectorNum / C.clusterSectors))
        else (copyTail C (copyHead C bs acb.l2meta) acb.l2meta).l2 b } c
  rw [← h.linkL2_eq] at hle
  have hcount : bs.refcount c = (copyTail C (copyHead C bs acb.l2meta) acb.l2meta).refcount c := by
    rw [copyTail_refcount, copyHead_refcount]
  rw [hcount]
  apply hle.trans
  apply Nat.add_le_add_left
  rw [List.countP_filter, List.countP_map, Finset.filter_map, Finset.card_map, List.countP_eq_length_filter,
    ← List.toFinset_card_of_nodup ((List.nodup_range' ..).filter _)]
  apply Finset.card_le_card
  intro b hb
  simp only [List.mem_toFinset, List.mem_filter, List.mem_range'_1, Function.comp_apply, Bool.and_eq_true,
    decide_eq_true_eq] at hb
  simp only [Finset.mem_filter, Finset.mem_Ico, Function.comp_apply]
  exact ⟨hb.1, hb.2.1⟩

theorem linked : Linked C bs (linkL2 C bs acb.l2meta) acb where
  l1 := h.linked_l1
  mapped b hb := by rw [h.linked_entry, if_pos ((h.maps_iff b).mp hb)]
  entry b hb := by rw [h.linked_entry, if_neg fun hcon => hb ((h.maps_iff b).mpr hcon)]
  file y hy := by
    rw [h.linked_file, ((copyHead_keeps C bs acb.l2meta).allocating h).copyTail_file hy, h.copyHead_file hy]
  copies i hi := by rw [h.linked_file, h.copies i hi]
  single := h.linked_single
  covers hc := by
    apply hc.relink ((Finset.Ico (acb.sectorNum / C.clusterSectors)
      (acb.sectorNum / C.clusterSectors + acb.l2meta.nbClusters)).map ⟨Sum.inr, Sum.inr_injective⟩)
    · intro r hr
      cases r with
      | inl t => simp only [BDRVQcowState.hosts, h.linked_l1]
      | inr b =>
        have hb : ¬ (acb.sectorNum / C.clusterSectors ≤ b ∧
            b < acb.sectorNum / C.clusterSectors + acb.l2meta.nbClusters) := by
          simpa using hr
        simp only [BDRVQcowState.hosts, h.linked_entry, if_neg hb]
    · intro r hr c hc
      obtain ⟨b, hb, rfl⟩ := Finset.mem_map.mp hr
      have hb := Finset.mem_Ico.mp hb
      have hnew : c = acb.l2meta.clusterOffset + (b - acb.sectorNum / C.clusterSectors) := by
        simpa [BDRVQcowState.hosts, h.linked_entry, hb, L2Entry.hosts, L2Entry.extent] using hc
      obtain ⟨hone, hun⟩ := h.held (b - acb.sectorNum / C.clusterSectors) (by omega)
      rw [← hnew] at hone hun
      refine ⟨hun, ?_, ?_⟩
      · rw [h.linked_single c hone fun b' _ => hun (.inr b')]
      · intro r' hr' hc'
        obtain ⟨b', hb', rfl⟩ := Finset.mem_map.mp hr'
        have hb' := Finset.mem_Ico.mp hb'
        have hnew' : c = acb.l2meta.clusterOffset + (b' - acb.sectorNum / C.clusterSectors) := by
          simpa [BDRVQcowState.hosts, h.linked_entry, hb', L2Entry.hosts, L2Entry.extent] using hc'
        show (Sum.inr b' : Nat ⊕ Nat) = Sum.inr b
        rw [show b' = b by omega]
    · exact h.linked_hosts

end Allocating

end Colama.Qemu.Qcow2

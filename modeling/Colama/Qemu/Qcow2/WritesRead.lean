import Colama.Qemu.Qcow2.WritesLink

namespace Colama.Qemu.Qcow2

open Lib

variable {α : Type*} {C : Image α} {bs bs' : BDRVQcowState α} {acb acb' : QCowAIOCB α}

/-- The data of a part reaches the file. -/
def writePart (C : Image α) (bs : BDRVQcowState α) (acb : QCowAIOCB α) : BDRVQcowState α :=
  writeSectors C bs (acb.l2meta.clusterOffset * C.clusterSectors + acb.sectorNum % C.clusterSectors)
    acb.sectorNum (acb.buf.take acb.curNrSectors)

theorem writePart_keeps (C : Image α) (bs : BDRVQcowState α) (acb : QCowAIOCB α) :
    Keeps C bs (writePart C bs acb) :=
  writeSectors_keeps C bs _ _ _

/-- The sectors of a part read as its data, and all others as before. -/
def Replaces (C : Image α) (bs bs' : BDRVQcowState α) (acb : QCowAIOCB α) : Prop :=
  ∀ x, (acb.sectorNum ≤ x → x < acb.sectorNum + acb.curNrSectors →
      acb.buf[x - acb.sectorNum]? = some (qcowRead C bs' x)) ∧
    (¬ (acb.sectorNum ≤ x ∧ x < acb.sectorNum + acb.curNrSectors) → qcowRead C bs' x = qcowRead C bs x)

theorem writePart_file (hle : acb.curNrSectors ≤ acb.buf.length) (y : Nat)
    (hy : ¬ (acb.l2meta.clusterOffset * C.clusterSectors + acb.sectorNum % C.clusterSectors ≤ y ∧
      y < acb.l2meta.clusterOffset * C.clusterSectors + acb.sectorNum % C.clusterSectors + acb.curNrSectors)) :
    (writePart C bs acb).file y = bs.file y := by
  apply writeSectors_file
  rwa [List.length_take, Nat.min_eq_left hle]

theorem writePart_file_add (C : Image α) (bs : BDRVQcowState α) (acb : QCowAIOCB α) (k : Nat) (hk : k < acb.curNrSectors) (hkb : k < acb.buf.length) :
    (writePart C bs acb).file (acb.l2meta.clusterOffset * C.clusterSectors + acb.sectorNum % C.clusterSectors + k)
      = C.toFile (acb.sectorNum + k) acb.buf[k] := by
  have hlen : k < (acb.buf.take acb.curNrSectors).length := by
    rw [List.length_take]
    omega
  rw [writePart, writeSectors_file_add _ _ _ _ _ k hlen, List.getElem_take]

namespace Allocating

variable (h : Allocating C bs acb)

include h

theorem part_maps {x : Nat} (hlo : acb.sectorNum ≤ x) (hhi : x < acb.sectorNum + acb.curNrSectors) :
    acb.l2meta.Maps C (x / C.clusterSectors) := by
  rw [h.maps_iff]
  apply And.intro (Nat.div_le_div_right hlo)
  rw [Nat.div_lt_iff_lt_mul C.clusterSectors_pos, Nat.add_mul]
  have hstart := h.sectorNum_eq
  have hav := h.available
  have hwithin := h.within
  omega

theorem writePart_outside {y : Nat} (hy : y / C.clusterSectors < acb.l2meta.clusterOffset ∨
    acb.l2meta.clusterOffset + acb.l2meta.nbClusters ≤ y / C.clusterSectors) :
    (writePart C bs acb).file y = bs.file y := by
  apply writePart_file h.le
  have hout := outside hy
  have hav := h.available
  have hwithin := h.within
  rw [← h.start]
  omega

theorem replaces : Replaces C bs (linkL2 C (writePart C bs acb) acb.l2meta) acb := by
  have hlink := ((writePart_keeps C bs acb).allocating h).linked
  have hread : ∀ x, qcowRead C (writePart C bs acb) x = qcowRead C bs x :=
    h.qcowRead_eq (fun _ => rfl) fun y hy => h.writePart_outside hy
  have hstart := h.sectorNum_eq
  have hav := h.available
  have hwithin := h.within
  intro x
  by_cases hx : acb.l2meta.Maps C (x / C.clusterSectors)
  · obtain ⟨hlo, hhi⟩ := (h.maps_iff _).mp hx
    obtain ⟨i, hi⟩ : ∃ i, i = (x / C.clusterSectors - acb.sectorNum / C.clusterSectors) * C.clusterSectors
      + x % C.clusterSectors := ⟨_, rfl⟩
    have hxi : acb.sectorNum / C.clusterSectors * C.clusterSectors + i = x := by
      rw [hi, ← Nat.add_assoc, ← Nat.add_mul, Nat.add_sub_cancel' hlo, Nat.mul_comm, Nat.div_add_mod]
    have hin : i < acb.l2meta.nbClusters * C.clusterSectors := by
      have hxlt := (Nat.div_lt_iff_lt_mul C.clusterSectors_pos).mp hhi
      rw [Nat.add_mul] at hxlt
      omega
    have hsector : qcowRead C (linkL2 C (writePart C bs acb) acb.l2meta) x
        = C.fromFile x ((linkL2 C (writePart C bs acb) acb.l2meta).file
            (acb.l2meta.clusterOffset * C.clusterSectors + i)) := by
      rw [qcowRead, hlink.mapped _ hx]
      simp only
      rw [Nat.add_mul, Nat.add_assoc, ← hi]
    rw [hlink.copies i hin, hxi, hread] at hsector
    by_cases hpart : i < acb.l2meta.nStart ∨ acb.l2meta.nbAvailable ≤ i
    · rw [if_pos hpart, Image.fromFile_toFile] at hsector
      exact ⟨fun hlo hhi => by omega, fun _ => hsector⟩
    · apply And.intro
      · intro hxlo hxhi
        have hle := h.le
        have hk : x - acb.sectorNum < acb.buf.length := by omega
        have hfile := writePart_file_add C bs acb (x - acb.sectorNum) (by omega) hk
        rw [← h.start, show acb.l2meta.clusterOffset * C.clusterSectors + acb.l2meta.nStart
            + (x - acb.sectorNum) = acb.l2meta.clusterOffset * C.clusterSectors + i by omega,
          Nat.add_sub_cancel' hxlo] at hfile
        rw [hsector, if_neg hpart, hfile, Image.fromFile_toFile]
        exact List.getElem?_eq_getElem hk
      · intro hout
        omega
  · apply And.intro
    · intro hxlo hxhi
      exact absurd (h.part_maps hxlo hxhi) hx
    · intro _
      rw [← hread x]
      apply qcowRead_congr (hlink.entry _ hx)
      intro y hy
      exact hlink.file y (h.hosts_ne hy)

end Allocating

namespace InPlace

variable (h : InPlace C bs acb)

include h

/-- The cluster of the file that a sector of the part goes to is named by its own entry only. -/
theorem alone (hs : Sound C bs) {k b : Nat} (hk : k < acb.curNrSectors)
    (hb : acb.l2meta.clusterOffset + ((acb.sectorNum + k) / C.clusterSectors - acb.sectorNum / C.clusterSectors)
      ∈ (bs.entry C b).hosts C) : (acb.sectorNum + k) / C.clusterSectors = b := by
  have hentry := h.entries k hk
  have hnamed : acb.l2meta.clusterOffset
      + ((acb.sectorNum + k) / C.clusterSectors - acb.sectorNum / C.clusterSectors)
      ∈ bs.hosts C (.inr ((acb.sectorNum + k) / C.clusterSectors)) := by
    simp [BDRVQcowState.hosts, hentry, L2Entry.hosts, L2Entry.extent]
  have hnamed' : acb.l2meta.clusterOffset
      + ((acb.sectorNum + k) / C.clusterSectors - acb.sectorNum / C.clusterSectors) ∈ bs.hosts C (.inr b) := hb
  exact Sum.inr.inj (hs.covers.unique (hs.copied _ _ hentry) hnamed hnamed')

theorem replaces (hs : Sound C bs) : Replaces C bs (linkL2 C (writePart C bs acb) acb.l2meta) acb := by
  have hpos := C.clusterSectors_pos
  have hdiv := Nat.div_add_mod acb.sectorNum C.clusterSectors
  rw [Nat.mul_comm] at hdiv
  rw [linkL2, if_pos h.unallocated]
  intro x
  by_cases hx : ∃ k < acb.curNrSectors, (acb.sectorNum + k) / C.clusterSectors = x / C.clusterSectors
  · obtain ⟨k, hk, hkx⟩ := hx
    have hentry := h.entries k hk
    rw [hkx] at hentry
    have hlo : acb.sectorNum / C.clusterSectors ≤ x / C.clusterSectors := by
      rw [← hkx]
      exact Nat.div_le_div_right (Nat.le_add_right _ _)
    obtain ⟨i, hi⟩ : ∃ i, i = (x / C.clusterSectors - acb.sectorNum / C.clusterSectors) * C.clusterSectors
      + x % C.clusterSectors := ⟨_, rfl⟩
    have hxi : acb.sectorNum / C.clusterSectors * C.clusterSectors + i = x := by
      rw [hi, ← Nat.add_assoc, ← Nat.add_mul, Nat.add_sub_cancel' hlo, Nat.mul_comm, Nat.div_add_mod]
    have hsector : ∀ bs' : BDRVQcowState α, bs'.entry C (x / C.clusterSectors) = bs.entry C (x / C.clusterSectors) →
        qcowRead C bs' x = C.fromFile x (bs'.file (acb.l2meta.clusterOffset * C.clusterSectors + i)) := by
      intro bs' hbs'
      rw [qcowRead, hbs', hentry]
      simp only
      rw [Nat.add_mul, Nat.add_assoc, ← hi]
    rw [hsector (writePart C bs acb) rfl, hsector bs rfl]
    apply And.intro
    · intro hxlo hxhi
      have hle := h.le
      have hkb : x - acb.sectorNum < acb.buf.length := by omega
      have hfile := writePart_file_add C bs acb (x - acb.sectorNum) (by omega) hkb
      rw [show acb.l2meta.clusterOffset * C.clusterSectors + acb.sectorNum % C.clusterSectors
          + (x - acb.sectorNum) = acb.l2meta.clusterOffset * C.clusterSectors + i by omega,
        Nat.add_sub_cancel' hxlo] at hfile
      rw [hfile, Image.fromFile_toFile]
      exact List.getElem?_eq_getElem hkb
    · intro hout
      rw [writePart_file h.le]
      omega
  · apply And.intro
    · intro hxlo hxhi
      exact absurd ⟨x - acb.sectorNum, by omega, by rw [Nat.add_sub_cancel' hxlo]⟩ hx
    · intro _
      apply qcowRead_congr ((writePart_keeps C bs acb).entry _)
      intro y hy
      apply writePart_file h.le
      rintro ⟨hylo, hyhi⟩
      obtain ⟨k, hk⟩ := Nat.exists_eq_add_of_le hylo
      have hyk : y / C.clusterSectors = acb.l2meta.clusterOffset
          + ((acb.sectorNum + k) / C.clusterSectors - acb.sectorNum / C.clusterSectors) := by
        have hsum : acb.sectorNum + k
            = C.clusterSectors * (acb.sectorNum / C.clusterSectors) + (acb.sectorNum % C.clusterSectors + k) := by
          rw [Nat.mul_comm]
          omega
        rw [hk, hsum, Nat.mul_add_div hpos, Nat.add_assoc, Nat.mul_comm, Nat.mul_add_div hpos,
          Nat.add_sub_cancel_left]
      rw [hyk] at hy
      exact hx ⟨k, by omega, h.alone hs (by omega) hy⟩

end InPlace

theorem writePart_sound (hs : Sound C bs) (acb : QCowAIOCB α) : Sound C (writePart C bs acb) :=
  (writePart_keeps C bs acb).sound hs hs.covers

namespace Linked

variable (hl : Linked C bs bs' acb) (h : Allocating C bs acb)

include hl h

theorem sound (hs : Sound C bs) : Sound C bs' where
  covers := hl.covers hs.covers
  copied b c hb := by
    by_cases hm : acb.l2meta.Maps C b
    · have hrange := (h.maps_iff b).mp hm
      rw [hl.mapped b hm, L2Entry.standard.injEq] at hb
      obtain ⟨hone, hun⟩ := h.held (b - acb.sectorNum / C.clusterSectors) (by omega)
      rw [hb.2] at hone hun
      exact hl.single c hone fun b' _ => hun (.inr b')
    · rw [hl.entry b hm] at hb
      have hone := hs.copied b c hb
      have hnamed : c ∈ bs.hosts C (.inr b) := by
        simp [BDRVQcowState.hosts, hb, L2Entry.hosts, L2Entry.extent]
      apply hl.single c hone
      intro b' hm' hb'
      have hnamed' : c ∈ bs.hosts C (.inr b') := hb'
      rw [← Sum.inr.inj (hs.covers.unique hone hnamed hnamed')] at hm'
      exact hm hm'

theorem inPlace (hin : InPlace C bs acb') : InPlace C bs' acb' :=
  { hin with
    entries := by
      intro k hk
      have hentry := hin.entries k hk
      rw [hl.entry, hentry]
      intro hm
      apply h.unshared _ hm
      rw [hentry]
      exact trivial }

theorem allocating (hal : Allocating C bs acb') (hguest : ∀ b, acb'.l2meta.Maps C b → ¬ acb.l2meta.Maps C b)
    (hhost : ∀ i < acb.l2meta.nbClusters, ∀ j < acb'.l2meta.nbClusters,
      acb.l2meta.clusterOffset + i ≠ acb'.l2meta.clusterOffset + j) : Allocating C bs' acb' :=
  { hal with
    table := by rw [hl.l1]; exact hal.table
    unshared := fun b hb => by rw [hl.entry b (hguest b hb)]; exact hal.unshared b hb
    held := by
      intro j hj
      obtain ⟨hone, hun⟩ := hal.held j hj
      apply And.intro (hl.single _ hone fun b _ => hun (.inr b))
      intro r
      cases r with
      | inl t =>
        have ht := hun (.inl t)
        simp only [BDRVQcowState.hosts, hl.l1] at ht ⊢
        exact ht
      | inr b =>
        have hb := hun (.inr b)
        simp only [BDRVQcowState.hosts] at hb ⊢
        by_cases hm : acb.l2meta.Maps C b
        · have hrange := (h.maps_iff b).mp hm
          have hne := hhost (b - acb.sectorNum / C.clusterSectors) (by omega) j hj
          rw [hl.mapped b hm]
          simpa [L2Entry.hosts, L2Entry.extent] using hne.symm
        · rwa [hl.entry b hm] }

end Linked

end Colama.Qemu.Qcow2

import Colama.Qemu.Qcow2.WritesInv

namespace Colama.Qemu.Qcow2

open Lib

variable {α : Type*} {C : Image α} {w w' : Writes α} {loose rest : List Nat} {id : Nat}

/-- A number of clusters, cut at the end of the write, is a part of it. -/
theorem Image.part_spec (C : Image α) (x : Nat) {len n : Nat} (hlen : 0 < len) (hn : 0 < n) :
    x % C.clusterSectors < min (n * C.clusterSectors) (C.nEnd x len) ∧
      min (n * C.clusterSectors) (C.nEnd x len) ≤ x % C.clusterSectors + len ∧
      (min (n * C.clusterSectors) (C.nEnd x len) < x % C.clusterSectors + len →
        (x + (min (n * C.clusterSectors) (C.nEnd x len) - x % C.clusterSectors)) % C.clusterSectors = 0) := by
  have hpos := C.clusterSectors_pos
  have hmod := Nat.mod_lt x hpos
  have hdiv := Nat.div_add_mod x C.clusterSectors
  have hnle : 1 * C.clusterSectors ≤ n * C.clusterSectors := Nat.mul_le_mul_right _ hn
  have hcap : 1 * C.clusterSectors ≤ maxCryptClusters * C.clusterSectors :=
    Nat.mul_le_mul_right _ (by decide)
  have hend : C.nEnd x len = x % C.clusterSectors + len ∨
      C.nEnd x len = maxCryptClusters * C.clusterSectors ∧ C.nEnd x len ≤ x % C.clusterSectors + len := by
    rw [Image.nEnd]
    split_ifs
    · rcases Nat.le_total (x % C.clusterSectors + len) (maxCryptClusters * C.clusterSectors) with hle | hle
      · exact Or.inl (Nat.min_eq_left hle)
      · rw [Nat.min_eq_right hle]
        exact Or.inr ⟨rfl, hle⟩
    · exact Or.inl rfl
  have haligned : ∀ k, x % C.clusterSectors < k * C.clusterSectors →
      (x + (k * C.clusterSectors - x % C.clusterSectors)) % C.clusterSectors = 0 := by
    intro k hk
    have hsum : x + (k * C.clusterSectors - x % C.clusterSectors)
        = C.clusterSectors * (x / C.clusterSectors) + k * C.clusterSectors := by omega
    rw [hsum, Nat.mul_comm, ← Nat.add_mul, Nat.mul_mod_left]
  refine ⟨by omega, by omega, fun hlt => ?_⟩
  rcases Nat.le_total (n * C.clusterSectors) (C.nEnd x len) with hle | hle
  · rw [Nat.min_eq_left hle]
    exact haligned n (by omega)
  · rw [Nat.min_eq_right hle] at hlt ⊢
    rcases hend with hend | hend
    · omega
    · rw [hend.1]
      exact haligned _ (by omega)

/-- What is left alone while a request is taken on to its next part. -/
structure Frame (C : Image α) (w w' : Writes α) (id : Nat) : Prop where
  started : w'.started = w.started
  rest : ∀ j, (w'.acb j).sectorNum = (w.acb j).sectorNum ∧ (w'.acb j).buf = (w.acb j).buf
  read : ∀ x, qcowRead C w'.bs x = qcowRead C w.bs x
  idle : ∀ j, j ∉ w.clusterAllocs → j ≠ id → w'.acb j = w.acb j

namespace Writes

variable (w) (id nStart nEnd : Nat)

/-- The first guest cluster of what is left of a request. -/
def cluster (C : Image α) (w : Writes α) (id : Nat) : Nat := (w.acb id).sectorNum / C.clusterSectors

/-- The image once the table for the request is there. -/
def tabled (C : Image α) (w : Writes α) (id : Nat) : BDRVQcowState α := getClusterTable C w.bs (w.cluster C id)

theorem allocClusterOffset_copied {c : Nat}
    (hentry : (w.tabled C id).entry C (w.cluster C id) = .standard true c) :
    w.allocClusterOffset C id nStart nEnd =
      let nbClusters := countContiguousClusters ((w.tabled C id).entry C) (w.cluster C id)
        (min (nbClustersTo C nEnd) (C.l2Size - w.cluster C id % C.l2Size)) 0
      let nbAvailable := min (nbClusters * C.clusterSectors) nEnd
      if nbAvailable < nStart then none
      else
        some { w.setAcb id { w.acb id with
          curNrSectors := nbAvailable - nStart
          l2meta := { (w.acb id).l2meta with
            clusterOffset := c, nbAvailable := nbAvailable, nbClusters := 0, dependsOn := none } } with
          bs := w.tabled C id } := by
  unfold tabled cluster at hentry ⊢
  rw [allocClusterOffset]
  simp only [C.offset_div, hentry]

/-- The number of clusters that a write to an entry without the flag asks for. -/
def wanted (C : Image α) (w : Writes α) (id nEnd : Nat) : Nat :=
  match (w.tabled C id).entry C (w.cluster C id) with
  | .compressed _ _ => 1
  | _ => min (nbClustersTo C nEnd) (C.l2Size - w.cluster C id % C.l2Size)

theorem allocClusterOffset_uncopied
    (hentry : ¬ ((w.tabled C id).entry C (w.cluster C id)).IsCopied) :
    w.allocClusterOffset C id nStart nEnd =
      match walkAllocs C w.acb ((w.acb id).sectorNum * 512) w.clusterAllocs
        (countAvailable ((w.tabled C id).entry C) (w.cluster C id) (w.wanted C id nEnd) (w.wanted C id nEnd) 0) with
      | .inl old =>
        some { w.setAcb id { w.acb id with
          curNrSectors := 0
          l2meta := { (w.acb id).l2meta with nbClusters := 0, dependsOn := some old } } with bs := w.tabled C id }
      | .inr nbClusters =>
        if nbClusters = 0 then none
        else
          let alloc := allocClusters C (w.tabled C id) (uint32 (nbClusters * C.clusterSize))
          let nbAvailable := min (nbClusters * C.clusterSectors) nEnd
          some { w.setAcb id { w.acb id with
            curNrSectors := nbAvailable - nStart
            l2meta := { (w.acb id).l2meta with
              offset := (w.acb id).sectorNum * 512, clusterOffset := alloc.1, nStart := nStart
              nbAvailable := nbAvailable, nbClusters := nbClusters } } with
            bs := alloc.2
            clusterAllocs := id :: w.clusterAllocs } := by
  unfold wanted
  unfold tabled cluster at hentry ⊢
  rw [allocClusterOffset]
  simp only [C.offset_div]
  cases he : (getClusterTable C w.bs ((w.acb id).sectorNum / C.clusterSectors)).entry C
      ((w.acb id).sectorNum / C.clusterSectors) with
  | free => rfl
  | compressed coffset n => rfl
  | standard copied c =>
    cases copied with
    | true => exact absurd (by rw [he]; exact trivial) hentry
    | false => rfl

theorem launch_of_pos (hpos : (w.acb id).l2meta.nbClusters ≠ 0) :
    w.launch id = { w with inFlight := id :: w.inFlight } := by
  rw [launch]
  split
  next hzero _ => exact absurd hzero hpos
  next => rfl

theorem launch_of_none (hnone : (w.acb id).l2meta.dependsOn = none) :
    w.launch id = { w with inFlight := id :: w.inFlight } := by
  rw [launch]
  split
  next hsome =>
    rw [hnone] at hsome
    cases hsome
  next => rfl

theorem launch_of_some {old : Nat} (hzero : (w.acb id).l2meta.nbClusters = 0)
    (hsome : (w.acb id).l2meta.dependsOn = some old) : w.launch id = w.park old id := by
  rw [launch, hzero, hsome]
  rfl

end Writes

/-- How many clusters an allocation may ask for at most. -/
structure Bound (C : Image α) (x len n : Nat) : Prop where
  pos : 0 < n
  fits : n * C.clusterSize < 2 ^ 31
  le : n ≤ C.clustersTo (C.nEnd x len)
  inside : x / C.clusterSectors % C.l2Size + n ≤ C.l2Size

theorem Bound.mono {x len n m : Nat} (h : Bound C x len n) (hpos : 0 < m) (hle : m ≤ n) : Bound C x len m where
  pos := hpos
  fits := (Nat.mul_le_mul_right _ hle).trans_lt h.fits
  le := hle.trans h.le
  inside := by
    have hin := h.inside
    omega

theorem Image.Fits.bound {x len : Nat} (h : C.Fits x len) (hlen : 0 < len) :
    Bound C x len (min (nbClustersTo C (C.nEnd x len)) (C.l2Size - x / C.clusterSectors % C.l2Size)) := by
  have hmod := Nat.mod_lt (x / C.clusterSectors) C.l2Size_pos
  have hend := (C.part_spec x hlen Nat.one_pos).1
  have hpos : 0 < C.clustersTo (C.nEnd x len) := C.clustersTo_pos (by omega)
  rw [nbClustersTo_of_lt h.1]
  exact {
    pos := by omega
    fits := h.2
    le := Nat.min_le_left _ _
    inside := by omega }

theorem Bound.wanted {x len : Nat} (h : Bound C x len
    (min (nbClustersTo C (C.nEnd x len)) (C.l2Size - x / C.clusterSectors % C.l2Size)))
    (hx : (w.acb id).sectorNum = x) : Bound C x len (w.wanted C id (C.nEnd x len)) := by
  rw [← hx] at h ⊢
  unfold Writes.wanted Writes.cluster
  split
  · exact h.mono Nat.one_pos h.pos
  · exact h

/-- The clusters of a part, cut at its end, hold its last sector in their last cluster. -/
theorem Bound.last {x len n : Nat} (h : Bound C x len n) :
    (n - 1) * C.clusterSectors < min (n * C.clusterSectors) (C.nEnd x len) := by
  have hpos := h.pos
  have hle := h.le
  have hlast : (n - 1) * C.clusterSectors < C.nEnd x len := C.lt_of_lt_clustersTo (by omega)
  have hlt : (n - 1) * C.clusterSectors < n * C.clusterSectors :=
    Nat.mul_lt_mul_of_pos_right (by omega) C.clusterSectors_pos
  omega

theorem Frame.of_setAcb {a : QCowAIOCB α} (hstarted : w'.started = w.started)
    (hacb : w'.acb = (w.setAcb id a).acb) (hs : a.sectorNum = (w.acb id).sectorNum) (hb : a.buf = (w.acb id).buf)
    (hbs : ∀ x, qcowRead C w'.bs x = qcowRead C w.bs x) : Frame C w w' id where
  started := hstarted
  rest j := by
    rw [hacb]
    by_cases hj : j = id
    · rw [hj, Writes.setAcb_self]
      exact ⟨hs, hb⟩
    · rw [w.setAcb_of_ne a hj]
      exact ⟨rfl, rfl⟩
  read := hbs
  idle j _ hj := by rw [hacb, w.setAcb_of_ne a hj]

theorem Writes.tabled_read (w : Writes α) (id x : Nat) : qcowRead C (w.tabled C id) x = qcowRead C w.bs x :=
  qcowRead_of_keeps (getClusterTable_keeps C w.bs _) (getClusterTable_file C w.bs _) x

namespace Inv

variable (h : Inv C w loose)

include h

theorem ready (hid : id ∈ loose) : Ready C (w.acb id) := by
  have hlt := h.lt_length hid
  exact (h.follows id _ (List.getElem?_eq_getElem hlt)).2

theorem tabled (id : Nat) : Inv C { w with bs := w.tabled C id } loose :=
  h.keeps (getClusterTable_keeps C w.bs _) (getClusterTable_covers h.sound.covers _)

/-- The next part of a request whose first cluster may be written in place. -/
theorem nextPart_copied {c : Nat} (hl : loose.Perm (id :: rest)) (hd : w.deps id = [])
    (hbuf : (w.acb id).buf ≠ [])
    (hentry : (w.tabled C id).entry C (w.cluster C id) = .standard true c) :
    ∃ w', w.nextPart C id = some w' ∧ Inv C w' rest ∧ Frame C w w' id := by
  have hid := hl.mem_iff.mpr List.mem_cons_self
  have hlen := List.length_pos_iff.mpr hbuf
  have hbound : Bound C (w.acb id).sectorNum (w.acb id).buf.length
      (min (nbClustersTo C (C.nEnd (w.acb id).sectorNum (w.acb id).buf.length))
        (C.l2Size - w.cluster C id % C.l2Size)) := ((h.ready hid).2 hbuf).bound hlen
  obtain ⟨-, hcall⟩ := countContiguousClusters_spec ((w.tabled C id).entry C) (w.cluster C id)
    (min (nbClustersTo C (C.nEnd (w.acb id).sectorNum (w.acb id).buf.length))
      (C.l2Size - w.cluster C id % C.l2Size)) 0
  have hcpos := countContiguousClusters_pos ((w.tabled C id).entry C) (a := w.cluster C id) hbound.pos
    (by rw [hentry]; exact L2Entry.noConfusion)
  generalize hn : countContiguousClusters ((w.tabled C id).entry C) (w.cluster C id)
    (min (nbClustersTo C (C.nEnd (w.acb id).sectorNum (w.acb id).buf.length))
      (C.l2Size - w.cluster C id % C.l2Size)) 0 = n at hcall hcpos
  obtain ⟨hlo, hhi, haligned⟩ := C.part_spec (w.acb id).sectorNum hlen hcpos
  generalize hav : min (n * C.clusterSectors) (C.nEnd (w.acb id).sectorNum (w.acb id).buf.length) = av
    at hlo hhi haligned
  obtain ⟨a, ha⟩ : ∃ a : QCowAIOCB α, a = { w.acb id with
      curNrSectors := av - (w.acb id).sectorNum % C.clusterSectors
      l2meta := { (w.acb id).l2meta with
        clusterOffset := c, nbAvailable := av, nbClusters := 0, dependsOn := none } } := ⟨_, rfl⟩
  have hnext : w.nextPart C id = some
      { ({ w with bs := w.tabled C id } : Writes α).setAcb id a with inFlight := id :: w.inFlight } := by
    rw [Writes.nextPart]
    simp only [if_neg hbuf]
    rw [w.allocClusterOffset_copied id _ _ hentry]
    simp only [hn, hav]
    rw [if_neg (by omega), Option.map_some, ← ha, Writes.launch_of_none]
    · rfl
    · exact (congrArg (fun b : QCowAIOCB α => b.l2meta.dependsOn) (w.setAcb_self id a)).trans (by rw [ha])
  have hpart : InPlace C (w.tabled C id) a := by
    rw [ha]
    exact {
      pos := by simp only; omega
      le := by simp only; omega
      aligned := fun hlt => haligned (by simp only at hlt; omega)
      unallocated := rfl
      entries := by
        intro k hk
        have hdiv := Nat.div_add_mod (w.acb id).sectorNum C.clusterSectors
        have hle : w.cluster C id ≤ ((w.acb id).sectorNum + k) / C.clusterSectors :=
          Nat.div_le_div_right (Nat.le_add_right _ _)
        have hlt : ((w.acb id).sectorNum + k) / C.clusterSectors < w.cluster C id + n := by
          rw [Nat.div_lt_iff_lt_mul C.clusterSectors_pos, Nat.add_mul, Writes.cluster, Nat.mul_comm]
          simp only at hk
          omega
        have hj := hcall (((w.acb id).sectorNum + k) / C.clusterSectors - w.cluster C id) (Nat.zero_le _) (by omega)
        rw [hentry, Nat.add_sub_cancel' hle] at hj
        exact beq_iff_eq.mp hj }
  refine ⟨_, hnext, ?_, Frame.of_setAcb (a := a) rfl rfl (by rw [ha]) (by rw [ha]) (w.tabled_read id)⟩
  apply ((h.tabled id).setLoose_same hid (a := a) (by rw [ha]) (by rw [ha])).launchInPlace hl
  · rw [Writes.setAcb_self]
    exact hpart
  · rw [Writes.deps, Writes.setAcb_self, ha]
    exact hd

theorem alloc_lt {j : Nat} (hj : j ∈ w.clusterAllocs) : (w.acb j).l2meta.offset < 2 ^ 63 ∧
    (w.acb j).l2meta.nbClusters * C.clusterSize < 2 ^ 31 ∧ 0 < (w.acb j).l2meta.nbClusters := by
  have hal := h.allocating j hj
  have hlt : j < w.started.length := by
    apply List.mem_range.mp
    apply h.perm.mem_iff.mp
    simp only [List.mem_append]
    exact Or.inl (Or.inl (Or.inr (h.inFlight j hj)))
  have hready := (h.follows j _ (List.getElem?_eq_getElem hlt)).2.1
  have hsize := C.sizeBound
  have hle : (w.acb j).sectorNum * 512 ≤ C.totalSectors * 512 := Nat.mul_le_mul_right _ (by omega)
  rw [hal.offset]
  exact ⟨hle.trans_lt hsize, hal.fits, hal.clusters⟩

/-- The next part of a request that has to wait for an allocation. -/
theorem nextPart_parked {old : Nat} (hl : loose.Perm (id :: rest)) (hd : w.deps id = [])
    (hbuf : (w.acb id).buf ≠ []) (hentry : ¬ ((w.tabled C id).entry C (w.cluster C id)).IsCopied)
    (hold : old ∈ w.clusterAllocs)
    (hwalk : walkAllocs C w.acb ((w.acb id).sectorNum * 512) w.clusterAllocs
      (countAvailable ((w.tabled C id).entry C) (w.cluster C id)
        (w.wanted C id (C.nEnd (w.acb id).sectorNum (w.acb id).buf.length))
        (w.wanted C id (C.nEnd (w.acb id).sectorNum (w.acb id).buf.length)) 0) = .inl old) :
    ∃ w', w.nextPart C id = some w' ∧ Inv C w' rest ∧ Frame C w w' id := by
  have hid := hl.mem_iff.mpr List.mem_cons_self
  obtain ⟨a, ha⟩ : ∃ a : QCowAIOCB α, a = { w.acb id with
      curNrSectors := 0
      l2meta := { (w.acb id).l2meta with nbClusters := 0, dependsOn := some old } } := ⟨_, rfl⟩
  have hnext : w.nextPart C id
      = some ((({ w with bs := w.tabled C id } : Writes α).setAcb id a).park old id) := by
    rw [Writes.nextPart]
    simp only [if_neg hbuf]
    rw [w.allocClusterOffset_uncopied id _ _ hentry, hwalk]
    simp only
    rw [Option.map_some, ← ha, Writes.launch_of_some]
    · rfl
    · exact (congrArg (fun b : QCowAIOCB α => b.l2meta.nbClusters) (w.setAcb_self id a)).trans (by rw [ha])
    · exact (congrArg (fun b : QCowAIOCB α => b.l2meta.dependsOn) (w.setAcb_self id a)).trans (by rw [ha])
  have hwait : Waiting a := by
    rw [ha]
    exact ⟨rfl, rfl, hd⟩
  refine ⟨_, hnext, ?_, ?_⟩
  · apply ((h.tabled id).setLoose_same hid (a := a) (by rw [ha]) (by rw [ha])).park hl hold
    rwa [Writes.setAcb_self]
  · have hset : Frame C w (({ w with bs := w.tabled C id } : Writes α).setAcb id a) id :=
      Frame.of_setAcb (a := a) rfl rfl (by rw [ha]) (by rw [ha]) (w.tabled_read id)
    exact {
      started := rfl
      rest := by
        intro j
        obtain ⟨hs, hb⟩ := (({ w with bs := w.tabled C id } : Writes α).setAcb id a).park_rest old id j
        exact ⟨hs.trans (hset.rest j).1, hb.trans (hset.rest j).2⟩
      read := hset.read
      idle := by
        intro j hj hne
        rw [Writes.park_acb_of_ne]
        · exact hset.idle j hj hne
        · rintro rfl
          exact hj hold }

/-- The next part of a request that gets clusters of its own. -/
theorem nextPart_allocated {n : Nat} (hl : loose.Perm (id :: rest)) (hd : w.deps id = [])
    (hbuf : (w.acb id).buf ≠ []) (hentry : ¬ ((w.tabled C id).entry C (w.cluster C id)).IsCopied)
    (hbound : Bound C (w.acb id).sectorNum (w.acb id).buf.length n)
    (hfree : ∀ j < n, ¬ ((w.tabled C id).entry C (w.cluster C id + j)).IsCopied)
    (hguest : ∀ j ∈ w.clusterAllocs, ∀ b, w.cluster C id ≤ b → b < w.cluster C id + n →
      ¬ (w.acb j).l2meta.Maps C b)
    (hwalk : walkAllocs C w.acb ((w.acb id).sectorNum * 512) w.clusterAllocs
      (countAvailable ((w.tabled C id).entry C) (w.cluster C id)
        (w.wanted C id (C.nEnd (w.acb id).sectorNum (w.acb id).buf.length))
        (w.wanted C id (C.nEnd (w.acb id).sectorNum (w.acb id).buf.length)) 0) = .inr n) :
    ∃ w', w.nextPart C id = some w' ∧ Inv C w' rest ∧ Frame C w w' id := by
  have hid := hl.mem_iff.mpr List.mem_cons_self
  have hlen := List.length_pos_iff.mpr hbuf
  obtain ⟨hlo, hhi, haligned⟩ := C.part_spec (w.acb id).sectorNum hlen hbound.pos
  have hlast := hbound.last
  have hwithin := Nat.min_le_left (n * C.clusterSectors) (C.nEnd (w.acb id).sectorNum (w.acb id).buf.length)
  generalize hav : min (n * C.clusterSectors) (C.nEnd (w.acb id).sectorNum (w.acb id).buf.length) = av
    at hlo hhi haligned hlast hwithin
  have hsize : uint32 (n * C.clusterSize) = n * C.clusterSize := by
    have hfits := hbound.fits
    exact_mod_cast uint32_of_lt (n := n * C.clusterSize) (by omega)
  obtain ⟨alloc, halloc⟩ : ∃ alloc, alloc = allocClusters C (w.tabled C id) (n * C.clusterSize) := ⟨_, rfl⟩
  obtain ⟨a, ha⟩ : ∃ a : QCowAIOCB α, a = { w.acb id with
      curNrSectors := av - (w.acb id).sectorNum % C.clusterSectors
      l2meta := { (w.acb id).l2meta with
        offset := (w.acb id).sectorNum * 512, clusterOffset := alloc.1
        nStart := (w.acb id).sectorNum % C.clusterSectors
        nbAvailable := av, nbClusters := n } } := ⟨_, rfl⟩
  have hnext : w.nextPart C id = some
      { ({ w with bs := alloc.2 } : Writes α).setAcb id a with
        inFlight := id :: w.inFlight
        clusterAllocs := id :: w.clusterAllocs } := by
    rw [Writes.nextPart]
    simp only [if_neg hbuf]
    rw [w.allocClusterOffset_uncopied id _ _ hentry, hwalk]
    simp only [if_neg (Nat.pos_iff_ne_zero.mp hbound.pos), hsize, ← halloc, hav]
    rw [Option.map_some, ← ha, Writes.launch_of_pos]
    · rfl
    · have hnb : a.l2meta.nbClusters = n := by rw [ha]
      show ((w.setAcb id a).acb id).l2meta.nbClusters ≠ 0
      rw [Writes.setAcb_self, hnb]
      exact Nat.pos_iff_ne_zero.mp hbound.pos
  have hkeeps : Keeps C w.bs alloc.2 := by
    rw [halloc]
    exact (getClusterTable_keeps C w.bs _).trans (allocClusters_keeps C _ _)
  have hcovers := getClusterTable_covers (C := C) h.sound.covers (w.cluster C id)
  have hfresh : ∀ i < n, (w.tabled C id).refcount (alloc.1 + i) = 0 := by
    intro i hi
    rw [halloc]
    apply allocClusters_free C (w.tabled C id) (n * C.clusterSize) _ (Nat.le_add_right _ _)
    rw [clustersOf_mul]
    exact Nat.add_lt_add_left hi _
  have halc : Allocating C alloc.2 a := by
    rw [ha]
    exact {
      pos := by simp only; omega
      le := by simp only; omega
      aligned := fun hlt => haligned (by simp only at hlt; omega)
      clusters := hbound.pos
      offset := rfl
      start := rfl
      available := by simp only; omega
      last := hlast
      within := hwithin
      fits := hbound.fits
      table := by
        obtain ⟨t, ht⟩ := getClusterTable_table C w.bs (w.cluster C id)
        rw [halloc]
        exact ⟨t, ht⟩
      inside := hbound.inside
      unshared := by
        intro b hb
        have hrange : (w.acb id).sectorNum / C.clusterSectors ≤ b ∧
            b < (w.acb id).sectorNum / C.clusterSectors + n := by
          simpa [QCowL2Meta.Maps, C.offset_div] using hb
        have hb' : w.cluster C id ≤ b ∧ b < w.cluster C id + n := hrange
        rw [halloc, allocClusters_entry]
        have hfreeb := hfree (b - w.cluster C id) (by omega)
        rwa [Nat.add_sub_cancel' hb'.1] at hfreeb
      held := by
        intro i hi
        have hzero := hfresh i hi
        rw [halloc] at hzero ⊢
        apply And.intro
        · rw [allocClusters_refcount, clustersOf_mul, if_pos, hzero]
          exact ⟨Nat.le_add_right _ _, Nat.add_lt_add_left hi _⟩
        · intro r
          exact hcovers.unnamed hzero }
  have hread : ∀ x, qcowRead C alloc.2 x = qcowRead C w.bs x :=
    qcowRead_of_keeps hkeeps (by rw [halloc]; exact getClusterTable_file C w.bs _)
  refine ⟨_, hnext, ?_, Frame.of_setAcb (a := a) rfl rfl (by rw [ha]) (by rw [ha]) hread⟩
  have hcov : Covers (alloc.2.hosts C) alloc.2.refcount := by
    rw [halloc]
    exact allocClusters_covers hcovers _
  have hmaps : ∀ b, a.l2meta.Maps C b ↔ w.cluster C id ≤ b ∧ b < w.cluster C id + n := by
    intro b
    rw [halc.maps_iff, ha]
    rfl
  have hne : ∀ j ∈ w.clusterAllocs, j ≠ id := by
    rintro j hj rfl
    exact h.notMem_allocs hid hj
  apply ((h.keeps hkeeps hcov).setLoose_same hid (a := a) (by rw [ha]) (by rw [ha])).launchAlloc hl
  · rwa [Writes.setAcb_self]
  · rw [Writes.deps, Writes.setAcb_self, ha]
    exact hd
  · intro j hj b hb
    rw [Writes.setAcb_self, hmaps] at hb
    rw [Writes.setAcb_of_ne _ _ (hne j hj)]
    exact hguest j hj b hb.1 hb.2
  · intro j hj i hi i' hi' heq
    rw [Writes.setAcb_self, ha] at hi heq
    rw [Writes.setAcb_of_ne _ _ (hne j hj)] at hi' heq
    have hzero := hfresh i hi
    have hone := (((getClusterTable_keeps C w.bs (w.cluster C id)).allocating (h.allocating j hj)).held i' hi').1
    rw [← heq] at hone
    exact Nat.zero_ne_one (hzero.symm.trans hone)

/-- A loose request ends, is handed to the file or is parked, and nothing else changes. -/
theorem nextPart_spec (hl : loose.Perm (id :: rest)) (hd : w.deps id = []) :
    ∃ w', w.nextPart C id = some w' ∧ Inv C w' rest ∧ Frame C w w' id := by
  have hid := hl.mem_iff.mpr List.mem_cons_self
  by_cases hbuf : (w.acb id).buf = []
  · have hnext : w.nextPart C id = some (w.callback id) := by
      rw [Writes.nextPart]
      simp only [if_pos hbuf]
    exact ⟨_, hnext, h.callback hl hbuf hd, ⟨rfl, fun j => ⟨rfl, rfl⟩, fun x => rfl, fun j _ _ => rfl⟩⟩
  by_cases hentry : ((w.tabled C id).entry C (w.cluster C id)).IsCopied
  · cases he : (w.tabled C id).entry C (w.cluster C id) with
    | free => rw [he] at hentry; cases hentry
    | compressed coffset n => rw [he] at hentry; cases hentry
    | standard copied c =>
      cases copied with
      | true => exact h.nextPart_copied hl hd hbuf he
      | false => rw [he] at hentry; cases hentry
  · have hlen := List.length_pos_iff.mpr hbuf
    obtain ⟨hin, hfits⟩ := h.ready hid
    have hbound := ((hfits hbuf).bound hlen).wanted (show (w.acb id).sectorNum = _ from rfl)
    obtain ⟨hle, hfree⟩ := countAvailable_spec hentry
      (w.wanted C id (C.nEnd (w.acb id).sectorNum (w.acb id).buf.length))
      0 (Nat.zero_le _) (fun j hj => absurd hj (Nat.not_lt_zero j))
    have hpos := countAvailable_pos ((w.tabled C id).entry C) (a := w.cluster C id) hbound.pos
    have havail := hbound.mono hpos hle
    have hoff : (w.acb id).sectorNum * 512 < 2 ^ 63 := by
      have hmul : (w.acb id).sectorNum * 512 ≤ C.totalSectors * 512 := Nat.mul_le_mul_right _ (by omega)
      exact hmul.trans_lt C.sizeBound
    have hwalk := walkAllocs_spec (C := C) w.acb ((w.acb id).sectorNum * 512) hoff w.clusterAllocs
      (fun old hold => h.alloc_lt hold) _ havail.fits
    cases hw : walkAllocs C w.acb ((w.acb id).sectorNum * 512) w.clusterAllocs
      (countAvailable ((w.tabled C id).entry C) (w.cluster C id)
        (w.wanted C id (C.nEnd (w.acb id).sectorNum (w.acb id).buf.length))
        (w.wanted C id (C.nEnd (w.acb id).sectorNum (w.acb id).buf.length)) 0) with
    | inl old =>
      rw [hw] at hwalk
      exact h.nextPart_parked hl hd hbuf hentry hwalk hw
    | inr n =>
      rw [hw] at hwalk
      obtain ⟨hnle, hnpos, hguest⟩ := hwalk
      rw [C.offset_div] at hguest
      exact h.nextPart_allocated hl hd hbuf hentry (havail.mono (hnpos hpos) hnle)
        (fun j hj => hfree j (by omega)) hguest hw

end Inv

end Colama.Qemu.Qcow2

import Colama.Qemu.Qcow2.WritesRead

namespace Colama.Qemu.Qcow2

open Lib

variable {α : Type*} {C : Image α} {w w' : Writes α} {loose rest : List Nat} {id : Nat}

/-- What is left of a request is the end of it. -/
def Follows (r : Request α) (acb : QCowAIOCB α) : Prop :=
  ∃ k ≤ r.data.length, acb.sectorNum = r.sectorNum + k ∧ acb.buf = r.data.drop k

/-- What is left lies in the image, and its bytes fit. -/
def Ready (C : Image α) (acb : QCowAIOCB α) : Prop :=
  acb.sectorNum + acb.buf.length ≤ C.totalSectors ∧ (acb.buf ≠ [] → C.Fits acb.sectorNum acb.buf.length)

/-- A request that has handed nothing to the file. -/
structure Waiting (acb : QCowAIOCB α) : Prop where
  unallocated : acb.l2meta.nbClusters = 0
  none : acb.curNrSectors = 0
  alone : acb.l2meta.dependentRequests = []

def Writes.deps (w : Writes α) (j : Nat) : List Nat := (w.acb j).l2meta.dependentRequests

def Writes.parked (w : Writes α) : List Nat := w.clusterAllocs.flatMap w.deps

/-- What holds whenever `loose` are the requests that are neither ended nor under way nor parked. -/
structure Inv (C : Image α) (w : Writes α) (loose : List Nat) : Prop where
  sound : Sound C w.bs
  perm : (w.callbacks ++ w.inFlight ++ w.parked ++ loose).Perm (List.range w.started.length)
  nodup : w.clusterAllocs.Nodup
  inFlight : ∀ j ∈ w.clusterAllocs, j ∈ w.inFlight
  allocating : ∀ j ∈ w.clusterAllocs, Allocating C w.bs (w.acb j)
  inPlace : ∀ j ∈ w.inFlight, j ∉ w.clusterAllocs → InPlace C w.bs (w.acb j)
  guest : ∀ j ∈ w.clusterAllocs, ∀ k ∈ w.clusterAllocs, j ≠ k →
    ∀ b, (w.acb j).l2meta.Maps C b → ¬ (w.acb k).l2meta.Maps C b
  host : ∀ j ∈ w.clusterAllocs, ∀ k ∈ w.clusterAllocs, j ≠ k →
    ∀ i < (w.acb j).l2meta.nbClusters, ∀ i' < (w.acb k).l2meta.nbClusters,
      (w.acb j).l2meta.clusterOffset + i ≠ (w.acb k).l2meta.clusterOffset + i'
  waiting : ∀ j ∈ w.clusterAllocs, ∀ d ∈ w.deps j, Waiting (w.acb d)
  alone : ∀ j, j ∉ w.clusterAllocs → j ∉ loose → w.deps j = []
  follows : ∀ j r, w.started[j]? = some r → Follows r (w.acb j) ∧ Ready C (w.acb j)
  done : ∀ j ∈ w.callbacks, (w.acb j).buf = []

@[simp] theorem Writes.setAcb_self (w : Writes α) (id : Nat) (a : QCowAIOCB α) : (w.setAcb id a).acb id = a :=
  Function.update_self ..

@[simp] theorem Writes.setAcb_of_ne (w : Writes α) {id j : Nat} (a : QCowAIOCB α) (hj : j ≠ id) :
    (w.setAcb id a).acb j = w.acb j :=
  Function.update_of_ne hj _ _

namespace Inv

variable (h : Inv C w loose)

include h

theorem disjoint : (w.callbacks ++ w.inFlight ++ w.parked ++ loose).Nodup :=
  h.perm.nodup_iff.mpr List.nodup_range

theorem notMem_inFlight (hid : id ∈ loose) : id ∉ w.inFlight := by
  intro hin
  have hd := h.disjoint
  rw [List.append_assoc, List.append_assoc, List.nodup_append] at hd
  have hd' := hd.2.1
  rw [List.nodup_append] at hd'
  exact hd'.2.2 id hin id (List.mem_append_right _ hid) rfl

theorem notMem_callbacks (hid : id ∈ loose) : id ∉ w.callbacks := by
  intro hin
  have hd := h.disjoint
  rw [List.append_assoc, List.append_assoc, List.nodup_append] at hd
  exact hd.2.2 id hin id (List.mem_append_right _ (List.mem_append_right _ hid)) rfl

theorem notMem_parked (hid : id ∈ loose) : id ∉ w.parked := by
  intro hin
  have hd := h.disjoint
  rw [List.nodup_append] at hd
  exact hd.2.2 id (List.mem_append_right _ hin) id hid rfl

theorem notMem_allocs (hid : id ∈ loose) : id ∉ w.clusterAllocs :=
  fun hin => h.notMem_inFlight hid (h.inFlight id hin)

theorem lt_length (hid : id ∈ loose) : id < w.started.length :=
  List.mem_range.mp (h.perm.mem_iff.mp (List.mem_append_right _ hid))

/-- Allocations that leave the guest's entries alone keep the invariant. -/
theorem keeps {bs : BDRVQcowState α} (hk : Keeps C w.bs bs) (hc : Covers (bs.hosts C) bs.refcount) :
    Inv C { w with bs := bs } loose :=
  { h with
    sound := hk.sound h.sound hc
    allocating := fun j hj => hk.allocating (h.allocating j hj)
    inPlace := fun j hj hn => hk.inPlace (h.inPlace j hj hn) }

/-- A loose request may change, as long as it stays the end of what was asked for. -/
theorem setLoose {a : QCowAIOCB α} (hid : id ∈ loose)
    (ha : ∀ r, w.started[id]? = some r → Follows r a ∧ Ready C a) : Inv C (w.setAcb id a) loose := by
  have hne : ∀ j, j ≠ id → (w.setAcb id a).acb j = w.acb j := fun j hj => w.setAcb_of_ne a hj
  have halloc : ∀ j ∈ w.clusterAllocs, (w.setAcb id a).acb j = w.acb j := by
    intro j hj
    apply hne
    rintro rfl
    exact h.notMem_allocs hid hj
  have hflight : ∀ j ∈ w.inFlight, (w.setAcb id a).acb j = w.acb j := by
    intro j hj
    apply hne
    rintro rfl
    exact h.notMem_inFlight hid hj
  have hdeps : ∀ j ∈ w.clusterAllocs, (w.setAcb id a).deps j = w.deps j := by
    intro j hj
    rw [Writes.deps, halloc j hj, Writes.deps]
  have hparked : (w.setAcb id a).parked = w.parked := List.flatMap_congr hdeps
  exact {
    sound := h.sound
    perm := by rw [hparked]; exact h.perm
    nodup := h.nodup
    inFlight := h.inFlight
    allocating := fun j hj => by rw [halloc j hj]; exact h.allocating j hj
    inPlace := fun j hj hn => by rw [hflight j hj]; exact h.inPlace j hj hn
    guest := fun j hj k hk => by rw [halloc j hj, halloc k hk]; exact h.guest j hj k hk
    host := fun j hj k hk => by rw [halloc j hj, halloc k hk]; exact h.host j hj k hk
    waiting := by
      intro j hj d hd
      rw [hdeps j hj] at hd
      rw [hne d]
      · exact h.waiting j hj d hd
      · rintro rfl
        exact h.notMem_parked hid (List.mem_flatMap.mpr ⟨j, hj, hd⟩)
    alone := by
      intro j hj hl
      rw [Writes.deps, hne j]
      · exact h.alone j hj hl
      · rintro rfl
        exact hl hid
    follows := by
      intro j r hr
      by_cases hj : j = id
      · rw [hj, Writes.setAcb_self]
        exact ha r (hj ▸ hr)
      · rw [hne j hj]
        exact h.follows j r hr
    done := by
      intro j hj
      rw [hne j]
      · exact h.done j hj
      · rintro rfl
        exact h.notMem_callbacks hid hj }

/-- A loose request may change everything but what is left of it. -/
theorem setLoose_same {a : QCowAIOCB α} (hid : id ∈ loose) (hs : a.sectorNum = (w.acb id).sectorNum)
    (hb : a.buf = (w.acb id).buf) : Inv C (w.setAcb id a) loose := by
  apply h.setLoose hid
  intro r hr
  have hf := h.follows id r hr
  rw [Follows, Ready, hs, hb]
  exact hf

theorem alone_of_cons (hl : loose.Perm (id :: rest)) (hd : w.deps id = []) :
    ∀ j, j ∉ w.clusterAllocs → j ∉ rest → w.deps j = [] := by
  intro j hj hr
  by_cases hjid : j = id
  · rw [hjid]
    exact hd
  · apply h.alone j hj
    intro hmem
    rcases List.mem_cons.mp (hl.mem_iff.mp hmem) with hmem | hmem
    · exact hjid hmem
    · exact hr hmem

/-- The end of a request. -/
theorem callback (hl : loose.Perm (id :: rest)) (hb : (w.acb id).buf = []) (hd : w.deps id = []) :
    Inv C (w.callback id) rest :=
  { h with
    perm := by
      have hmid : (id :: w.callbacks ++ w.inFlight ++ w.parked ++ rest).Perm
          (w.callbacks ++ w.inFlight ++ w.parked ++ id :: rest) := by
        rw [List.cons_append, List.cons_append, List.cons_append]
        exact List.perm_middle.symm
      exact (hmid.trans ((List.Perm.refl _).append hl.symm)).trans h.perm
    alone := h.alone_of_cons hl hd
    done := by
      intro j hj
      rcases List.mem_cons.mp hj with rfl | hj
      · exact hb
      · exact h.done j hj }

theorem perm_launch (hl : loose.Perm (id :: rest)) :
    (w.callbacks ++ id :: w.inFlight ++ w.parked ++ rest).Perm (List.range w.started.length) := by
  apply List.Perm.trans _ h.perm
  have hmid : (w.callbacks ++ (id :: w.inFlight ++ w.parked ++ rest)).Perm
      (w.callbacks ++ (w.inFlight ++ w.parked ++ id :: rest)) := by
    apply (List.Perm.refl _).append
    rw [List.cons_append, List.cons_append]
    exact List.perm_middle.symm
  simp only [List.append_assoc, List.cons_append] at hmid ⊢
  exact hmid.trans (by simpa only [List.append_assoc] using
    (List.Perm.refl _).append ((List.Perm.refl _).append ((List.Perm.refl _).append hl.symm)))

theorem launchInPlace (hl : loose.Perm (id :: rest)) (hin : InPlace C w.bs (w.acb id)) (hd : w.deps id = []) :
    Inv C { w with inFlight := id :: w.inFlight } rest :=
  { h with
    perm := h.perm_launch hl
    inFlight := fun j hj => List.mem_cons_of_mem _ (h.inFlight j hj)
    inPlace := by
      intro j hj hn
      rcases List.mem_cons.mp hj with rfl | hj
      · exact hin
      · exact h.inPlace j hj hn
    alone := h.alone_of_cons hl hd }

theorem launchAlloc (hl : loose.Perm (id :: rest)) (hal : Allocating C w.bs (w.acb id)) (hd : w.deps id = [])
    (hguest : ∀ j ∈ w.clusterAllocs, ∀ b, (w.acb id).l2meta.Maps C b → ¬ (w.acb j).l2meta.Maps C b)
    (hhost : ∀ j ∈ w.clusterAllocs, ∀ i < (w.acb id).l2meta.nbClusters, ∀ i' < (w.acb j).l2meta.nbClusters,
      (w.acb id).l2meta.clusterOffset + i ≠ (w.acb j).l2meta.clusterOffset + i') :
    Inv C { w with inFlight := id :: w.inFlight, clusterAllocs := id :: w.clusterAllocs } rest where
  sound := h.sound
  perm := by
    have hparked : ({ w with inFlight := id :: w.inFlight, clusterAllocs := id :: w.clusterAllocs } :
        Writes α).parked = w.parked := by
      show (id :: w.clusterAllocs).flatMap w.deps = w.clusterAllocs.flatMap w.deps
      rw [List.flatMap_cons, hd, List.nil_append]
    rw [hparked]
    exact h.perm_launch hl
  nodup := by
    apply List.nodup_cons.mpr ⟨_, h.nodup⟩
    exact h.notMem_allocs (hl.mem_iff.mpr List.mem_cons_self)
  inFlight := by
    intro j hj
    rcases List.mem_cons.mp hj with rfl | hj
    · exact List.mem_cons_self
    · exact List.mem_cons_of_mem _ (h.inFlight j hj)
  allocating := by
    intro j hj
    rcases List.mem_cons.mp hj with rfl | hj
    · exact hal
    · exact h.allocating j hj
  inPlace := by
    intro j hj hn
    rcases List.mem_cons.mp hj with rfl | hj
    · exact absurd List.mem_cons_self hn
    · exact h.inPlace j hj fun hmem => hn (List.mem_cons_of_mem _ hmem)
  guest := by
    intro j hj k hk hne b hjb hkb
    rcases List.mem_cons.mp hj with hj' | hj'
    · rcases List.mem_cons.mp hk with hk' | hk'
      · exact hne (hj'.trans hk'.symm)
      · exact hguest k hk' b (hj' ▸ hjb) hkb
    · rcases List.mem_cons.mp hk with hk' | hk'
      · exact hguest j hj' b (hk' ▸ hkb) hjb
      · exact h.guest j hj' k hk' hne b hjb hkb
  host := by
    intro j hj k hk hne i hi i' hi'
    rcases List.mem_cons.mp hj with hj' | hj'
    · rcases List.mem_cons.mp hk with hk' | hk'
      · exact absurd (hj'.trans hk'.symm) hne
      · subst hj'
        exact hhost k hk' i hi i' hi'
    · rcases List.mem_cons.mp hk with hk' | hk'
      · subst hk'
        exact (hhost j hj' i' hi' i hi).symm
      · exact h.host j hj' k hk' hne i hi i' hi'
  waiting := by
    intro j hj d hdj
    rcases List.mem_cons.mp hj with rfl | hj
    · have hnil : d ∈ w.deps j := hdj
      rw [hd] at hnil
      cases hnil
    · exact h.waiting j hj d hdj
  alone := by
    intro j hj hr
    exact h.alone_of_cons hl hd j (fun hmem => hj (List.mem_cons_of_mem _ hmem)) hr
  follows := h.follows
  done := h.done

end Inv

theorem Writes.park_deps_self (w : Writes α) (old id : Nat) : (w.park old id).deps old = id :: w.deps old := by
  rw [Writes.deps, Writes.park, Writes.setAcb_self, Writes.deps]

theorem Writes.park_acb_of_ne (w : Writes α) {old id j : Nat} (hj : j ≠ old) : (w.park old id).acb j = w.acb j :=
  w.setAcb_of_ne _ hj

theorem Writes.park_deps_of_ne (w : Writes α) {old id j : Nat} (hj : j ≠ old) :
    (w.park old id).deps j = w.deps j := by
  rw [Writes.deps, w.park_acb_of_ne hj, Writes.deps]

theorem Writes.park_parked (w : Writes α) {old : Nat} (id : Nat) (hold : old ∈ w.clusterAllocs)
    (hnd : w.clusterAllocs.Nodup) : (w.park old id).parked.Perm (id :: w.parked) := by
  obtain ⟨l, r, hlr⟩ := List.append_of_mem hold
  have hnd' := hnd
  rw [hlr, List.nodup_append] at hnd'
  have hl : ∀ j ∈ l, (w.park old id).deps j = w.deps j := by
    intro j hj
    apply w.park_deps_of_ne
    exact hnd'.2.2 j hj old List.mem_cons_self
  have hr : ∀ j ∈ r, (w.park old id).deps j = w.deps j := by
    intro j hj
    apply w.park_deps_of_ne
    rintro rfl
    exact (List.nodup_cons.mp hnd'.2.1).1 hj
  have hsplit : (w.park old id).parked = l.flatMap w.deps ++ (id :: w.deps old ++ r.flatMap w.deps) := by
    show w.clusterAllocs.flatMap (w.park old id).deps = _
    rw [hlr, List.flatMap_append, List.flatMap_cons, List.flatMap_congr hl, List.flatMap_congr hr,
      w.park_deps_self]
  have hparked : w.parked = l.flatMap w.deps ++ (w.deps old ++ r.flatMap w.deps) := by
    rw [Writes.parked, hlr, List.flatMap_append, List.flatMap_cons]
  rw [hsplit, hparked, List.cons_append]
  exact List.perm_middle

theorem Writes.park_rest (w : Writes α) (old id j : Nat) :
    ((w.park old id).acb j).sectorNum = (w.acb j).sectorNum ∧ ((w.park old id).acb j).buf = (w.acb j).buf := by
  by_cases hj : j = old
  · rw [hj, Writes.park, Writes.setAcb_self]
    exact ⟨rfl, rfl⟩
  · rw [w.park_acb_of_ne hj]
    exact ⟨rfl, rfl⟩

theorem Writes.park_meta (w : Writes α) (old id j : Nat) :
    ((w.park old id).acb j).l2meta.offset = (w.acb j).l2meta.offset ∧
      ((w.park old id).acb j).l2meta.clusterOffset = (w.acb j).l2meta.clusterOffset ∧
      ((w.park old id).acb j).l2meta.nbClusters = (w.acb j).l2meta.nbClusters := by
  by_cases hj : j = old
  · rw [hj, Writes.park, Writes.setAcb_self]
    exact ⟨rfl, rfl, rfl⟩
  · rw [w.park_acb_of_ne hj]
    exact ⟨rfl, rfl, rfl⟩

theorem Writes.park_maps (w : Writes α) (old id j b : Nat) :
    ((w.park old id).acb j).l2meta.Maps C b ↔ (w.acb j).l2meta.Maps C b := by
  obtain ⟨hoff, -, hnb⟩ := w.park_meta old id j
  rw [QCowL2Meta.Maps, QCowL2Meta.Maps, hoff, hnb]

namespace Inv

variable (h : Inv C w loose)

include h

theorem park {old : Nat} (hl : loose.Perm (id :: rest)) (hold : old ∈ w.clusterAllocs)
    (hw : Waiting (w.acb id)) : Inv C (w.park old id) rest where
  sound := h.sound
  perm := by
    apply List.Perm.trans _ h.perm
    have hpark := w.park_parked id hold h.nodup
    have hmove : ((w.park old id).parked ++ rest).Perm (w.parked ++ loose) := by
      apply (hpark.append_right rest).trans
      apply List.perm_middle.symm.trans
      exact hl.symm.append_left w.parked
    rw [List.append_assoc, List.append_assoc (w.callbacks ++ w.inFlight)]
    exact hmove.append_left _
  nodup := h.nodup
  inFlight := h.inFlight
  allocating := by
    intro j hj
    by_cases hjo : j = old
    · subst hjo
      rw [Writes.park, Writes.setAcb_self]
      exact { h.allocating j hj with }
    · rw [w.park_acb_of_ne hjo]
      exact h.allocating j hj
  inPlace := by
    intro j hj hn
    rw [w.park_acb_of_ne]
    · exact h.inPlace j hj hn
    · rintro rfl
      exact hn hold
  guest := by
    intro j hj k hk hne b
    rw [w.park_maps, w.park_maps]
    exact h.guest j hj k hk hne b
  host := by
    intro j hj k hk hne
    rw [(w.park_meta old id j).2.1, (w.park_meta old id j).2.2, (w.park_meta old id k).2.1,
      (w.park_meta old id k).2.2]
    exact h.host j hj k hk hne
  waiting := by
    intro j hj d hd
    have hwait : Waiting (w.acb d) := by
      by_cases hjo : j = old
      · subst hjo
        rw [w.park_deps_self] at hd
        rcases List.mem_cons.mp hd with rfl | hd
        · exact hw
        · exact h.waiting j hj d hd
      · rw [w.park_deps_of_ne hjo] at hd
        exact h.waiting j hj d hd
    rw [w.park_acb_of_ne]
    · exact hwait
    · rintro rfl
      have hpos := (h.allocating d hold).clusters
      rw [hwait.unallocated] at hpos
      omega
  alone := by
    intro j hj hr
    rw [w.park_deps_of_ne]
    · exact h.alone_of_cons hl hw.alone j hj hr
    · rintro rfl
      exact hj hold
  follows := by
    intro j r hr
    have hrest := w.park_rest old id j
    rw [Follows, Ready, hrest.1, hrest.2]
    exact h.follows j r hr
  done := fun j hj => by rw [(w.park_rest old id j).2]; exact h.done j hj

end Inv

end Colama.Qemu.Qcow2

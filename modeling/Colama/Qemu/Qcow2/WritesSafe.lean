import Colama.Qemu.Qcow2.WritesNext

namespace Colama.Qemu.Qcow2

open Lib

variable {α : Type*} {C : Image α} {w w' : Writes α} {loose rest : List Nat} {id : Nat}

theorem Writes.finishAlloc_of_zero (hzero : (w.acb id).l2meta.nbClusters = 0) : w.finishAlloc C id = w := by
  rw [Writes.finishAlloc]
  simp only [linkL2, if_pos hzero]

theorem Writes.advance_of_waiting (hw : Waiting (w.acb id)) : w.advance id = w := by
  have ha : ({ w.acb id with
      sectorNum := (w.acb id).sectorNum + (w.acb id).curNrSectors
      buf := (w.acb id).buf.drop (w.acb id).curNrSectors
      l2meta := { (w.acb id).l2meta with dependentRequests := [] } } : QCowAIOCB α) = w.acb id := by
    rw [hw.none, ← hw.alone]
    rfl
  rw [Writes.advance]
  simp only [ha]
  rw [Writes.setAcb, Function.update_eq_self]

/-- A request that has handed nothing to the file goes on at once. -/
theorem Writes.writeCb_of_waiting (fuel : Nat) (hw : Waiting (w.acb id)) :
    writeCb C (fuel + 1) w id = w.nextPart C id := by
  rw [writeCb, Writes.finishAlloc_of_zero hw.unallocated, hw.alone]
  show (w.advance id).nextPart C id = _
  rw [Writes.advance_of_waiting hw]

/-- The requests that waited for a finished allocation go on one after the other. -/
theorem Inv.runDependentRequests (fuel : Nat) {l : List Nat} (h : Inv C w (id :: l))
    (hw : ∀ d ∈ l, Waiting (w.acb d)) :
    ∃ w', l.foldlM (Writes.writeCb C (fuel + 1)) w = some w' ∧ Inv C w' [id] ∧ w'.started = w.started ∧
      (∀ j, (w'.acb j).sectorNum = (w.acb j).sectorNum ∧ (w'.acb j).buf = (w.acb j).buf) ∧
      (∀ x, qcowRead C w'.bs x = qcowRead C w.bs x) ∧ w'.acb id = w.acb id := by
  induction l generalizing w with
  | nil => exact ⟨w, rfl, h, rfl, fun j => ⟨rfl, rfl⟩, fun x => rfl, rfl⟩
  | cons d l ih =>
    have hwd := hw d List.mem_cons_self
    have hnd := (List.nodup_append.mp h.disjoint).2.1
    have hidd : id ≠ d := by
      rintro rfl
      exact (List.nodup_cons.mp hnd).1 List.mem_cons_self
    obtain ⟨w₁, hnext, hinv, hframe⟩ := h.nextPart_spec (List.Perm.swap d id l) hwd.alone
    have hidle : ∀ j ∈ id :: d :: l, j ≠ d → w₁.acb j = w.acb j :=
      fun j hj hjd => hframe.idle j (h.notMem_allocs hj) hjd
    have hrest : ∀ e ∈ l, Waiting (w₁.acb e) := by
      intro e he
      have hed : e ≠ d := by
        rintro rfl
        exact (List.nodup_cons.mp (List.nodup_cons.mp hnd).2).1 he
      rw [hidle e (List.mem_cons_of_mem _ (List.mem_cons_of_mem _ he)) hed]
      exact hw e (List.mem_cons_of_mem _ he)
    obtain ⟨w₂, hfold, hinv₂, hstarted, hsame, hread, hacb⟩ := ih hinv hrest
    refine ⟨w₂, ?_, hinv₂, hstarted.trans hframe.started, ?_, ?_, ?_⟩
    · rw [List.foldlM_cons, Writes.writeCb_of_waiting fuel hwd, hnext]
      exact hfold
    · intro j
      exact ⟨(hsame j).1.trans (hframe.rest j).1, (hsame j).2.trans (hframe.rest j).2⟩
    · intro x
      exact (hread x).trans (hframe.read x)
    · exact hacb.trans (hidle id List.mem_cons_self hidd)

/-- Behind a part that ends with a cluster, what is left still fits. -/
theorem Image.Fits.advance {x len cur : Nat} (h : C.Fits x len) (hpos : 0 < cur) (hlt : cur < len)
    (haligned : (x + cur) % C.clusterSectors = 0) : C.Fits (x + cur) (len - cur) := by
  have hs := C.clusterSectors_pos
  have hsle := C.clusterSectors_le
  have hdiv := Nat.div_add_mod x C.clusterSectors
  have hmod := Nat.mod_lt x hs
  have hfirst : C.clusterSectors ≤ x % C.clusterSectors + cur := by
    have hzero : (x % C.clusterSectors + cur) % C.clusterSectors = 0 := by
      rw [Nat.mod_add_mod]
      exact haligned
    exact Nat.le_of_dvd (by omega) (Nat.dvd_of_mod_eq_zero hzero)
  have hend : C.nEnd (x + cur) (len - cur) + C.clusterSectors ≤ 2 ^ 22 := by
    have hfit := h.1
    rw [Image.nEnd] at hfit ⊢
    rw [haligned, Nat.zero_add]
    split_ifs at hfit ⊢
    · rw [maxCryptClusters] at hfit ⊢
      omega
    · omega
  have hclusters : C.clustersTo (C.nEnd (x + cur) (len - cur)) * C.clusterSize < 2 ^ 31 := by
    have hle : C.clustersTo (C.nEnd (x + cur) (len - cur)) * C.clusterSectors
        ≤ C.nEnd (x + cur) (len - cur) + (C.clusterSectors - 1) := Nat.div_mul_le_self _ _
    rw [C.clusterSize_eq, ← Nat.mul_assoc]
    omega
  constructor
  · omega
  · exact (Nat.mul_le_mul_right _ (Nat.min_le_left _ _)).trans_lt hclusters

/-- The finished part of the request leaves its end. -/
theorem Inv.advance (h : Inv C w loose) (hid : id ∈ loose) (hp : Part C (w.acb id)) :
    Inv C (w.advance id) loose := by
  apply h.setLoose hid
  intro r hr
  obtain ⟨⟨k, hk, hs, hb⟩, hin, hfits⟩ := h.follows id r hr
  have hle := hp.le
  apply And.intro
  · refine ⟨k + (w.acb id).curNrSectors, ?_, ?_, ?_⟩
    · rw [hb, List.length_drop] at hle
      omega
    · show (w.acb id).sectorNum + (w.acb id).curNrSectors = _
      omega
    · show (w.acb id).buf.drop (w.acb id).curNrSectors = _
      rw [hb, List.drop_drop]
  · apply And.intro
    · show (w.acb id).sectorNum + (w.acb id).curNrSectors
        + ((w.acb id).buf.drop (w.acb id).curNrSectors).length ≤ C.totalSectors
      rw [List.length_drop]
      omega
    · intro hne
      have hlt : (w.acb id).curNrSectors < (w.acb id).buf.length := by
        by_contra hge
        exact hne (List.drop_eq_nil_of_le (not_lt.mp hge))
      show C.Fits ((w.acb id).sectorNum + (w.acb id).curNrSectors)
        ((w.acb id).buf.drop (w.acb id).curNrSectors).length
      rw [List.length_drop]
      apply (hfits _).advance hp.pos hlt (hp.aligned hlt)
      rintro hnil
      rw [hnil] at hlt
      exact absurd hlt (Nat.not_lt_zero _)

/-- The request whose data has reached the file, before it runs those that wait for it. -/
def Writes.finished (C : Image α) (w : Writes α) (id : Nat) : Writes α :=
  Writes.finishAlloc C
    { w with bs := writePart C w.bs (w.acb id), inFlight := w.inFlight.erase id } id

theorem Writes.completeWrite_eq (hid : id ∈ w.inFlight) : w.completeWrite C id =
    ((w.deps id).foldlM (writeCb C (w.started.length + 1)) (w.finished C id)).bind
      fun w => (w.advance id).nextPart C id := by
  rw [completeWrite, if_pos hid, writeCb]
  rfl

namespace Inv

variable (h : Inv C w [])

include h

theorem nodup_inFlight : w.inFlight.Nodup := by
  have hd := h.disjoint
  rw [List.append_assoc, List.append_assoc, List.nodup_append] at hd
  exact (List.nodup_append.mp hd.2.1).1

theorem finished_inPlace (hid : id ∈ w.inFlight) (hn : id ∉ w.clusterAllocs) :
    Inv C (w.finished C id) [id] ∧ Replaces C w.bs (w.finished C id).bs (w.acb id) := by
  have hin := h.inPlace id hid hn
  have heq : w.finished C id
      = { w with bs := writePart C w.bs (w.acb id), inFlight := w.inFlight.erase id } :=
    Writes.finishAlloc_of_zero hin.unallocated
  apply And.intro
  · rw [heq]
    have hk := writePart_keeps C w.bs (w.acb id)
    exact {
      sound := writePart_sound h.sound _
      perm := by
        apply List.Perm.trans _ h.perm
        apply List.perm_iff_count.mpr
        intro j
        have hflight := (List.perm_cons_erase hid).count_eq j
        show List.count j (w.callbacks ++ w.inFlight.erase id ++ w.parked ++ [id]) = _
        simp only [List.count_append, List.count_cons, List.count_nil] at hflight ⊢
        omega
      nodup := h.nodup
      inFlight := by
        intro j hj
        apply (List.mem_erase_of_ne _).mpr (h.inFlight j hj)
        rintro rfl
        exact hn hj
      allocating := fun j hj => hk.allocating (h.allocating j hj)
      inPlace := fun j hj hnj => hk.inPlace (h.inPlace j (List.mem_of_mem_erase hj) hnj)
      guest := h.guest
      host := h.host
      waiting := h.waiting
      alone := fun j hj _ => h.alone j hj List.not_mem_nil
      follows := h.follows
      done := h.done }
  · have hrep := hin.replaces h.sound
    rw [linkL2, if_pos hin.unallocated] at hrep
    rw [heq]
    exact hrep

theorem finished_alloc (hid : id ∈ w.clusterAllocs) :
    Inv C (w.finished C id) (id :: w.deps id) ∧ Replaces C w.bs (w.finished C id).bs (w.acb id) := by
  have hal := h.allocating id hid
  have hal' := (writePart_keeps C w.bs (w.acb id)).allocating hal
  have hk := writePart_keeps C w.bs (w.acb id)
  have hl := hal'.linked
  have heq : w.finished C id
      = { w with
          bs := linkL2 C (writePart C w.bs (w.acb id)) (w.acb id).l2meta
          inFlight := w.inFlight.erase id
          clusterAllocs := w.clusterAllocs.erase id } := by
    rw [Writes.finished, Writes.finishAlloc]
    simp only [if_neg (Nat.pos_iff_ne_zero.mp hal.clusters)]
  have hmem : ∀ {j}, j ∈ w.clusterAllocs.erase id → j ∈ w.clusterAllocs ∧ j ≠ id := by
    intro j hj
    exact ((List.Nodup.mem_erase_iff h.nodup).mp hj).symm
  apply And.intro
  · rw [heq]
    exact {
      sound := hl.sound hal' (writePart_sound h.sound _)
      perm := by
        apply List.Perm.trans _ h.perm
        apply List.perm_iff_count.mpr
        intro j
        have hflight := (List.perm_cons_erase (h.inFlight id hid)).count_eq j
        have hparked := ((List.perm_cons_erase hid).flatMap_right w.deps).count_eq j
        show List.count j (w.callbacks ++ w.inFlight.erase id ++ (w.clusterAllocs.erase id).flatMap w.deps
          ++ id :: w.deps id) = List.count j (w.callbacks ++ w.inFlight ++ w.clusterAllocs.flatMap w.deps ++ [])
        simp only [List.flatMap_cons, List.count_append, List.count_cons, List.count_nil] at hflight hparked ⊢
        omega
      nodup := h.nodup.erase id
      inFlight := by
        intro j hj
        obtain ⟨hj, hne⟩ := hmem hj
        exact (List.mem_erase_of_ne hne).mpr (h.inFlight j hj)
      allocating := by
        intro j hj
        obtain ⟨hj, hne⟩ := hmem hj
        exact hl.allocating hal' (hk.allocating (h.allocating j hj)) (h.guest j hj id hid hne)
          (h.host id hid j hj hne.symm)
      inPlace := by
        intro j hj hnj
        have hne : j ≠ id := ((List.Nodup.mem_erase_iff h.nodup_inFlight).mp hj).1
        apply hl.inPlace hal'
        apply hk.inPlace
        apply h.inPlace j (List.mem_of_mem_erase hj)
        intro hmem
        exact hnj ((List.mem_erase_of_ne hne).mpr hmem)
      guest := fun j hj k hk => h.guest j (hmem hj).1 k (hmem hk).1
      host := fun j hj k hk => h.host j (hmem hj).1 k (hmem hk).1
      waiting := fun j hj => h.waiting j (hmem hj).1
      alone := by
        intro j hj hnl
        apply h.alone j _ List.not_mem_nil
        intro hmem
        apply hj
        apply (List.mem_erase_of_ne _).mpr hmem
        rintro rfl
        exact hnl List.mem_cons_self
      follows := h.follows
      done := h.done }
  · rw [heq]
    exact hal.replaces

theorem finished (hid : id ∈ w.inFlight) :
    Inv C (w.finished C id) (id :: w.deps id) ∧ Replaces C w.bs (w.finished C id).bs (w.acb id) ∧
      Part C (w.acb id) ∧ ∀ d ∈ w.deps id, Waiting (w.acb d) := by
  by_cases hn : id ∈ w.clusterAllocs
  · obtain ⟨hinv, hrep⟩ := h.finished_alloc hn
    exact ⟨hinv, hrep, (h.allocating id hn).toPart, h.waiting id hn⟩
  · obtain ⟨hinv, hrep⟩ := h.finished_inPlace hid hn
    have hnil : w.deps id = [] := h.alone id hn List.not_mem_nil
    rw [hnil]
    exact ⟨hinv, hrep, (h.inPlace id hid hn).toPart, fun d hd => by cases hd⟩

end Inv

/-- A request has come as far as its part, and all others are where they were. -/
structure Advanced (w w' : Writes α) (id : Nat) : Prop where
  started : w'.started = w.started
  sectorNum : (w'.acb id).sectorNum = (w.acb id).sectorNum + (w.acb id).curNrSectors
  buf : (w'.acb id).buf = (w.acb id).buf.drop (w.acb id).curNrSectors
  rest : ∀ j, j ≠ id → (w'.acb j).sectorNum = (w.acb j).sectorNum ∧ (w'.acb j).buf = (w.acb j).buf

/-- The completion of a data write. -/
theorem Inv.completeWrite (h : Inv C w []) (hid : id ∈ w.inFlight) :
    ∃ w', w.completeWrite C id = some w' ∧ Inv C w' [] ∧ Advanced w w' id ∧
      Replaces C w.bs w'.bs (w.acb id) ∧ Part C (w.acb id) := by
  obtain ⟨hinv, hrep, hpart, hwait⟩ := h.finished hid
  have hacb : (w.finished C id).acb = w.acb := rfl
  have hstarted : (w.finished C id).started = w.started := rfl
  obtain ⟨w₁, hfold, hinv₁, hstarted₁, hsame₁, hread₁, hacb₁⟩ :=
    hinv.runDependentRequests w.started.length (fun d hd => by rw [hacb]; exact hwait d hd)
  rw [hacb] at hacb₁ hsame₁
  have hinv₂ := hinv₁.advance List.mem_cons_self (by rw [hacb₁]; exact hpart)
  have hdeps : (w₁.advance id).deps id = [] := by
    rw [Writes.deps, Writes.advance, Writes.setAcb_self]
  obtain ⟨w₂, hnext, hinv₃, hframe⟩ := hinv₂.nextPart_spec (List.Perm.refl _) hdeps
  refine ⟨w₂, ?_, hinv₃, ?_, ?_, hpart⟩
  · rw [Writes.completeWrite_eq hid, hfold]
    exact hnext
  · have hid₂ := hframe.rest id
    rw [Writes.advance, Writes.setAcb_self, hacb₁] at hid₂
    exact {
      started := hframe.started.trans hstarted₁
      sectorNum := hid₂.1
      buf := hid₂.2
      rest := by
        intro j hj
        have hj₂ := hframe.rest j
        rw [Writes.advance, Writes.setAcb_of_ne _ _ hj] at hj₂
        exact ⟨hj₂.1.trans (hsame₁ j).1, hj₂.2.trans (hsame₁ j).2⟩ }
  · intro x
    have hread : qcowRead C w₂.bs x = qcowRead C (w.finished C id).bs x := (hframe.read x).trans (hread₁ x)
    rw [hread]
    exact hrep x

/-- A write that lies in the image and whose bytes fit. -/
def Request.Fits (C : Image α) (r : Request α) : Prop :=
  r.sectorNum + r.data.length ≤ C.totalSectors ∧ C.Fits r.sectorNum r.data.length

theorem Inv.writev (h : Inv C w []) {r : Request α} (hr : r.Fits C) :
    ∃ w', w.writev C r = some w' ∧ Inv C w' [] ∧ w'.started = w.started ++ [r] ∧
      (w'.acb w.started.length).sectorNum = r.sectorNum ∧ (w'.acb w.started.length).buf = r.data ∧
      (∀ j < w.started.length, (w'.acb j).sectorNum = (w.acb j).sectorNum ∧ (w'.acb j).buf = (w.acb j).buf) ∧
      ∀ x, qcowRead C w'.bs x = qcowRead C w.bs x := by
  obtain ⟨w₀, hw₀⟩ : ∃ w₀ : Writes α, w₀ = { w.setAcb w.started.length (qcowAioSetup r) with
    started := w.started ++ [r] } := ⟨_, rfl⟩
  have hlt : ∀ j ∈ w.callbacks ++ w.inFlight ++ w.parked, j < w.started.length := by
    intro j hj
    exact List.mem_range.mp (h.perm.mem_iff.mp (List.mem_append_left _ hj))
  have hacb : ∀ j < w.started.length, w₀.acb j = w.acb j := by
    intro j hj
    rw [hw₀]
    exact w.setAcb_of_ne _ (by omega)
  have hself : w₀.acb w.started.length = qcowAioSetup r := by
    rw [hw₀]
    exact w.setAcb_self _ _
  have halloc : ∀ j ∈ w.clusterAllocs, w₀.acb j = w.acb j := by
    intro j hj
    apply hacb
    exact hlt j (List.mem_append_left _ (List.mem_append_right _ (h.inFlight j hj)))
  have hdeps : ∀ j ∈ w.clusterAllocs, w₀.deps j = w.deps j := by
    intro j hj
    rw [Writes.deps, halloc j hj, Writes.deps]
  have hw : Waiting (w₀.acb w.started.length) := by
    rw [hself]
    exact ⟨rfl, rfl, rfl⟩
  have hflight : ∀ j ∈ w.inFlight, w₀.acb j = w.acb j :=
    fun j hj => hacb j (hlt j (List.mem_append_left _ (List.mem_append_right _ hj)))
  have hstarted : w₀.started = w.started ++ [r] := by rw [hw₀]
  have hsame : w₀.bs = w.bs ∧ w₀.clusterAllocs = w.clusterAllocs ∧ w₀.inFlight = w.inFlight ∧
      w₀.callbacks = w.callbacks := by
    rw [hw₀]
    exact ⟨rfl, rfl, rfl, rfl⟩
  obtain ⟨hbs, hallocs, hin, hcalls⟩ := hsame
  have hinv : Inv C w₀ [w.started.length] := {
    sound := by rw [hbs]; exact h.sound
    perm := by
      have hparked : w₀.parked = w.parked := by
        rw [Writes.parked, hallocs]
        exact List.flatMap_congr hdeps
      have hperm := h.perm
      rw [List.append_nil] at hperm
      rw [hcalls, hin, hparked, hstarted, List.length_append, List.length_singleton, List.range_succ]
      exact hperm.append_right _
    nodup := by rw [hallocs]; exact h.nodup
    inFlight := by rw [hallocs, hin]; exact h.inFlight
    allocating := by
      rw [hallocs, hbs]
      intro j hj
      rw [halloc j hj]
      exact h.allocating j hj
    inPlace := by
      rw [hallocs, hin, hbs]
      intro j hj hn
      rw [hflight j hj]
      exact h.inPlace j hj hn
    guest := by
      rw [hallocs]
      intro j hj k hk
      rw [halloc j hj, halloc k hk]
      exact h.guest j hj k hk
    host := by
      rw [hallocs]
      intro j hj k hk
      rw [halloc j hj, halloc k hk]
      exact h.host j hj k hk
    waiting := by
      rw [hallocs]
      intro j hj d hd
      rw [hdeps j hj] at hd
      rw [hacb d]
      · exact h.waiting j hj d hd
      · exact hlt d (List.mem_append_right _ (List.mem_flatMap.mpr ⟨j, hj, hd⟩))
    alone := by
      rw [hallocs]
      intro j hj hn
      have hne : j ≠ w.started.length := fun heq => hn (List.mem_singleton.mpr heq)
      have hold : w₀.acb j = w.acb j := by
        rw [hw₀]
        exact w.setAcb_of_ne _ hne
      rw [Writes.deps, hold]
      exact h.alone j hj List.not_mem_nil
    follows := by
      intro j r' hr'
      rw [hstarted] at hr'
      by_cases hj : j < w.started.length
      · rw [List.getElem?_append_left hj] at hr'
        rw [hacb j hj]
        exact h.follows j r' hr'
      · have hlen := (List.getElem?_eq_some_iff.mp hr').1
        rw [List.length_append, List.length_singleton] at hlen
        have heq : j = w.started.length := by omega
        rw [heq, List.getElem?_append_right le_rfl, Nat.sub_self] at hr'
        obtain rfl := Option.some.inj hr'
        rw [heq, hself]
        exact ⟨⟨0, Nat.zero_le _, rfl, rfl⟩, hr.1, fun _ => hr.2⟩
    done := by
      rw [hcalls]
      intro j hj
      rw [hacb j (hlt j (List.mem_append_left _ (List.mem_append_left _ hj)))]
      exact h.done j hj }
  obtain ⟨w₁, hnext, hinv₁, hframe⟩ := hinv.nextPart_spec (List.Perm.refl _) hw.alone
  refine ⟨w₁, ?_, hinv₁, ?_, ?_, ?_, ?_, ?_⟩
  · rw [Writes.writev]
    simp only [← hw₀]
    rw [Writes.writeCb_of_waiting _ hw, hnext]
  · rw [hframe.started, hw₀]
  · rw [(hframe.rest _).1, hself]
    rfl
  · rw [(hframe.rest _).2, hself]
    rfl
  · intro j hj
    rw [(hframe.rest j).1, (hframe.rest j).2, hacb j hj]
    exact ⟨rfl, rfl⟩
  · intro x
    rw [hframe.read x, hw₀]
    rfl

end Colama.Qemu.Qcow2

import Colama.Qemu.Qcow2.WritesSafe

namespace Colama.Qemu.Qcow2

open Lib

variable {α : Type*} {C : Image α} {bs : BDRVQcowState α} {w w' : Writes α} {id : Nat}

/-- The sectors that the requests have still to write. -/
def Writes.remaining (w : Writes α) : Nat :=
  (Finset.range w.started.length).sum fun j => (w.acb j).buf.length

/-- What a sector reads as, with the requests as far as they have come. -/
def Kept (C : Image α) (bs : BDRVQcowState α) (w : Writes α) : Prop :=
  ∀ x, (∃ j r, w.started[j]? = some r ∧ r.sectorNum ≤ x ∧ x < (w.acb j).sectorNum ∧
      r.data[x - r.sectorNum]? = some (qcowRead C w.bs x)) ∨
    ((∀ j r, w.started[j]? = some r → r.sectorNum ≤ x → (w.acb j).sectorNum ≤ x) ∧
      qcowRead C w.bs x = qcowRead C bs x)

theorem Advanced.sectorNum_le (h : Advanced w w' id) (j : Nat) : (w.acb j).sectorNum ≤ (w'.acb j).sectorNum := by
  by_cases hj : j = id
  · rw [hj, h.sectorNum]
    exact Nat.le_add_right _ _
  · rw [(h.rest j hj).1]

theorem Advanced.remaining_lt (h : Advanced w w' id) (hp : Part C (w.acb id)) (hid : id < w.started.length) :
    w'.remaining < w.remaining := by
  have hlen : (w'.acb id).buf.length < (w.acb id).buf.length := by
    have hpos := hp.pos
    have hle := hp.le
    rw [h.buf, List.length_drop]
    omega
  rw [Writes.remaining, Writes.remaining, h.started]
  apply Finset.sum_lt_sum
  · intro j _
    by_cases hj : j = id
    · rw [hj]
      exact hlen.le
    · rw [(h.rest j hj).2]
  · exact ⟨id, Finset.mem_range.mpr hid, hlen⟩

theorem Kept.advanced (hk : Kept C bs w) (hinv : Inv C w []) (hid : id < w.started.length)
    (ha : Advanced w w' id) (hr : Replaces C w.bs w'.bs (w.acb id)) (hp : Part C (w.acb id)) : Kept C bs w' := by
  intro x
  obtain ⟨hin, hout⟩ := hr x
  by_cases hx : (w.acb id).sectorNum ≤ x ∧ x < (w.acb id).sectorNum + (w.acb id).curNrSectors
  · left
    have hget := List.getElem?_eq_getElem hid
    obtain ⟨⟨k, hkle, hs, hb⟩, -⟩ := hinv.follows id _ hget
    refine ⟨id, _, by rw [ha.started]; exact hget, by omega, by rw [ha.sectorNum]; exact hx.2, ?_⟩
    have hdata := hin hx.1 hx.2
    rw [hb, List.getElem?_drop] at hdata
    rw [← hdata]
    congr 1
    omega
  · rw [hout hx]
    rcases hk x with ⟨j, r, hj, hlo, hhi, hdata⟩ | ⟨hnone, hread⟩
    · left
      exact ⟨j, r, by rw [ha.started]; exact hj, hlo, hhi.trans_le (ha.sectorNum_le j), hdata⟩
    · right
      refine ⟨fun j r hj hlo => ?_, hread⟩
      rw [ha.started] at hj
      have hold := hnone j r hj hlo
      by_cases hjid : j = id
      · subst hjid
        rw [ha.sectorNum]
        omega
      · rw [(ha.rest j hjid).1]
        exact hold

/-- The requests that a step may start. -/
def Act.Fits (C : Image α) : Act α → Prop
  | .writev r => r.Fits C
  | .complete _ => True

/-- What every state that is reached satisfies. -/
def Safe (C : Image α) (bs : BDRVQcowState α) (w : Writes α) : Prop := Inv C w [] ∧ Kept C bs w

theorem Safe.idle (hs : Sound C bs) : Safe C bs (Writes.idle bs) := by
  constructor
  · exact {
      sound := hs
      perm := List.Perm.refl []
      nodup := List.nodup_nil
      inFlight := fun j hj => by cases hj
      allocating := fun j hj => by cases hj
      inPlace := fun j hj => by cases hj
      guest := fun j hj => by cases hj
      host := fun j hj => by cases hj
      waiting := fun j hj => by cases hj
      alone := fun j _ _ => rfl
      follows := fun j r hr => by cases hr
      done := fun j hj => by cases hj }
  · intro x
    exact Or.inr ⟨(fun j r hr => by cases hr), rfl⟩

theorem Inv.lt_of_inFlight (h : Inv C w []) {j : Nat} (hj : j ∈ w.inFlight) : j < w.started.length := by
  apply List.mem_range.mp
  apply h.perm.mem_iff.mp
  simp only [List.mem_append]
  exact Or.inl (Or.inl (Or.inr hj))

theorem Safe.writev (h : Safe C bs w) {r : Request α} (hr : r.Fits C) :
    ∃ w', w.step C (.writev r) = some w' ∧ Safe C bs w' ∧ w'.remaining = w.remaining + r.data.length := by
  obtain ⟨w', hstep, hinv, hstarted, hsector, hbuf, hrest, hread⟩ := h.1.writev hr
  refine ⟨w', hstep, ⟨hinv, ?_⟩, ?_⟩
  · intro x
    rw [hread x]
    rcases h.2 x with ⟨j, q, hj, hlo, hhi, hdata⟩ | ⟨hnone, hold⟩
    · left
      have hlt := (List.getElem?_eq_some_iff.mp hj).1
      refine ⟨j, q, ?_, hlo, by rw [(hrest j hlt).1]; exact hhi, hdata⟩
      rw [hstarted, List.getElem?_append_left hlt]
      exact hj
    · right
      refine ⟨fun j q hj hlo => ?_, hold⟩
      rw [hstarted] at hj
      by_cases hlt : j < w.started.length
      · rw [List.getElem?_append_left hlt] at hj
        rw [(hrest j hlt).1]
        exact hnone j q hj hlo
      · have hlen := (List.getElem?_eq_some_iff.mp hj).1
        rw [List.length_append, List.length_singleton] at hlen
        have heq : j = w.started.length := by omega
        rw [heq, List.getElem?_append_right le_rfl, Nat.sub_self] at hj
        obtain rfl := Option.some.inj hj
        rw [heq, hsector]
        exact hlo
  · rw [Writes.remaining, hstarted, List.length_append, List.length_singleton, Finset.sum_range_succ, hbuf,
      Writes.remaining]
    congr 1
    apply Finset.sum_congr rfl
    intro j hj
    rw [(hrest j (Finset.mem_range.mp hj)).2]

theorem Safe.complete (h : Safe C bs w) (hid : id ∈ w.inFlight) :
    ∃ w', w.step C (.complete id) = some w' ∧ Safe C bs w' ∧ w'.remaining < w.remaining := by
  have hlt := h.1.lt_of_inFlight hid
  obtain ⟨w', hstep, hinv, hadv, hrep, hpart⟩ := h.1.completeWrite hid
  exact ⟨w', hstep, ⟨hinv, h.2.advanced h.1 hlt hadv hrep hpart⟩, hadv.remaining_lt hpart hlt⟩

theorem Safe.step {a : Act α} (h : Safe C bs w) (ha : a.Fits C) (hs : w.step C a = some w') : Safe C bs w' := by
  cases a with
  | writev r =>
    obtain ⟨w₁, hs₁, hsafe, -⟩ := h.writev ha
    obtain rfl := Option.some.inj (hs.symm.trans hs₁)
    exact hsafe
  | complete id =>
    by_cases hid : id ∈ w.inFlight
    · obtain ⟨w₁, hs₁, hsafe, -⟩ := h.complete hid
      obtain rfl := Option.some.inj (hs.symm.trans hs₁)
      exact hsafe
    · rw [Writes.step, Writes.completeWrite, if_neg hid] at hs
      cases hs

/-- With nothing under way, every request has ended. -/
theorem Inv.ended (h : Inv C w []) (hin : w.inFlight = []) {j : Nat} (hj : j < w.started.length) :
    j ∈ w.callbacks := by
  have hallocs : w.clusterAllocs = [] := by
    apply List.eq_nil_iff_forall_not_mem.mpr
    intro k hk
    have hmem := h.inFlight k hk
    rw [hin] at hmem
    cases hmem
  have hmem := h.perm.mem_iff.mpr (List.mem_range.mpr hj)
  rw [Writes.parked, hallocs, hin] at hmem
  simpa using hmem

theorem Inv.whole (h : Inv C w []) {j : Nat} {r : Request α} (hr : w.started[j]? = some r) (hj : j ∈ w.callbacks) :
    (w.acb j).sectorNum = r.sectorNum + r.data.length := by
  obtain ⟨⟨k, hk, hs, hb⟩, -⟩ := h.follows j r hr
  rw [h.done j hj] at hb
  have hle := List.drop_eq_nil_iff.mp hb.symm
  omega

section HugeWrite

variable (data : List Bool)

variable {data} (hlen : data.length = 2 ^ 22)

include hlen

end HugeWrite

end Colama.Qemu.Qcow2

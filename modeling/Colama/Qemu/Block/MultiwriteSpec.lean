import Colama.Qemu.Block.Multiwrite
import Mathlib.Tactic.Linarith

namespace Colama.Qemu.Block

theorem flatten_iovecConcatFrom (size : Nat) (dst src : QEMUIOVector) (done : Nat) (h : done ≤ size) :
    (iovecConcatFrom size dst done src).flatten = dst.flatten ++ src.flatten.take (size - done) := by
  induction src generalizing dst done with
  | nil => simp [iovecConcatFrom]
  | cons iov src ih =>
    rw [iovecConcatFrom, List.flatten_cons]
    split_ifs with hdone hover
    · subst hdone
      simp
    · rw [List.take_append_of_le_length (by omega)]
      simp
    · have hle : iov.length ≤ size - done := by omega
      rw [ih _ _ (by omega), List.take_append, List.take_of_length_le hle]
      simp [Nat.sub_sub]

theorem flatten_iovecConcat (dst src : QEMUIOVector) (size : Nat) :
    (iovecConcat dst src size).flatten = dst.flatten ++ src.flatten.take size := by
  rw [iovecConcat, flatten_iovecConcatFrom _ _ _ _ (Nat.zero_le _), Nat.sub_zero]

theorem niov_iovecConcatFrom (size : Nat) (dst src : QEMUIOVector) (done : Nat) :
    (iovecConcatFrom size dst done src).niov ≤ dst.niov + src.niov := by
  induction src generalizing dst done with
  | nil => simp [iovecConcatFrom]
  | cons iov src ih =>
    rw [iovecConcatFrom]
    split_ifs
    · exact Nat.le_add_right _ _
    · simp [QEMUIOVector.niov]
    · refine (ih _ _).trans ?_
      simp [QEMUIOVector.niov]
      omega

theorem niov_iovecConcat (dst src : QEMUIOVector) (size : Nat) :
    (iovecConcat dst src size).niov ≤ dst.niov + src.niov := niov_iovecConcatFrom size dst src 0

theorem toInt_of_lt {n : Nat} (h : n < 2 ^ 31) : toInt n = n := by
  apply Int.bmod_eq_of_le
  · show -(2147483648 : Int) ≤ n
    omega
  · show (n : Int) < 2147483648
    omega

theorem toInt_neg {n : Nat} (h : 2147483648 ≤ n) (hlt : n < 4294967296) : toInt n < 0 := by
  have hn : (n : Int) < 4294967296 := by omega
  apply (Int.bmod_neg_iff (by omega) hn).mpr
  apply Or.inr
  show ((4294967296 : Int) + 1) / 2 ≤ n
  omega

def mergedQiov (cur req : BlockRequest) : QEMUIOVector :=
  iovecConcat (iovecConcat [] cur.qiov ((req.sector - cur.sector) * 512).toNat) req.qiov req.qiov.size

/-- The request that takes the place of `cur` and of the `req` merged with it. -/
def BlockRequest.mergedWith (cur req : BlockRequest) : BlockRequest :=
  { sector := cur.sector
    nbSectors := toInt ((mergedQiov cur req).size >>> 9)
    qiov := mergedQiov cur req }

variable {done : List BlockRequest} {cur req : BlockRequest}

theorem multiwriteMergeStep_merge (h : req.sector ≤ cur.sector + cur.nbSectors)
    (hn : cur.qiov.niov + req.qiov.niov + 1 ≤ IOV_MAX) :
    multiwriteMergeStep none (done, cur) req = (done, cur.mergedWith req) := by
  simp [multiwriteMergeStep, h, not_lt.mpr h, not_lt.mpr hn, BlockRequest.mergedWith, mergedQiov]

theorem multiwriteMergeStep_skip (h : cur.sector + cur.nbSectors < req.sector) :
    multiwriteMergeStep none (done, cur) req = (done ++ [cur], req) := by
  simp [multiwriteMergeStep, not_le.mpr h]

theorem multiwriteMergeStep_cases (done : List BlockRequest) (cur req : BlockRequest) :
    req.sector ≤ cur.sector + cur.nbSectors ∧
        multiwriteMergeStep none (done, cur) req = (done, cur.mergedWith req) ∨
      multiwriteMergeStep none (done, cur) req = (done ++ [cur], req) := by
  by_cases h : req.sector ≤ cur.sector + cur.nbSectors
  · by_cases hn : cur.qiov.niov + req.qiov.niov + 1 ≤ IOV_MAX
    · exact .inl ⟨h, multiwriteMergeStep_merge h hn⟩
    · apply Or.inr
      simp [multiwriteMergeStep, not_le.mp hn]
  · exact .inr (multiwriteMergeStep_skip (not_le.mp h))

theorem lastStarting_concat (p : List BlockRequest) (req : BlockRequest) (x : Int) :
    lastStarting (p ++ [req]) x = if req.sector ≤ x then some req else lastStarting p x := by
  by_cases h : req.sector ≤ x
  · simp [lastStarting, h]
  · simp [lastStarting, h]

theorem mergedWith_sector (cur req : BlockRequest) : (cur.mergedWith req).sector = cur.sector := by
  rw [BlockRequest.mergedWith]

theorem mergedQiov_flatten (cur req : BlockRequest) : (mergedQiov cur req).flatten =
    cur.qiov.flatten.take ((req.sector - cur.sector) * 512).toNat ++ req.qiov.flatten := by
  rw [mergedQiov, flatten_iovecConcat, flatten_iovecConcat, QEMUIOVector.size,
    List.take_of_length_le (le_refl req.qiov.flatten.length)]
  rfl

theorem mergedQiov_niov (cur req : BlockRequest) :
    (mergedQiov cur req).niov ≤ cur.qiov.niov + req.qiov.niov := by
  refine (niov_iovecConcat _ _ _).trans (Nat.add_le_add_right ?_ _)
  refine (niov_iovecConcat _ _ _).trans ?_
  simp [QEMUIOVector.niov]

theorem mergedQiov_size (hcur : cur.WellFormed) (hreq : req.WellFormed) (hle : cur.sector ≤ req.sector)
    (hend : req.sector ≤ cur.sector + cur.nbSectors) :
    ((mergedQiov cur req).size : Int) = (req.sector + req.nbSectors - cur.sector) * 512 := by
  have hc := hcur.size
  have hr := hreq.size
  rw [QEMUIOVector.size] at hc hr
  rw [QEMUIOVector.size, mergedQiov_flatten, List.length_append, List.length_take]
  omega

theorem mergedWith_nbSectors (hcur : cur.WellFormed) (hreq : req.WellFormed)
    (hle : cur.sector ≤ req.sector) (hend : req.sector ≤ cur.sector + cur.nbSectors) :
    (cur.mergedWith req).nbSectors = toInt (req.sector + req.nbSectors - cur.sector).toNat := by
  have h := mergedQiov_size hcur hreq hle hend
  have hdiv : (mergedQiov cur req).size >>> 9 = (req.sector + req.nbSectors - cur.sector).toNat := by
    rw [Nat.shiftRight_eq_div_pow]
    omega
  rw [BlockRequest.mergedWith, hdiv]

theorem mergedWith_sectorData (cur req : BlockRequest) (x : Int) : (cur.mergedWith req).sectorData x =
    ((mergedQiov cur req).flatten.drop ((x - cur.sector) * 512).toNat).take 512 := by
  rw [BlockRequest.sectorData, BlockRequest.mergedWith]

theorem mergedWith_sectorData_left (hcur : cur.WellFormed) (hend : req.sector ≤ cur.sector + cur.nbSectors)
    {x : Int} (hx : cur.sector ≤ x) (hlt : x < req.sector) :
    (cur.mergedWith req).sectorData x = cur.sectorData x := by
  have hc := hcur.size
  rw [QEMUIOVector.size] at hc
  rw [mergedWith_sectorData, BlockRequest.sectorData, mergedQiov_flatten, List.drop_append_of_le_length,
    List.take_append_of_le_length, List.drop_take, List.take_take, Nat.min_eq_left]
  · omega
  · rw [List.length_drop, List.length_take]
    omega
  · rw [List.length_take]
    omega

theorem mergedWith_sectorData_right (hcur : cur.WellFormed) (hle : cur.sector ≤ req.sector)
    (hend : req.sector ≤ cur.sector + cur.nbSectors) {x : Int} (hx : req.sector ≤ x) :
    (cur.mergedWith req).sectorData x = req.sectorData x := by
  have hc := hcur.size
  rw [QEMUIOVector.size] at hc
  rw [mergedWith_sectorData, BlockRequest.sectorData, mergedQiov_flatten, List.drop_append, List.drop_eq_nil_of_le,
    List.nil_append, List.length_take]
  · apply congrArg (fun n => List.take 512 (List.drop n req.qiov.flatten))
    omega
  · rw [List.length_take]
    omega

def Survives (p : List BlockRequest) (x : Int) : Prop := ∃ req, lastStarting p x = some req ∧ req.Covers x

theorem survives_concat_of_le {p : List BlockRequest} {x : Int} (h : req.sector ≤ x) :
    Survives (p ++ [req]) x ↔ req.Covers x := by
  simp [Survives, lastStarting_concat, h]

theorem survives_concat_of_lt {p : List BlockRequest} {x : Int} (h : x < req.sector) :
    Survives (p ++ [req]) x ↔ Survives p x := by
  simp [Survives, lastStarting_concat, not_le.mpr h]

/-- The requests `done` and `cur` write what survives of those of `p`. -/
structure Folded (p done : List BlockRequest) (cur : BlockRequest) : Prop where
  apart : (done ++ [cur]).Pairwise fun a b => a.sector + a.nbSectors < b.sector
  wellFormed : ∀ r ∈ done ++ [cur], r.WellFormed
  last : ∃ last, p.getLast? = some last ∧ cur.sector ≤ last.sector ∧
    cur.sector + cur.nbSectors = last.sector + last.nbSectors
  covers : ∀ x, (∃ r ∈ done ++ [cur], r.Covers x) ↔ Survives p x
  data : ∀ r ∈ done ++ [cur], ∀ x, r.Covers x → ∃ orig ∈ p, orig.Covers x ∧ r.sectorData x = orig.sectorData x
  niov : cur.qiov.niov ≤ (p.map fun r => r.qiov.niov).sum

/-- A sector of the requests `p` that neither `done` nor `cur`, nor what is to come, writes. -/
def Loses (p done : List BlockRequest) (cur : BlockRequest) : Prop :=
  ∃ x, (∃ orig ∈ p, orig.Covers x) ∧ (∀ r ∈ done, ¬ r.Covers x) ∧
    (∃ last, p.getLast? = some last ∧ x < last.sector) ∧
    (x < cur.sector ∨ x = cur.sector ∧ cur.nbSectors < 0)

variable {p : List BlockRequest}

theorem Folded.single (h : req.WellFormed) : Folded [req] [] req where
  apart := List.pairwise_singleton _ _
  wellFormed r hr := by
    rw [List.mem_singleton.mp hr]
    exact h
  last := ⟨req, rfl, le_refl _, rfl⟩
  covers x := by
    by_cases hx : req.sector ≤ x
    · simp [Survives, lastStarting, hx]
    · simp [Survives, lastStarting, hx, BlockRequest.Covers]
  data r hr x hx := ⟨r, hr, hx, rfl⟩
  niov := by simp

/-- The sectors start in order: the next one not before the last, nor before those that are left. -/
theorem Folded.cur_le (h : Folded p done cur) (hsort : ∀ r ∈ p, r.sector ≤ req.sector) :
    cur.sector ≤ req.sector := by
  obtain ⟨last, hlast, hle, -⟩ := h.last
  exact hle.trans (hsort last (List.mem_of_getLast? hlast))

theorem Folded.end_lt (h : Folded p done cur) : ∀ r ∈ done, r.sector + r.nbSectors < cur.sector := by
  intro r hr
  exact (List.pairwise_append.mp h.apart).2.2 r hr cur (List.mem_singleton_self cur)

theorem Folded.end_le (h : Folded p done cur) :
    ∀ r ∈ done ++ [cur], r.sector + r.nbSectors ≤ cur.sector + cur.nbSectors := by
  intro r hr
  rcases List.mem_append.mp hr with hr | hr
  · have hlt := h.end_lt r hr
    have hn := (h.wellFormed cur (by simp)).nonneg
    omega
  · rw [List.mem_singleton.mp hr]

theorem Folded.skip (h : Folded p done cur) (hreq : req.WellFormed)
    (hlt : cur.sector + cur.nbSectors < req.sector) : Folded (p ++ [req]) (done ++ [cur]) req where
  apart := by
    rw [List.pairwise_append]
    refine ⟨h.apart, List.pairwise_singleton _ _, ?_⟩
    intro a ha b hb
    rw [List.mem_singleton.mp hb]
    rcases List.mem_append.mp ha with ha | ha
    · have hcur := h.end_lt a ha
      have hn := (h.wellFormed cur (by simp)).nonneg
      omega
    · rw [List.mem_singleton.mp ha]
      exact hlt
  wellFormed r hr := by
    rcases List.mem_append.mp hr with hr | hr
    · exact h.wellFormed r hr
    · rw [List.mem_singleton.mp hr]
      exact hreq
  last := ⟨req, by simp, le_refl _, rfl⟩
  covers x := by
    rcases lt_or_ge x req.sector with hx | hx
    · have hnot : ¬ req.Covers x := fun hc => absurd hc.1 (not_le.mpr hx)
      rw [survives_concat_of_lt hx, ← h.covers x]
      simp [or_and_right, exists_or, hnot]
    · rw [survives_concat_of_le hx]
      constructor
      · rintro ⟨r, hr, hc⟩
        rcases List.mem_append.mp hr with hr | hr
        · have hend := h.end_le r hr
          have hlt' := hc.2
          omega
        · rwa [List.mem_singleton.mp hr] at hc
      · intro hc
        exact ⟨req, by simp, hc⟩
  data r hr x hx := by
    rcases List.mem_append.mp hr with hr | hr
    · obtain ⟨orig, ho, hc⟩ := h.data r hr x hx
      exact ⟨orig, List.mem_append_left _ ho, hc⟩
    · exact ⟨r, List.mem_append_right _ hr, hx, rfl⟩
  niov := by
    simp

theorem Folded.merge (h : Folded p done cur) (hreq : req.WellFormed) (hle : cur.sector ≤ req.sector)
    (hend : req.sector ≤ cur.sector + cur.nbSectors)
    (hlt : req.sector + req.nbSectors - cur.sector < 2147483648) :
    Folded (p ++ [req]) done (cur.mergedWith req) := by
  have hcur : cur.WellFormed := h.wellFormed cur (by simp)
  have hn := hreq.nonneg
  have hnb : (cur.mergedWith req).nbSectors = req.sector + req.nbSectors - cur.sector := by
    rw [mergedWith_nbSectors hcur hreq hle hend, toInt_of_lt (by omega)]
    omega
  have hcov : ∀ x, (cur.mergedWith req).Covers x ↔ cur.sector ≤ x ∧ x < req.sector + req.nbSectors := by
    intro x
    rw [BlockRequest.Covers, hnb, mergedWith_sector]
    omega
  exact {
    apart := by
      rw [List.pairwise_append]
      refine ⟨(List.pairwise_append.mp h.apart).1, List.pairwise_singleton _ _, ?_⟩
      intro a ha b hb
      rw [List.mem_singleton.mp hb, mergedWith_sector]
      exact h.end_lt a ha
    wellFormed := by
      intro r hr
      rcases List.mem_append.mp hr with hr | hr
      · exact h.wellFormed r (List.mem_append_left _ hr)
      · rw [List.mem_singleton.mp hr]
        refine ⟨?_, ?_, ?_⟩
        · rw [hnb]
          omega
        · rw [hnb]
          omega
        · rw [hnb]
          exact mergedQiov_size hcur hreq hle hend
    last := by
      refine ⟨req, by simp, ?_, ?_⟩
      · rw [mergedWith_sector]
        exact hle
      · rw [hnb, mergedWith_sector]
        omega
    covers := by
      intro x
      rcases lt_or_ge x req.sector with hx | hx
      · have hiff : (cur.mergedWith req).Covers x ↔ cur.Covers x := by
          rw [hcov, BlockRequest.Covers]
          omega
        rw [survives_concat_of_lt hx, ← h.covers x]
        simp [or_and_right, exists_or, hiff]
      · rw [survives_concat_of_le hx]
        constructor
        · rintro ⟨r, hr, hc⟩
          rcases List.mem_append.mp hr with hr | hr
          · have hr' := h.end_lt r hr
            have hlt' := hc.2
            omega
          · rw [List.mem_singleton.mp hr] at hc
            exact ⟨hx, ((hcov x).mp hc).2⟩
        · intro hc
          exact ⟨cur.mergedWith req, by simp, (hcov x).mpr ⟨hle.trans hx, hc.2⟩⟩
    data := by
      intro r hr x hx
      rcases List.mem_append.mp hr with hr | hr
      · obtain ⟨orig, ho, hc⟩ := h.data r (List.mem_append_left _ hr) x hx
        exact ⟨orig, List.mem_append_left _ ho, hc⟩
      · rw [List.mem_singleton.mp hr] at hx ⊢
        have hx' := (hcov x).mp hx
        rcases lt_or_ge x req.sector with hlt' | hge
        · obtain ⟨orig, ho, hc, hd⟩ := h.data cur (by simp) x ⟨hx'.1, by omega⟩
          refine ⟨orig, List.mem_append_left _ ho, hc, ?_⟩
          rw [mergedWith_sectorData_left hcur hend hx'.1 hlt', hd]
        · refine ⟨req, by simp, ⟨hge, hx'.2⟩, ?_⟩
          exact mergedWith_sectorData_right hcur hle hend hge
    niov := by
      have hniov := h.niov
      rw [List.map_append, List.sum_append]
      exact (mergedQiov_niov cur req).trans (Nat.add_le_add hniov (by simp)) }

/-- A merged request of `2 ^ 31` sectors or more gets a negative number of them. -/
theorem Folded.overflow (h : Folded p done cur) (hreq : req.WellFormed) (hle : cur.sector ≤ req.sector)
    (hend : req.sector ≤ cur.sector + cur.nbSectors)
    (hge : 2147483648 ≤ req.sector + req.nbSectors - cur.sector) :
    Loses (p ++ [req]) done (cur.mergedWith req) ∧
      ∀ x, cur.sector ≤ x → x < cur.sector + 2 ^ 31 → ∃ r ∈ p ++ [req], r.Covers x := by
  have hcur : cur.WellFormed := h.wellFormed cur (by simp)
  have hint := hreq.int
  have hint' := hcur.int
  have hall : ∀ x, cur.sector ≤ x → x < cur.sector + 2 ^ 31 → ∃ r ∈ p ++ [req], r.Covers x := by
    intro x hx hx'
    rcases lt_or_ge x req.sector with hlt | hge'
    · obtain ⟨orig, ho, hc, -⟩ := h.data cur (by simp) x ⟨hx, by omega⟩
      exact ⟨orig, List.mem_append_left _ ho, hc⟩
    · exact ⟨req, by simp, hge', by omega⟩
  refine ⟨⟨cur.sector, hall _ (le_refl _) (by omega), ?_, ⟨req, by simp, by omega⟩, .inr ⟨?_, ?_⟩⟩, hall⟩
  · intro r hr hc
    have hlt := h.end_lt r hr
    have hlt' := hc.2
    omega
  · rw [mergedWith_sector]
  · rw [mergedWith_nbSectors hcur hreq hle hend]
    apply toInt_neg
    · omega
    · omega

theorem Loses.step (h : Loses p done cur) (hsort : ∀ r ∈ p, r.sector ≤ req.sector) :
    Loses (p ++ [req]) (multiwriteMergeStep none (done, cur) req).1
      (multiwriteMergeStep none (done, cur) req).2 := by
  obtain ⟨x, ⟨orig, ho, hc⟩, hdone, ⟨last, hlast, hlt⟩, hcur⟩ := h
  have hreq : x < req.sector := hlt.trans_le (hsort last (List.mem_of_getLast? hlast))
  have hnot : ¬ cur.Covers x := by
    rintro ⟨hge, hlt'⟩
    omega
  have hskip : Loses (p ++ [req]) (done ++ [cur]) req := by
    refine ⟨x, ⟨orig, List.mem_append_left _ ho, hc⟩, ?_, ⟨req, by simp, hreq⟩, .inl hreq⟩
    intro r hr
    rcases List.mem_append.mp hr with hr | hr
    · exact hdone r hr
    · rw [List.mem_singleton.mp hr]
      exact hnot
  rcases multiwriteMergeStep_cases done cur req with ⟨hle, heq⟩ | heq
  · rw [heq]
    refine ⟨x, ⟨orig, List.mem_append_left _ ho, hc⟩, hdone, ⟨req, by simp, hreq⟩, .inl ?_⟩
    rw [mergedWith_sector]
    omega
  · rw [heq]
    exact hskip

theorem NoLongRun.of_append {q : List BlockRequest} (h : NoLongRun (p ++ q)) : NoLongRun p := by
  intro start
  obtain ⟨x, hx, hx', hnone⟩ := h start
  exact ⟨x, hx, hx', fun r hr => hnone r (List.mem_append_left _ hr)⟩

/-- The merging is as it should be, or a run was too long and a sector of it is lost for good. -/
def FoldedOrLost (p : List BlockRequest) (out : List BlockRequest × BlockRequest) : Prop :=
  Folded p out.1 out.2 ∨ Loses p out.1 out.2 ∧ ¬ NoLongRun p

theorem Folded.step (h : Folded p done cur) (hreq : req.WellFormed) (hsort : ∀ r ∈ p, r.sector ≤ req.sector)
    (hn : ((p ++ [req]).map fun r => r.qiov.niov).sum < IOV_MAX) :
    FoldedOrLost (p ++ [req]) (multiwriteMergeStep none (done, cur) req) := by
  have hle := h.cur_le hsort
  rcases lt_or_ge (cur.sector + cur.nbSectors) req.sector with hlt | hend
  · rw [multiwriteMergeStep_skip hlt]
    exact .inl (h.skip hreq hlt)
  · have hniov := h.niov
    rw [List.map_append, List.sum_append] at hn
    simp only [List.map_cons, List.map_nil, List.sum_singleton] at hn
    rw [multiwriteMergeStep_merge hend (by omega)]
    rcases lt_or_ge (req.sector + req.nbSectors - cur.sector) 2147483648 with hlt | hge
    · exact .inl (h.merge hreq hle hend hlt)
    · obtain ⟨hloses, hall⟩ := h.overflow hreq hle hend hge
      refine .inr ⟨hloses, fun hrun => ?_⟩
      obtain ⟨x, hx, hx', hnone⟩ := hrun cur.sector
      obtain ⟨r, hr, hc⟩ := hall x hx hx'
      exact hnone r hr hc

theorem FoldedOrLost.foldl {out : List BlockRequest × BlockRequest} (h : FoldedOrLost p out)
    (reqs : List BlockRequest) (hreqs : ∀ r ∈ reqs, r.WellFormed)
    (hsort : (p ++ reqs).Pairwise fun a b => a.sector ≤ b.sector)
    (hn : ((p ++ reqs).map fun r => r.qiov.niov).sum < IOV_MAX) :
    FoldedOrLost (p ++ reqs) (reqs.foldl (multiwriteMergeStep none) out) := by
  induction reqs generalizing p out with
  | nil => simpa using h
  | cons req reqs ih =>
    have hp : ∀ r ∈ p, r.sector ≤ req.sector := fun r hr =>
      (List.pairwise_append.mp hsort).2.2 r hr req List.mem_cons_self
    have hn' : ((p ++ [req]).map fun r => r.qiov.niov).sum < IOV_MAX := by
      simp only [List.map_append, List.sum_append, List.map_cons, List.sum_cons, List.map_nil,
        List.sum_nil] at hn ⊢
      omega
    have hstep : FoldedOrLost (p ++ [req]) (multiwriteMergeStep none out req) := by
      rcases h with h | ⟨h, hrun⟩
      · exact h.step (hreqs req List.mem_cons_self) hp hn'
      · exact .inr ⟨h.step hp, fun hall => hrun hall.of_append⟩
    rw [List.append_cons] at hsort hn ⊢
    exact ih hstep (fun r hr => hreqs r (List.mem_cons_of_mem req hr)) hsort hn

theorem SortedBy.pairwise {reqs sorted : List BlockRequest} (h : SortedBy reqs sorted) :
    sorted.Pairwise fun a b => a.sector ≤ b.sector := by
  apply h.sorted.imp
  intro a b hab
  by_contra hlt
  rw [not_le] at hlt
  simp [multiwriteReqCompare, hlt] at hab

theorem lastStarting_mem {x : Int} (h : lastStarting p x = some req) : req ∈ p :=
  (List.mem_filter.mp (List.mem_of_getLast? h)).1

theorem Folded.end_or (h : Folded p done cur) : ∀ r ∈ done ++ [cur], ∀ r' ∈ done ++ [cur],
    r.sector + r.nbSectors = r'.sector + r'.nbSectors ∨ r.sector + r.nbSectors < r'.sector ∨
      r'.sector + r'.nbSectors < r.sector := by
  intro r hr r' hr'
  apply List.Pairwise.forall_of_forall_of_flip _ _ _ hr hr'
  · exact fun a _ => .inl rfl
  · exact h.apart.imp fun hab => .inr (.inl hab)
  · exact h.apart.imp fun hab => .inr (.inr hab)

/-- The requests left are apart, and none has `2 ^ 31` sectors. -/
theorem Folded.noLongRun (h : Folded p done cur) : NoLongRun (done ++ [cur]) := by
  intro start
  by_cases hstart : ∃ r ∈ done ++ [cur], r.Covers start
  · obtain ⟨r, hr, hge, hlt⟩ := hstart
    have hint := (h.wellFormed r hr).int
    refine ⟨r.sector + r.nbSectors, hlt.le, by omega, ?_⟩
    intro r' hr' hc
    have hor := h.end_or r hr r' hr'
    have hge' := hc.1
    have hlt' := hc.2
    omega
  · refine ⟨start, le_refl _, by omega, fun r hr hc => hstart ⟨r, hr, hc⟩⟩

theorem Folded.preserves_iff {reqs sorted : List BlockRequest} (h : Folded sorted done cur)
    (hperm : sorted.Perm reqs) :
    PreservesWrites reqs (done ++ [cur]) ↔ LastCovers sorted ∧ NoLongRun reqs := by
  have hmem : ∀ x, (∃ r ∈ reqs, r.Covers x) ↔ ∃ r ∈ sorted, r.Covers x := fun x => by
    simp only [hperm.mem_iff]
  constructor
  · intro hp
    constructor
    · intro x hx
      exact (h.covers x).mp ((hp.sectors x).mpr ((hmem x).mpr hx))
    · intro start
      obtain ⟨x, hx, hx', hnone⟩ := h.noLongRun start
      refine ⟨x, hx, hx', fun r hr hc => ?_⟩
      obtain ⟨r', hr', hc'⟩ := (hp.sectors x).mpr ⟨r, hr, hc⟩
      exact hnone r' hr' hc'
  · rintro ⟨hlast, -⟩
    constructor
    · intro x
      rw [h.covers, hmem]
      constructor
      · rintro ⟨r, hr, hc⟩
        exact ⟨r, lastStarting_mem hr, hc⟩
      · exact hlast x
    · intro r hr x hx
      obtain ⟨orig, ho, hc⟩ := h.data r hr x hx
      exact ⟨orig, hperm.mem_iff.mp ho, hc⟩

theorem Loses.not_preserves {reqs sorted : List BlockRequest} (h : Loses sorted done cur)
    (hperm : sorted.Perm reqs) : ¬ PreservesWrites reqs (done ++ [cur]) := by
  intro hp
  obtain ⟨x, ⟨orig, ho, hc⟩, hdone, -, hcur⟩ := h
  obtain ⟨r, hr, hc'⟩ := (hp.sectors x).mpr ⟨orig, hperm.mem_iff.mp ho, hc⟩
  rcases List.mem_append.mp hr with hr | hr
  · exact hdone r hr hc'
  · rw [List.mem_singleton.mp hr] at hc'
    have hge := hc'.1
    have hlt := hc'.2
    omega

/-- Merging keeps the writes just when no request drops a tail that nothing after it writes, and no
run of sectors is too long for an int. -/
theorem multiwriteMerge_preserves_iff (reqs sorted : List BlockRequest) (hsorted : SortedBy reqs sorted)
    (hreqs : ∀ r ∈ reqs, r.WellFormed) (hn : (reqs.map fun r => r.qiov.niov).sum < IOV_MAX) :
    PreservesWrites reqs (multiwriteMerge none sorted) ↔ LastCovers sorted ∧ NoLongRun reqs := by
  have hperm := hsorted.perm
  cases sorted with
  | nil =>
    cases hperm.nil_eq
    refine iff_of_true ⟨fun x => Iff.rfl, fun r hr => ?_⟩ ⟨fun x hx => ?_, fun start => ?_⟩
    · exact absurd hr List.not_mem_nil
    · obtain ⟨r, hr, -⟩ := hx
      exact absurd hr List.not_mem_nil
    · exact ⟨start, le_refl _, by omega, fun r hr => absurd hr List.not_mem_nil⟩
  | cons req rest =>
    have hwf : ∀ r ∈ req :: rest, r.WellFormed := fun r hr => hreqs r (hperm.mem_iff.mp hr)
    have hsum : (([req] ++ rest).map fun r => r.qiov.niov).sum < IOV_MAX := by
      rw [List.singleton_append, (hperm.map _).sum_eq]
      exact hn
    have hout : FoldedOrLost ([req] ++ rest) (rest.foldl (multiwriteMergeStep none) ([], req)) := by
      apply FoldedOrLost.foldl
      · exact .inl (.single (hwf req List.mem_cons_self))
      · exact fun r hr => hwf r (List.mem_cons_of_mem req hr)
      · exact hsorted.pairwise
      · exact hsum
    rcases hout with h | ⟨h, hrun⟩
    · exact h.preserves_iff hperm
    · constructor
      · exact fun hp => absurd hp (h.not_preserves hperm)
      · rintro ⟨-, hall⟩
        apply absurd _ hrun
        intro start
        obtain ⟨x, hx, hx', hnone⟩ := hall start
        exact ⟨x, hx, hx', fun r hr => hnone r (hperm.mem_iff.mp hr)⟩

/-- A request of `nb` sectors whose bytes are all `b`. -/
def fillRequest (sector : Int) (nb : Nat) (b : UInt8) : BlockRequest :=
  { sector, nbSectors := nb, qiov := [List.replicate (nb * 512) b] }

theorem fillRequest_covers (sector : Int) (nb : Nat) (b : UInt8) (x : Int) :
    (fillRequest sector nb b).Covers x ↔ sector ≤ x ∧ x < sector + nb := Iff.rfl

theorem fillRequest_wellFormed (sector : Int) {nb : Nat} (b : UInt8) (h : nb < 2147483648) :
    (fillRequest sector nb b).WellFormed where
  nonneg := Int.natCast_nonneg nb
  int := by
    show (nb : Int) < 2147483648
    omega
  size := by simp [fillRequest, QEMUIOVector.size]

theorem fillRequest_sorted {sector sector' : Int} (nb nb' : Nat) (b b' : UInt8) (h : sector ≤ sector') :
    SortedBy [fillRequest sector nb b, fillRequest sector' nb' b']
      [fillRequest sector nb b, fillRequest sector' nb' b'] where
  perm := List.Perm.refl _
  sorted := by
    simp [multiwriteReqCompare, fillRequest, not_lt.mpr h]
    split_ifs <;> decide

/-- Two requests that share a sector. -/
theorem multiwriteMerge_preserves_overlap :
    PreservesWrites [fillRequest 0 2 7, fillRequest 1 2 9]
      (multiwriteMerge none [fillRequest 0 2 7, fillRequest 1 2 9]) := by
  apply (multiwriteMerge_preserves_iff _ _ (fillRequest_sorted 2 2 7 9 (by decide)) ?_ (by decide)).mpr
  · constructor
    · intro x hx
      have hrange : 0 ≤ x ∧ x < 3 := by
        simp only [List.mem_cons, List.not_mem_nil, or_false, exists_eq_or_imp, exists_eq_left,
          fillRequest_covers] at hx
        omega
      have hx' : x = 0 ∨ x = 1 ∨ x = 2 := by omega
      rcases hx' with rfl | rfl | rfl
      · exact ⟨fillRequest 0 2 7, rfl, by decide, by decide⟩
      · exact ⟨fillRequest 1 2 9, rfl, by decide, by decide⟩
      · exact ⟨fillRequest 1 2 9, rfl, by decide, by decide⟩
    · intro start
      have hclear : ∀ x : Int, x < 0 ∨ 3 ≤ x → ∀ r ∈ [fillRequest 0 2 7, fillRequest 1 2 9], ¬ r.Covers x := by
        intro x hx r hr
        simp only [List.mem_cons, List.not_mem_nil, or_false] at hr
        rcases hr with rfl | rfl
        · rw [fillRequest_covers]
          omega
        · rw [fillRequest_covers]
          omega
      rcases lt_or_ge start 0 with hs | hs
      · exact ⟨start, le_refl _, by omega, hclear start (.inl hs)⟩
      · exact ⟨start + 3, by omega, by omega, hclear (start + 3) (.inr (by omega))⟩
  · intro r hr
    simp only [List.mem_cons, List.not_mem_nil, or_false] at hr
    rcases hr with rfl | rfl
    · exact fillRequest_wellFormed 0 7 (by decide)
    · exact fillRequest_wellFormed 1 9 (by decide)

/-- A request within another one: what follows it of the outer one is not written. -/
theorem multiwriteMerge_drops_tail : ¬ ∀ reqs sorted, SortedBy reqs sorted → (∀ r ∈ reqs, r.WellFormed) →
    (reqs.map fun r => r.qiov.niov).sum < IOV_MAX → PreservesWrites reqs (multiwriteMerge none sorted) := by
  intro h
  have hwf : (fillRequest 0 10 7).WellFormed := fillRequest_wellFormed 0 7 (by decide)
  have hwf' : (fillRequest 2 2 9).WellFormed := fillRequest_wellFormed 2 9 (by decide)
  have hp := h _ _ (fillRequest_sorted 10 2 7 9 (by decide : (0 : Int) ≤ 2))
    (by simp [hwf, hwf']) (by decide)
  have hend : (fillRequest 2 2 9).sector ≤ (fillRequest 0 10 7).sector + (fillRequest 0 10 7).nbSectors := by
    decide
  have hleft : multiwriteMerge none [fillRequest 0 10 7, fillRequest 2 2 9] =
      [(fillRequest 0 10 7).mergedWith (fillRequest 2 2 9)] := by
    rw [multiwriteMerge, List.foldl_cons, List.foldl_nil, multiwriteMergeStep_merge hend (by decide)]
    rfl
  rw [hleft] at hp
  obtain ⟨r, hr, hc⟩ := (hp.sectors 5).mpr ⟨fillRequest 0 10 7, by simp, by decide, by decide⟩
  rw [List.mem_singleton.mp hr] at hc
  have hlt := hc.2
  rw [mergedWith_nbSectors hwf hwf' (by decide) hend] at hlt
  exact absurd hlt (by decide)

end Colama.Qemu.Block

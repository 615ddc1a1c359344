import Mathlib.Data.Finset.Card
import Mathlib.Tactic

namespace Colama.Lib

/-- The counts cover the references: nothing is named more often than it is counted. -/
def Covers {ρ ι : Type*} (targets : ρ → List ι) (count : ι → Nat) : Prop :=
  ∀ (S : Finset ρ) (h : ι), (∀ r ∈ S, h ∈ targets r) → S.card ≤ count h

variable {ρ ι : Type*} {targets targets' : ρ → List ι} {count count' : ι → Nat} {r r' : ρ} {h : ι}

theorem Covers.pos (hc : Covers targets count) (hr : h ∈ targets r) : 1 ≤ count h := by
  have hS := hc {r} h (by simpa using hr)
  simpa using hS

theorem Covers.unique [DecidableEq ρ] (hc : Covers targets count) (hone : count h = 1)
    (hr : h ∈ targets r) (hr' : h ∈ targets r') : r = r' := by
  by_contra hne
  have hS := hc {r, r'} h (by simp [hr, hr'])
  rw [Finset.card_pair hne] at hS
  omega

theorem Covers.unnamed (hc : Covers targets count) (hzero : count h = 0) : h ∉ targets r := by
  intro hr
  have hpos := hc.pos hr
  omega

theorem Covers.mono (hc : Covers targets count) (hle : ∀ h, count h ≤ count' h) : Covers targets count' := by
  intro S h hS
  exact (hc S h hS).trans (hle h)

/-- References may move to targets that nothing names, if what they gave up is taken off at most once each. -/
theorem Covers.relink [DecidableEq ι] (hc : Covers targets count) (R : Finset ρ)
    (hout : ∀ r, r ∉ R → targets' r = targets r)
    (hnew : ∀ r ∈ R, ∀ h ∈ targets' r,
      (∀ q, h ∉ targets q) ∧ 1 ≤ count' h ∧ ∀ r' ∈ R, h ∈ targets' r' → r' = r)
    (hcount : ∀ h, count h ≤ count' h + (R.filter (h ∈ targets ·)).card) :
    Covers targets' count' := by
  classical
  intro S h hS
  by_cases hR : ∃ r ∈ S, r ∈ R
  · obtain ⟨r, hrS, hrR⟩ := hR
    obtain ⟨hun, hone, huniq⟩ := hnew r hrR h (hS r hrS)
    have hsub : S ⊆ {r} := by
      intro q hq
      by_cases hqR : q ∈ R
      · simpa using huniq q hqR (hS q hq)
      · have hqt := hS q hq
        rw [hout q hqR] at hqt
        exact absurd hqt (hun q)
    exact (Finset.card_le_card hsub).trans (by simpa using hone)
  · have hSR : Disjoint S (R.filter (h ∈ targets ·)) := by
      apply Finset.disjoint_left.mpr
      intro q hq hqR
      exact hR ⟨q, hq, (Finset.mem_filter.mp hqR).1⟩
    have hall := hc (S ∪ R.filter (h ∈ targets ·)) h (by
      intro q hq
      rcases Finset.mem_union.mp hq with hq | hq
      · rw [← hout q (fun hqR => hR ⟨q, hq, hqR⟩)]
        exact hS q hq
      · exact (Finset.mem_filter.mp hq).2)
    rw [Finset.card_union_of_disjoint hSR] at hall
    have hle := hcount h
    omega

theorem Covers.release [DecidableEq ρ] [DecidableEq ι] (hc : Covers targets count) (r : ρ)
    (hcount : ∀ h, count h ≤ count' h + if h ∈ targets r then 1 else 0) :
    Covers (Function.update targets r []) count' := by
  apply hc.relink {r}
  · intro q hq
    exact Function.update_of_ne (by simpa using hq) _ _
  · intro q hq h hh
    rw [Finset.mem_singleton.mp hq, Function.update_self] at hh
    cases hh
  · intro h
    apply (hcount h).trans
    rw [Finset.filter_singleton]
    split_ifs <;> simp

theorem Covers.assign [DecidableEq ρ] [DecidableEq ι] (hc : Covers targets count) (r : ρ) {l : List ι}
    (hl : ∀ h ∈ l, (∀ q, h ∉ targets q) ∧ 1 ≤ count' h) (hcount : ∀ h, count h ≤ count' h) :
    Covers (Function.update targets r l) count' := by
  apply hc.relink {r}
  · intro q hq
    exact Function.update_of_ne (by simpa using hq) _ _
  · intro q hq h hh
    rw [Finset.mem_singleton.mp hq, Function.update_self] at hh
    refine ⟨(hl h hh).1, (hl h hh).2, fun q' hq' _ => ?_⟩
    rw [Finset.mem_singleton.mp hq, Finset.mem_singleton.mp hq']
  · intro h
    exact (hcount h).trans (Nat.le_add_right _ _)

end Colama.Lib

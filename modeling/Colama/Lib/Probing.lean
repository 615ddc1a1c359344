import Mathlib.Data.Finset.Card
import Mathlib.Data.Finset.Interval
import Mathlib.Order.Interval.Finset.Nat
import Mathlib.Tactic

namespace Colama.Lib.Probing

variable {κ : Type*} [DecidableEq κ]

/-- The first of the `n` slots from `i` on that is free or has the key. -/
def probe (slots : Nat → Option κ) (key : κ) : (n i : Nat) → Option Nat
  | 0, _ => none
  | n + 1, i =>
    match slots i with
    | none => some i
    | some key' => if key' = key then some i else probe slots key n (i + 1)

/-- A table with one slot for each key, which is reached from its hash over slots that are not free. -/
structure Hashed (hash : κ → Nat) (slots : Nat → Option κ) (keys : Finset κ) : Prop where
  mem : ∀ i key, slots i = some key → key ∈ keys
  unique : ∀ i j key, slots i = some key → slots j = some key → i = j
  reached : ∀ key ∈ keys, ∃ j, hash key ≤ j ∧ slots j = some key ∧ ∀ i, hash key ≤ i → i < j → slots i ≠ none

variable {hash : κ → Nat} {slots : Nat → Option κ} {keys : Finset κ}

omit [DecidableEq κ] in
theorem Hashed.empty (hash : κ → Nat) : Hashed hash (fun _ => none) ∅ :=
  ⟨nofun, nofun, nofun⟩

/-- There are no more slots in a row that are not free than there are keys. -/
theorem Hashed.length_le (h : Hashed hash slots keys) {i n : Nat} (hn : ∀ j, i ≤ j → j < i + n → slots j ≠ none) :
    n ≤ keys.card := by
  have hcard : (Finset.Ico i (i + n)).card ≤ (keys.image some).card := by
    apply Finset.card_le_card_of_injOn slots
    · intro j hj
      rw [Finset.mem_coe, Finset.mem_Ico] at hj
      obtain ⟨key, hkey⟩ := Option.ne_none_iff_exists'.mp (hn j hj.1 hj.2)
      rw [hkey]
      exact Finset.mem_image_of_mem some (h.mem j key hkey)
    · intro j hj j' _ heq
      rw [Finset.mem_coe, Finset.mem_Ico] at hj
      obtain ⟨key, hkey⟩ := Option.ne_none_iff_exists'.mp (hn j hj.1 hj.2)
      exact h.unique j j' key hkey (heq.symm.trans hkey)
  rw [Nat.card_Ico, Nat.add_sub_cancel_left] at hcard
  exact hcard.trans Finset.card_image_le

/-- A probe ends at the key, or before a free slot. -/
theorem probe_spec (slots : Nat → Option κ) (key : κ) (n i : Nat) :
    (∃ j, probe slots key n i = some j ∧ i ≤ j ∧ j < i + n ∧ (slots j = none ∨ slots j = some key) ∧
        ∀ i', i ≤ i' → i' < j → slots i' ≠ none ∧ slots i' ≠ some key) ∨
      ∀ j, i ≤ j → j < i + n → slots j ≠ none := by
  induction n generalizing i with
  | zero => exact .inr fun j hle hlt => absurd hlt (Nat.not_lt.mpr hle)
  | succ n ih =>
    rw [probe]
    cases hi : slots i with
    | none => exact .inl ⟨i, rfl, le_rfl, by omega, .inl hi, fun i' hle hlt => absurd hlt (Nat.not_lt.mpr hle)⟩
    | some key' =>
      by_cases hkey : key' = key
      · subst hkey
        exact .inl ⟨i, if_pos rfl, le_rfl, by omega, .inr hi, fun i' hle hlt => absurd hlt (Nat.not_lt.mpr hle)⟩
      · have hhere : slots i ≠ none ∧ slots i ≠ some key := by
          rw [hi]
          exact ⟨nofun, fun h => hkey (Option.some.inj h)⟩
        refine (ih (i + 1)).imp ?_ ?_
        · rintro ⟨j, hprobe, hle, hlt, hfound, hbefore⟩
          refine ⟨j, (if_neg hkey).trans hprobe, by omega, by omega, hfound, fun i' hi' hlt' => ?_⟩
          rcases Nat.eq_or_lt_of_le hi' with rfl | hi'
          · exact hhere
          · exact hbefore i' hi' hlt'
        · intro hall j hle hlt
          rcases Nat.eq_or_lt_of_le hle with rfl | hle
          · exact hhere.1
          · exact hall j hle (by omega)

/-- With more slots than keys after its hash, a key is found where it is, or where it can be put. -/
theorem Hashed.probe (h : Hashed hash slots keys) (key : κ) {n : Nat} (hn : keys.card < n) :
    ∃ j, Probing.probe slots key n (hash key) = some j ∧ hash key ≤ j ∧ j < hash key + n ∧
      (slots j = none ∧ key ∉ keys ∨ slots j = some key) ∧ ∀ i, hash key ≤ i → i < j → slots i ≠ none := by
  rcases probe_spec slots key n (hash key) with ⟨j, hprobe, hle, hlt, hfound, hbefore⟩ | hall
  · refine ⟨j, hprobe, hle, hlt, hfound.imp (fun hfree => ⟨hfree, fun hmem => ?_⟩) id,
      fun i hi hij => (hbefore i hi hij).1⟩
    obtain ⟨j', hle', hj', hpath⟩ := h.reached key hmem
    rcases Nat.lt_trichotomy j j' with hlt' | rfl | hlt'
    · exact hpath j hle hlt' hfree
    · rw [hfree] at hj'
      cases hj'
    · exact (hbefore j' hle' hlt').2 hj'
  · exact absurd (h.length_le hall) (Nat.not_le.mpr hn)

theorem Hashed.insert (h : Hashed hash slots keys) {key : κ} {j : Nat} (hj : slots j = none) (hle : hash key ≤ j)
    (hkey : key ∉ keys) (hpath : ∀ i, hash key ≤ i → i < j → slots i ≠ none) :
    Hashed hash (Function.update slots j (some key)) (insert key keys) := by
  have hold : ∀ {i key'}, Function.update slots j (some key) i = some key' →
      i = j ∧ key' = key ∨ i ≠ j ∧ slots i = some key' := by
    intro i key' hi
    by_cases hij : i = j
    · subst hij
      rw [Function.update_self] at hi
      exact .inl ⟨rfl, (Option.some.inj hi).symm⟩
    · rw [Function.update_of_ne hij] at hi
      exact .inr ⟨hij, hi⟩
  have hused : ∀ i, slots i ≠ none → Function.update slots j (some key) i ≠ none := by
    intro i hi
    by_cases hij : i = j
    · rw [hij, Function.update_self]
      exact nofun
    · rwa [Function.update_of_ne hij]
  refine ⟨?_, ?_, ?_⟩
  · intro i key' hi
    rcases hold hi with ⟨-, rfl⟩ | ⟨-, hi⟩
    · exact Finset.mem_insert_self _ _
    · exact Finset.mem_insert_of_mem (h.mem i key' hi)
  · intro i i' key' hi hi'
    rcases hold hi with ⟨hij, heq⟩ | ⟨-, hold₁⟩
    · rcases hold hi' with ⟨hij', -⟩ | ⟨-, hold₂⟩
      · exact hij.trans hij'.symm
      · exact absurd (heq ▸ h.mem i' key' hold₂) hkey
    · rcases hold hi' with ⟨-, heq⟩ | ⟨-, hold₂⟩
      · exact absurd (heq ▸ h.mem i key' hold₁) hkey
      · exact h.unique i i' key' hold₁ hold₂
  · intro key' hmem
    rcases Finset.mem_insert.mp hmem with rfl | hmem
    · exact ⟨j, hle, Function.update_self j _ slots, fun i hi hij => hused i (hpath i hi hij)⟩
    · obtain ⟨j', hle', hj', hpath'⟩ := h.reached key' hmem
      have hne : j' ≠ j := by
        rintro rfl
        rw [hj] at hj'
        cases hj'
      refine ⟨j', hle', ?_, fun i hi hij => hused i (hpath' i hi hij)⟩
      rwa [Function.update_of_ne hne]

end Colama.Lib.Probing

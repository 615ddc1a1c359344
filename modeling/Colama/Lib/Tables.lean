import Mathlib.Data.List.AList

namespace Colama.Lib

variable {α β σ γ : Type*} [DecidableEq α]

abbrev Table (α β : Type*) := AList fun _ : α => β

/-- What a walk over a table does, if its step for an entry changes only what is seen at the key. -/
theorem Table.foldl_entries {seen : α → σ → γ} {step : σ → (Σ _ : α, β) → σ} {change : β → γ → γ}
    (hframe : ∀ s e a, a ≠ e.1 → seen a (step s e) = seen a s)
    (hself : ∀ s e, seen e.1 (step s e) = change e.2 (seen e.1 s)) (t : Table α β) (s : σ) (a : α) :
    seen a (t.entries.foldl step s) = (t.lookup a).elim (seen a s) fun b => change b (seen a s) := by
  obtain ⟨entries, hkeys⟩ := t
  show seen a (entries.foldl step s) = (entries.dlookup a).elim (seen a s) fun b => change b (seen a s)
  induction entries generalizing s with
  | nil => simp
  | cons e entries ih =>
    rw [List.nodupKeys_cons] at hkeys
    rw [List.foldl_cons, ih _ hkeys.2]
    by_cases ha : a = e.1
    · subst ha
      have hnot : entries.dlookup e.1 = none := List.dlookup_eq_none.mpr hkeys.1
      have hhead : (e :: entries).dlookup e.1 = some e.2 := List.dlookup_cons_eq ..
      rw [hnot, hhead, Option.elim_none, Option.elim_some, hself]
    · rw [List.dlookup_cons_ne _ _ ha, hframe s e a ha]

end Colama.Lib

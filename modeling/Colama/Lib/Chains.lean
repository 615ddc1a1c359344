import Mathlib.Tactic
import Mathlib.Logic.Relation

namespace Colama.Lib

variable {α : Type*}

/-- A chain in which each element names at most one other. -/
def LeadsTo (f : α → Option α) (x y : α) : Prop := f x = some y

/-- The chain from an element on comes to an end. -/
def Ends (f : α → Option α) : α → Prop := Acc fun y x => LeadsTo f x y

variable {f : α → Option α} {x y : α}

theorem Ends.of_reflTransGen (h : Ends f x) (hxy : Relation.ReflTransGen (LeadsTo f) x y) : Ends f y := by
  induction hxy with
  | refl => exact h
  | tail _ hyz ih => exact ih.inv hyz

theorem Ends.not_transGen (h : Ends f x) : ¬ Relation.TransGen (LeadsTo f) x x := by
  induction h with
  | intro x _ ih =>
    intro hx
    obtain ⟨y, hxy, hyx⟩ := Relation.TransGen.head'_iff.mp hx
    exact ih y hxy (Relation.TransGen.tail' hyx hxy)

/-- Among finitely many elements a chain ends just when it never comes back to one of its elements. -/
theorem ends_iff [Finite α] :
    Ends f x ↔ ∀ y, Relation.ReflTransGen (LeadsTo f) x y → ¬ Relation.TransGen (LeadsTo f) y y := by
  refine ⟨fun h y hxy => (h.of_reflTransGen hxy).not_transGen, fun h => ?_⟩
  let later (a b : α) : Prop := Relation.ReflTransGen (LeadsTo f) x b ∧ Relation.TransGen (LeadsTo f) b a
  have : IsTrans α later := ⟨fun a b c hab hbc => ⟨hbc.1, hbc.2.trans hab.2⟩⟩
  have : Std.Irrefl later := ⟨fun a ha => h a ha.1 ha.2⟩
  have hwf : WellFounded later := Finite.wellFounded_of_trans_of_irrefl later
  have hacc (y : α) (hy : Relation.ReflTransGen (LeadsTo f) x y) : Ends f y := by
    induction y using hwf.induction with
    | _ y ih => exact ⟨y, fun z hz => ih z ⟨hy, .single hz⟩ (hy.tail hz)⟩
  exact hacc x .refl

end Colama.Lib

import Mathlib.Tactic

namespace Colama.Lib

variable {α : Type*} [LinearOrder α] {f g : α → α} {bound x : α} {fuel : Nat}

/-- The first of `x`, `f x`, `f (f x)` and so on that is not below the bound, if `fuel` steps are enough. -/
@[grind] def climb (f : α → α) (bound : α) : (fuel : Nat) → α → α
  | 0, x => x
  | fuel + 1, x => if x < bound then climb f bound fuel (f x) else x

@[simp] theorem climb_of_le (h : bound ≤ x) : climb f bound fuel x = x := by
  cases fuel with
  | zero => rfl
  | succ fuel => rw [climb, if_neg h.not_gt]

/-- It is where the climb starts, or one step up from below the bound. -/
theorem climb_eq_or : climb f bound fuel x = x ∨ ∃ y, y < bound ∧ climb f bound fuel x = f y := by
  induction fuel generalizing x with
  | zero => exact .inl rfl
  | succ fuel ih =>
    by_cases h : x < bound
    · rw [climb, if_pos h]
      rcases ih (x := f x) with heq | hstep
      · exact .inr ⟨x, h, heq⟩
      · exact .inr hstep
    · exact .inl (climb_of_le (not_lt.mp h))

theorem climb_eq_iterate : ∃ n, climb f bound fuel x = f^[n] x := by
  induction fuel generalizing x with
  | zero => exact ⟨0, rfl⟩
  | succ fuel ih =>
    rw [climb]
    split
    · obtain ⟨n, hn⟩ := ih (x := f x)
      exact ⟨n + 1, hn⟩
    · exact ⟨0, rfl⟩

/-- Steps that are the same below the bound lead to the same place. -/
theorem climb_congr (h : ∀ y < bound, f y = g y) : climb f bound fuel x = climb g bound fuel x := by
  induction fuel generalizing x with
  | zero => rfl
  | succ fuel ih =>
    rw [climb, climb]
    split
    · rename_i hx
      rw [h x hx, ih]
    · rfl

theorem le_iterate (hf : ∀ y, y ≤ f y) (n : Nat) (x : α) : x ≤ f^[n] x := by
  induction n generalizing x with
  | zero => exact le_rfl
  | succ n ih => exact (hf x).trans (ih (f x))

/-- No later place that is not below the bound is lower. -/
theorem climb_le (hf : ∀ y, y ≤ f y) {n : Nat} (h : bound ≤ f^[n] x) : climb f bound fuel x ≤ f^[n] x := by
  induction n generalizing x fuel with
  | zero => exact (climb_of_le (h : bound ≤ x)).le
  | succ n ih =>
    cases fuel with
    | zero => exact le_iterate hf (n + 1) x
    | succ fuel =>
      rw [climb]
      split
      · exact ih h
      · exact le_iterate hf (n + 1) x

/-- Steps up reach a bound of numbers. -/
theorem le_climb {f : Nat → Nat} {bound x fuel : Nat} (hf : ∀ y, x ≤ y → y < bound → y < f y) (hfuel : bound ≤ x + fuel) :
    bound ≤ climb f bound fuel x := by
  induction fuel generalizing x with
  | zero => exact hfuel
  | succ fuel ih =>
    rw [climb]
    split
    · rename_i hx
      have hstep := hf x le_rfl hx
      exact ih (fun y hy => hf y (by omega)) (by omega)
    · rename_i hx
      exact Nat.not_lt.mp hx

/-- The first of `x`, `f x`, `f (f x)` and so on that the function leaves as it is, if it comes within the
fuel. -/
@[grind] def settle [DecidableEq α] (f : α → α) : (fuel : Nat) → α → Option α
  | 0, _ => none
  | fuel + 1, x => if f x = x then some x else settle f fuel (f x)

theorem settle_fixed [DecidableEq α] {y : α} (h : settle f fuel x = some y) : f y = y := by
  induction fuel generalizing x with
  | zero => cases h
  | succ fuel ih =>
    rw [settle] at h
    split at h
    · rename_i hx
      cases h
      exact hx
    · exact ih h

theorem settle_keeps [DecidableEq α] {P : α → Prop} (hkeep : ∀ z, P z → P (f z)) (hx : P x) {y : α}
    (h : settle f fuel x = some y) : P y := by
  induction fuel generalizing x with
  | zero => cases h
  | succ fuel ih =>
    rw [settle] at h
    split at h
    · cases h
      exact hx
    · exact ih (hkeep x hx) h

/-- Two functions that take the same steps where the climb goes settle at the same place. -/
theorem settle_map {β : Type*} [DecidableEq α] [DecidableEq β] {F : β → β} {e : α → β} (he : Function.Injective e)
    {P : α → Prop} (hstep : ∀ y, P y → F (e y) = e (f y)) (hkeep : ∀ y, P y → P (f y)) (hx : P x) :
    settle F fuel (e x) = (settle f fuel x).map e := by
  induction fuel generalizing x with
  | zero => rfl
  | succ fuel ih =>
    rw [settle, settle, hstep x hx]
    by_cases hfix : f x = x
    · rw [if_pos (congrArg e hfix), if_pos hfix, Option.map_some]
    · rw [if_neg (fun h => hfix (he h)), if_neg hfix, ih (hkeep x hx)]

/-- Steps up of numbers that stay below a place which is not stepped over settle at or below it. -/
theorem exists_settle {f : Nat → Nat} {x top : Nat} (hmono : Monotone f) (hx : x ≤ f x) (htop : f top ≤ top)
    (hle : x ≤ top) : ∃ fuel y, settle f fuel x = some y := by
  induction hn : top - x using Nat.strong_induction_on generalizing x with
  | _ n ih =>
    by_cases hfix : f x = x
    · exact ⟨1, x, by rw [settle, if_pos hfix]⟩
    · have hstep : f x ≤ top := (hmono hle).trans htop
      obtain ⟨fuel, y, hy⟩ := ih (top - f x) (by omega) (hmono hx) hstep rfl
      exact ⟨fuel + 1, y, by rw [settle, if_neg hfix, hy]⟩

end Colama.Lib

import Mathlib.Data.List.Basic
import Mathlib.Logic.Function.Basic
import Mathlib.Tactic

namespace Colama.Lib

section Linked

variable {ι κ : Type*} (node : κ → Option ι) (next : ι → κ)

/-- From the link `a`, the nodes of the list are passed in turn until the link `b` is found. -/
def Linked : κ → List ι → κ → Prop
  | a, [], b => a = b
  | a, x :: l, b => node a = some x ∧ Linked (next x) l b

/-- The nodes that are passed from a link, at most `n` of them. -/
def follow : Nat → κ → List ι
  | 0, _ => []
  | n + 1, a =>
    match node a with
    | none => []
    | some x => x :: follow n (next x)

variable {node next} {next' : ι → κ} {a b c : κ} {x : ι} {l l' : List ι}

theorem Linked.append (h : Linked node next a l b) (h' : Linked node next b l' c) :
    Linked node next a (l ++ l') c := by
  induction l generalizing a with
  | nil =>
    cases h
    exact h'
  | cons x l ih => exact ⟨h.1, ih h.2⟩

theorem Linked.split (h : Linked node next a (l ++ l') c) :
    ∃ b, Linked node next a l b ∧ Linked node next b l' c := by
  induction l generalizing a with
  | nil => exact ⟨a, rfl, h⟩
  | cons x l ih =>
    obtain ⟨b, h₁, h₂⟩ := ih h.2
    exact ⟨b, ⟨h.1, h₁⟩, h₂⟩

/-- Only the links out of the nodes of the list count. -/
theorem Linked.congr (h : Linked node next a l b) (he : ∀ x ∈ l, next' x = next x) :
    Linked node next' a l b := by
  induction l generalizing a with
  | nil => exact h
  | cons x l ih =>
    refine ⟨h.1, ?_⟩
    rw [he x List.mem_cons_self]
    exact ih h.2 fun y hy => he y (List.mem_cons_of_mem _ hy)

/-- The last node of a list is made to point elsewhere. -/
theorem Linked.redirect [DecidableEq ι] (h : Linked node next a (l ++ [x]) b) (hx : x ∉ l) :
    Linked node (Function.update next x c) a (l ++ [x]) c := by
  obtain ⟨m, h₁, h₂⟩ := h.split
  have hne : ∀ y ∈ l, Function.update next x c y = next y :=
    fun y hy => Function.update_of_ne (ne_of_mem_of_not_mem hy hx) _ _
  refine (h₁.congr hne).append ?_
  exact ⟨h₂.1, Function.update_self _ _ _⟩

theorem Linked.follow_eq (h : Linked node next a l b) (hb : node b = none) {n : Nat}
    (hn : l.length ≤ n) : follow node next n a = l := by
  induction l generalizing a n with
  | nil =>
    cases h
    cases n with
    | zero => rfl
    | succ n => rw [follow, hb]
  | cons x l ih =>
    cases n with
    | zero => cases hn
    | succ n =>
      rw [follow, h.1]
      exact congrArg _ (ih h.2 (Nat.le_of_succ_le_succ hn))

end Linked

end Colama.Lib

import Mathlib.Data.List.Basic
import Mathlib.Tactic

namespace Colama.Lib

variable {α : Type*}

/-- Appends `n` entries, each written over from the one `d` places before it. -/
def copyBack (w : Nat → α → α) (d : Nat) : Nat → List α → List α
  | 0, out => out
  | n + 1, out =>
    match out[out.length - d]? with
    | none => out
    | some b => copyBack w d n (out ++ [w out.length b])

/-- Appends `n` entries, all written over from `b`. -/
def copyRun (w : Nat → α → α) (b : α) : Nat → List α → List α
  | 0, out => out
  | n + 1, out => copyRun w b n (out ++ [w out.length b])

/-- Every entry of the list is as it should be at its place. -/
def Follows (R : Nat → α → Prop) (out : List α) : Prop := ∀ i b, out[i]? = some b → R i b

variable {R : Nat → α → Prop} {w : Nat → α → α} {out : List α} {b : α} {d n : Nat}

@[simp] theorem follows_nil : Follows R [] := by
  intro i b h
  cases h

theorem Follows.append_singleton (h : Follows R out) (hb : R out.length b) : Follows R (out ++ [b]) := by
  intro i c hc
  rw [List.getElem?_append] at hc
  split at hc
  · exact h i c hc
  · rename_i hi
    obtain ⟨hlt, rfl⟩ := List.getElem?_eq_some_iff.mp hc
    rw [List.length_singleton] at hlt
    rw [List.getElem_singleton, show i = out.length by omega]
    exact hb

theorem length_copyRun (w : Nat → α → α) (b : α) (n : Nat) (out : List α) :
    (copyRun w b n out).length = out.length + n := by
  induction n generalizing out with
  | zero => rfl
  | succ n ih =>
    rw [copyRun, ih, List.length_append, List.length_singleton]
    omega

theorem length_copyBack_le (w : Nat → α → α) (d n : Nat) (out : List α) :
    (copyBack w d n out).length ≤ out.length + n := by
  induction n generalizing out with
  | zero => exact le_rfl
  | succ n ih =>
    rw [copyBack]
    split
    · omega
    · refine (ih _).trans ?_
      rw [List.length_append, List.length_singleton]
      omega

/-- A copy continues a list when what is right `d` places before a place, written over, is right at
that place. -/
theorem Follows.copyBack (h : Follows R out) (hd : 0 < d) (hle : d ≤ out.length)
    (hR : ∀ i, i < n → ∀ b, R (out.length + i - d) b → R (out.length + i) (w (out.length + i) b)) :
    Follows R (copyBack w d n out) ∧ (copyBack w d n out).length = out.length + n := by
  induction n generalizing out with
  | zero => exact ⟨h, rfl⟩
  | succ n ih =>
    have hlt : out.length - d < out.length := by omega
    have hget : out[out.length - d]? = some out[out.length - d] := List.getElem?_eq_getElem hlt
    rw [Lib.copyBack, hget]
    have hb := hR 0 (Nat.succ_pos n) _ (h _ _ hget)
    obtain ⟨h₁, h₂⟩ := ih (h.append_singleton hb) (by rw [List.length_append]; omega) fun i hi c hc => by
      rw [List.length_append, List.length_singleton] at hc ⊢
      rw [Nat.add_right_comm, Nat.add_assoc] at hc ⊢
      exact hR (i + 1) (Nat.succ_lt_succ hi) c hc
    refine ⟨h₁, h₂.trans ?_⟩
    rw [List.length_append, List.length_singleton]
    omega

theorem Follows.copyRun (h : Follows R out)
    (hR : ∀ i, i < n → R (out.length + i) (w (out.length + i) b)) : Follows R (copyRun w b n out) := by
  induction n generalizing out with
  | zero => exact h
  | succ n ih =>
    refine ih (h.append_singleton (hR 0 (Nat.succ_pos n))) fun i hi => ?_
    rw [List.length_append, List.length_singleton, Nat.add_assoc, Nat.add_comm 1 i]
    exact hR (i + 1) (Nat.succ_lt_succ hi)

end Colama.Lib

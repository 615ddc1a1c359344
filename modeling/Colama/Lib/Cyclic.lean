import Mathlib.Tactic
import Mathlib.Data.Nat.ModEq

namespace Colama.Lib

/-- The place of the `k`-th entry of a cyclic array of `c` entries that begins at `a`. -/
def slot (c a k : Nat) : Nat := (a + k) % c

theorem slot_lt {c : Nat} (a k : Nat) (hc : 0 < c) : slot c a k < c := Nat.mod_lt _ hc

theorem slot_inj {c a k k' : Nat} (hk : k < c) (hk' : k' < c) (h : slot c a k = slot c a k') : k = k' := by
  have hmod : k ≡ k' [MOD c] := Nat.ModEq.add_left_cancel' a h
  rwa [Nat.ModEq, Nat.mod_eq_of_lt hk, Nat.mod_eq_of_lt hk'] at hmod

/-- The array seen from its `r`-th entry. -/
theorem slot_slot (c a r k : Nat) : slot c (slot c a r) k = slot c a (r + k) := by
  simp only [slot, Nat.mod_add_mod, Nat.add_assoc]

theorem slot_add_self (c a k : Nat) : slot c a (k + c) = slot c a k := by
  rw [slot, ← Nat.add_assoc, Nat.add_mod_right, slot]

@[simp] theorem slot_zero_left {c k : Nat} (hk : k < c) : slot c 0 k = k := by
  rw [slot, Nat.zero_add, Nat.mod_eq_of_lt hk]

/-- Going back `d` places, around the end of the array if need be. -/
theorem slot_sub {c a k d : Nat} (hc : 0 < c) (hd : d ≤ k) (hk : k < c) :
    (if d ≤ slot c a k then slot c a k - d else c + slot c a k - d) = slot c a (k - d) := by
  have hs := slot_lt a (k - d) hc
  have hk' : slot c a k = (slot c a (k - d) + d) % c := by
    rw [slot, slot, Nat.mod_add_mod]
    congr 1
    omega
  by_cases hwrap : slot c a (k - d) + d < c
  · rw [Nat.mod_eq_of_lt hwrap] at hk'
    rw [hk', if_pos (Nat.le_add_left _ _), Nat.add_sub_cancel]
  · rw [Nat.mod_eq_sub_mod (by omega), Nat.mod_eq_of_lt (by omega)] at hk'
    rw [if_neg (by omega)]
    omega

end Colama.Lib

import Mathlib.Data.Nat.Bitwise
import Mathlib.Tactic

/-! Numbers as bits, the highest one first. -/

namespace Colama.Lib

/-- The lowest `len` bits of `v`, the highest of them first. -/
def bits (len v : Nat) : List Bool := (List.range len).map fun i => v.testBit (len - 1 - i)

section

variable {len a b v v' : Nat}

@[simp] theorem length_bits : (bits len v).length = len := by
  rw [bits, List.length_map, List.length_range]

@[simp] theorem bits_zero : bits 0 v = [] := rfl

theorem getElem_bits (i : Nat) (h : i < (bits len v).length) : (bits len v)[i] = v.testBit (len - 1 - i) := by
  simp [bits]

/-- Only the lowest bits count. -/
theorem bits_congr (h : ∀ i < len, v.testBit i = v'.testBit i) : bits len v = bits len v' := by
  apply List.ext_getElem
  · rw [length_bits, length_bits]
  · intro i hi hi'
    rw [length_bits] at hi
    rw [getElem_bits, getElem_bits, h _ (by omega)]

theorem bits_injective (h : bits len v = bits len v') {i : Nat} (hi : i < len) : v.testBit i = v'.testBit i := by
  have hlt : len - 1 - i < (bits len v).length := by
    rw [length_bits]
    omega
  have hlt' : len - 1 - i < (bits len v').length := h ▸ hlt
  have hget : (bits len v)[len - 1 - i] = (bits len v')[len - 1 - i] := by simp only [h]
  rw [getElem_bits, getElem_bits] at hget
  rwa [show len - 1 - (len - 1 - i) = i by omega] at hget

theorem eq_of_bits (h : bits len v = bits len v') (hv : v < 2 ^ len) (hv' : v' < 2 ^ len) : v = v' := by
  apply Nat.eq_of_testBit_eq
  intro i
  by_cases hi : i < len
  · exact bits_injective h hi
  · have hle : 2 ^ len ≤ 2 ^ i := Nat.pow_le_pow_right (by decide) (by omega)
    rw [Nat.testBit_lt_two_pow (by omega), Nat.testBit_lt_two_pow (by omega)]

/-- The bits of a number come in two parts. -/
theorem bits_add : bits (a + b) v = bits a (v >>> b) ++ bits b v := by
  apply List.ext_getElem
  · simp
  · intro i hi hi'
    rw [length_bits] at hi
    rw [List.getElem_append]
    split
    · rename_i ha
      rw [length_bits] at ha
      rw [getElem_bits, getElem_bits, Nat.testBit_shiftRight]
      congr 1
      omega
    · rename_i ha
      rw [length_bits] at ha
      rw [getElem_bits, getElem_bits, length_bits]
      congr 1
      omega

theorem bits_split (h : len = a + b) : bits len v = bits a (v >>> b) ++ bits b v := h ▸ bits_add

theorem bits_ones (h : len ≤ a) : bits len (2 ^ a - 1) = List.replicate len true := by
  apply List.ext_getElem
  · rw [length_bits, List.length_replicate]
  · intro i hi hi'
    rw [length_bits] at hi
    rw [getElem_bits, List.getElem_replicate, Nat.testBit_two_pow_sub_one, decide_eq_true (by omega)]

theorem take_bits (h : a ≤ len) : (bits len v).take a = bits a (v >>> (len - a)) := by
  obtain ⟨b, rfl⟩ := Nat.exists_eq_add_of_le h
  rw [bits_add, List.take_left' length_bits, Nat.add_sub_cancel_left]

theorem drop_bits (h : a ≤ len) : (bits len v).drop a = bits (len - a) v := by
  obtain ⟨b, rfl⟩ := Nat.exists_eq_add_of_le h
  rw [bits_add, List.drop_left' length_bits, Nat.add_sub_cancel_left]

end

/-- How many ones a sequence of bits starts with. -/
def leadingOnes (l : List Bool) : Nat := (l.takeWhile id).length

section

variable {l l' : List Bool} {n : Nat}

@[simp] theorem leadingOnes_nil : leadingOnes [] = 0 := rfl

@[simp] theorem leadingOnes_false : leadingOnes (false :: l) = 0 := rfl

@[simp] theorem leadingOnes_true : leadingOnes (true :: l) = leadingOnes l + 1 := rfl

theorem leadingOnes_replicate_append : leadingOnes (List.replicate n true ++ l) = n + leadingOnes l := by
  induction n with
  | zero => simp
  | succ n ih =>
    rw [List.replicate_succ, List.cons_append, leadingOnes_true, ih]
    omega

theorem leadingOnes_take : leadingOnes (l.take n) = min n (leadingOnes l) := by
  induction l generalizing n with
  | nil => simp
  | cons b l ih =>
    match n, b with
    | 0, b => simp
    | n + 1, false => simp
    | n + 1, true => simp [ih]

theorem leadingOnes_drop (h : n ≤ leadingOnes l) : leadingOnes (l.drop n) = leadingOnes l - n := by
  induction l generalizing n with
  | nil => simp
  | cons b l ih =>
    match n, b with
    | 0, b => simp
    | n + 1, false => exact absurd h (by simp)
    | n + 1, true =>
      rw [leadingOnes_true] at h
      rw [List.drop_succ_cons, ih (by omega), leadingOnes_true]
      omega

end

end Colama.Lib

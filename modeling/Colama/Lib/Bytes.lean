import Mathlib.Tactic

namespace Colama.Lib

/-- The bytes of a number, the lowest first. -/
@[grind] def leBytes : Nat → Nat → List UInt8
  | 0, _ => []
  | size + 1, n => UInt8.ofNat n :: leBytes size (n / 256)

@[grind] def ofLeBytes : List UInt8 → Nat
  | [] => 0
  | b :: bs => b.toNat + 256 * ofLeBytes bs

/-- The first `n` bytes of the input and the rest of it. -/
def readBytes (n : Nat) (input : List UInt8) : Option (List UInt8 × List UInt8) :=
  if n ≤ input.length then some (input.take n, input.drop n) else none

def beBytes (size n : Nat) : List UInt8 := (leBytes size n).reverse

def ofBeBytes (bs : List UInt8) : Nat := ofLeBytes bs.reverse

/-- An array of `n` numbers of the size, the highest byte of each first. -/
def beArray (size n : Nat) (entry : Nat → Nat) : List UInt8 := (List.range n).flatMap fun i => beBytes size (entry i)

/-- The entry of an array of numbers of the size. -/
def beEntry (size : Nat) (bs : List UInt8) (i : Nat) : Nat := ofBeBytes ((bs.drop (size * i)).take size)

/-- The number of the size that the bytes have at the offset. -/
def beField (bs : List UInt8) (off size : Nat) : Nat := ofBeBytes ((bs.drop off).take size)

@[simp] theorem length_leBytes (size n : Nat) : (leBytes size n).length = size := by
  induction size generalizing n with
  | zero => rfl
  | succ size ih => rw [leBytes, List.length_cons, ih]

theorem ofLeBytes_leBytes (size n : Nat) : ofLeBytes (leBytes size n) = n % 256 ^ size := by
  induction size generalizing n with
  | zero => simp [leBytes, ofLeBytes, Nat.mod_one]
  | succ size ih =>
    have hpow : 256 ^ (size + 1) = 256 * 256 ^ size := Nat.pow_succ'
    rw [leBytes, ofLeBytes, ih, UInt8.toNat_ofNat', hpow]
    exact Nat.mod_mul.symm

theorem ofLeBytes_lt (bs : List UInt8) : ofLeBytes bs < 256 ^ bs.length := by
  induction bs with
  | nil => exact Nat.one_pos
  | cons b bs ih =>
    have hb := b.toNat_lt
    rw [ofLeBytes, List.length_cons, Nat.pow_succ']
    omega

theorem leBytes_ofLeBytes (bs : List UInt8) : leBytes bs.length (ofLeBytes bs) = bs := by
  induction bs with
  | nil => rfl
  | cons b bs ih =>
    have hb := b.toNat_lt
    have hdiv : (b.toNat + 256 * ofLeBytes bs) / 256 = ofLeBytes bs := by omega
    have hmod : UInt8.ofNat (b.toNat + 256 * ofLeBytes bs) = b := by
      apply UInt8.toNat_inj.mp
      rw [UInt8.toNat_ofNat']
      omega
    rw [List.length_cons, leBytes, ofLeBytes, hdiv, ih, hmod]

@[simp] theorem length_beBytes (size n : Nat) : (beBytes size n).length = size := by
  rw [beBytes, List.length_reverse, length_leBytes]

theorem ofBeBytes_beBytes {size n : Nat} (h : n < 256 ^ size) : ofBeBytes (beBytes size n) = n := by
  rw [ofBeBytes, beBytes, List.reverse_reverse, ofLeBytes_leBytes, Nat.mod_eq_of_lt h]

theorem ofBeBytes_lt (bs : List UInt8) : ofBeBytes bs < 256 ^ bs.length := by
  have hlt := ofLeBytes_lt bs.reverse
  rwa [List.length_reverse] at hlt

theorem beField_lt (bs : List UInt8) (off size : Nat) : beField bs off size < 256 ^ size := by
  refine (ofBeBytes_lt _).trans_le (Nat.pow_le_pow_right (by norm_num) ?_)
  rw [List.length_take]
  exact Nat.min_le_left _ _

theorem beField_take {bs : List UInt8} {off size n : Nat} (h : off + size ≤ n) :
    beField (bs.take n) off size = beField bs off size := by
  rw [beField, beField, List.drop_take, List.take_take, Nat.min_eq_left (by omega)]

theorem beField_zero {size n : Nat} (h : n < 256 ^ size) (rest : List UInt8) :
    beField (beBytes size n ++ rest) 0 size = n := by
  rw [beField, List.drop_zero, List.take_left' (length_beBytes size n), ofBeBytes_beBytes h]

@[simp] theorem length_beArray (size n : Nat) (entry : Nat → Nat) : (beArray size n entry).length = size * n := by
  induction n with
  | zero => rfl
  | succ n ih =>
    rw [beArray, List.range_succ, List.flatMap_append, List.length_append, ← beArray, ih]
    simp [Nat.mul_add]

/-- A part of an array is the array of its entries. -/
theorem beArray_part (size : Nat) (entry : Nat → Nat) {i n m : Nat} (h : i + n ≤ m) :
    ((beArray size m entry).drop (size * i)).take (size * n) = beArray size n fun k => entry (i + k) := by
  obtain ⟨rest, rfl⟩ := Nat.exists_eq_add_of_le h
  have hsplit : beArray size (i + n + rest) entry =
      beArray size i entry ++ (beArray size n fun k => entry (i + k)) ++ beArray size rest fun k => entry (i + n + k) := by
    simp only [beArray, List.range_add, List.flatMap_append, List.flatMap_map]
  rw [hsplit, List.append_assoc, List.drop_left' (length_beArray ..), List.take_left' (length_beArray ..)]

theorem beEntry_beArray {size n : Nat} {entry : Nat → Nat} {i : Nat} (hi : i < n) (h : entry i < 256 ^ size) :
    beEntry size (beArray size n entry) i = entry i := by
  have hpart := beArray_part size entry (i := i) (n := 1) (m := n) hi
  have hone : beArray size 1 (fun k => entry (i + k)) = beBytes size (entry i) := by simp [beArray, List.range_succ]
  rw [Nat.mul_one, hone] at hpart
  rw [beEntry, hpart, ofBeBytes_beBytes h]

theorem ofBeBytes_zeros (n : Nat) : ofBeBytes (List.replicate n 0) = 0 := by
  rw [ofBeBytes, List.reverse_replicate]
  induction n with
  | zero => rfl
  | succ n ih => rw [List.replicate_succ, ofLeBytes, ih]; rfl

theorem beEntry_zeros (size n i : Nat) : beEntry size (List.replicate n 0) i = 0 := by
  rw [beEntry, List.drop_replicate, List.take_replicate, ofBeBytes_zeros]

theorem readBytes_append {n : Nat} {bs : List UInt8} (h : bs.length = n) (rest : List UInt8) :
    readBytes n (bs ++ rest) = some (bs, rest) := by
  rw [readBytes, if_pos (by rw [List.length_append]; omega), List.take_left' h, List.drop_left' h]

end Colama.Lib

import Mathlib.Tactic
import Mathlib.Logic.Function.Basic

namespace Colama.Lib

/-- Memory made of separate blocks. -/
abbrev Memory (ι : Type*) := ι → Nat → UInt8

structure Loc (ι : Type*) where
  block : ι
  off : Nat
  deriving DecidableEq

namespace Memory

variable {ι : Type*}

@[grind] def readFrom (m : Nat → UInt8) (off : Nat) : Nat → List UInt8
  | 0 => []
  | n + 1 => m off :: readFrom m (off + 1) n

/-- The `len` bytes at `p`. -/
def read (mem : Memory ι) (p : Loc ι) (len : Nat) : List UInt8 := readFrom (mem p.block) p.off len

@[grind] def writeFrom (m : Nat → UInt8) (off : Nat) : List UInt8 → Nat → UInt8
  | [] => m
  | b :: bs => Function.update (writeFrom m (off + 1) bs) off b

/-- The memory after `bytes` are stored at `p`. -/
def write [DecidableEq ι] (mem : Memory ι) (p : Loc ι) (bytes : List UInt8) : Memory ι :=
  Function.update mem p.block (writeFrom (mem p.block) p.off bytes)

@[simp] theorem length_readFrom (m : Nat → UInt8) (off len : Nat) : (readFrom m off len).length = len := by
  induction len generalizing off with
  | zero => rfl
  | succ n ih => rw [readFrom, List.length_cons, ih]

@[simp] theorem length_read (mem : Memory ι) (p : Loc ι) (len : Nat) : (read mem p len).length = len :=
  length_readFrom _ _ _

theorem readFrom_add (m : Nat → UInt8) (off a b : Nat) :
    readFrom m off (a + b) = readFrom m off a ++ readFrom m (off + a) b := by
  induction a generalizing off with
  | zero => rw [Nat.zero_add, readFrom, List.nil_append, Nat.add_zero]
  | succ a ih => rw [Nat.succ_add, readFrom, readFrom, ih, List.cons_append, Nat.add_right_comm, Nat.add_assoc]

theorem read_add (mem : Memory ι) (p : Loc ι) (a b : Nat) :
    read mem p (a + b) = read mem p a ++ read mem ⟨p.block, p.off + a⟩ b :=
  readFrom_add _ _ _ _

theorem take_readFrom (m : Nat → UInt8) (off : Nat) {k n : Nat} (h : k ≤ n) :
    (readFrom m off n).take k = readFrom m off k := by
  obtain ⟨r, rfl⟩ := Nat.exists_eq_add_of_le h
  rw [readFrom_add, List.take_left' (length_readFrom ..)]

theorem drop_readFrom (m : Nat → UInt8) (off : Nat) {k n : Nat} (h : k ≤ n) :
    (readFrom m off n).drop k = readFrom m (off + k) (n - k) := by
  obtain ⟨r, rfl⟩ := Nat.exists_eq_add_of_le h
  rw [readFrom_add, List.drop_left' (length_readFrom ..), Nat.add_sub_cancel_left]

/-- Reading from the middle of a range drops its beginning. -/
theorem read_drop (mem : Memory ι) (p : Loc ι) {skip len : Nat} (h : skip ≤ len) :
    read mem ⟨p.block, p.off + skip⟩ (len - skip) = (read mem p len).drop skip := by
  obtain ⟨k, rfl⟩ := Nat.exists_eq_add_of_le h
  rw [read_add, Nat.add_sub_cancel_left, List.drop_append, length_read, Nat.sub_self, List.drop_zero,
    List.drop_of_length_le (le_of_eq (length_read ..)), List.nil_append]

theorem readFrom_congr {m m' : Nat → UInt8} {off len : Nat}
    (h : ∀ i, off ≤ i → i < off + len → m i = m' i) : readFrom m off len = readFrom m' off len := by
  induction len generalizing off with
  | zero => rfl
  | succ n ih =>
    rw [readFrom, readFrom, h off le_rfl (by omega), ih fun i h₁ h₂ => h i (by omega) (by omega)]

theorem readFrom_congr_add {m m' : Nat → UInt8} {p q len : Nat} (h : ∀ i < len, m (p + i) = m' (q + i)) :
    readFrom m p len = readFrom m' q len := by
  induction len generalizing p q with
  | zero => rfl
  | succ n ih =>
    have hhead := h 0 (Nat.succ_pos n)
    have htail : readFrom m (p + 1) n = readFrom m' (q + 1) n := by
      apply ih
      intro i hi
      rw [Nat.add_assoc, Nat.add_assoc]
      exact h (1 + i) (by omega)
    rw [readFrom, readFrom, htail]
    exact congrArg (· :: _) hhead

theorem writeFrom_of_lt (m : Nat → UInt8) {off i : Nat} (bs : List UInt8) (h : i < off) :
    writeFrom m off bs i = m i := by
  induction bs generalizing off with
  | nil => rfl
  | cons b bs ih => rw [writeFrom, Function.update_of_ne (by omega), ih (by omega)]

theorem writeFrom_of_ge (m : Nat → UInt8) {off i : Nat} (bs : List UInt8) (h : off + bs.length ≤ i) :
    writeFrom m off bs i = m i := by
  induction bs generalizing off with
  | nil => rfl
  | cons b bs ih =>
    rw [List.length_cons] at h
    rw [writeFrom, Function.update_of_ne (by omega), ih (by omega)]

theorem readFrom_writeFrom (m : Nat → UInt8) (off : Nat) (bs : List UInt8) :
    readFrom (writeFrom m off bs) off bs.length = bs := by
  induction bs generalizing off with
  | nil => rfl
  | cons b bs ih =>
    have htail : readFrom (writeFrom m off (b :: bs)) (off + 1) bs.length =
        readFrom (writeFrom m (off + 1) bs) (off + 1) bs.length :=
      readFrom_congr fun i h _ => Function.update_of_ne (by omega) _ _
    rw [List.length_cons, readFrom, htail, ih, writeFrom, Function.update_self]

theorem getElem?_readFrom (m : Nat → UInt8) (off n k : Nat) :
    (readFrom m off n)[k]? = if k < n then some (m (off + k)) else none := by
  induction n generalizing off k with
  | zero => simp [readFrom]
  | succ n ih =>
    cases k with
    | zero => simp [readFrom]
    | succ k => simp [readFrom, ih, Nat.add_comm 1, Nat.add_assoc]

theorem writeFrom_apply (m : Nat → UInt8) (off : Nat) (bs : List UInt8) (i : Nat) :
    writeFrom m off bs i = if off ≤ i then (bs[i - off]?).getD (m i) else m i := by
  induction bs generalizing off with
  | nil => simp [writeFrom]
  | cons b bs ih =>
    by_cases hi : i = off
    · subst hi
      simp [writeFrom]
    · rw [writeFrom, Function.update_of_ne hi, ih]
      by_cases hlt : off + 1 ≤ i
      · have hsub : i - off = i - (off + 1) + 1 := by omega
        rw [if_pos hlt, if_pos (by omega), hsub, List.getElem?_cons_succ]
      · rw [if_neg hlt, if_neg (by omega)]

theorem writeFrom_writeFrom (m : Nat → UInt8) (off : Nat) (as bs : List UInt8) :
    writeFrom (writeFrom m off as) (off + as.length) bs = writeFrom m off (as ++ bs) := by
  funext i
  simp only [writeFrom_apply, List.getElem?_append]
  by_cases h₁ : off + as.length ≤ i
  · have hlt : ¬ i - off < as.length := by omega
    have hsub : i - (off + as.length) = i - off - as.length := by omega
    have hnone : as[i - off]? = none := List.getElem?_eq_none (by omega)
    rw [if_pos h₁, if_pos (by omega), if_pos (by omega), if_neg hlt, hsub, hnone, Option.getD_none]
  · rw [if_neg h₁]
    by_cases h₂ : off ≤ i
    · rw [if_pos h₂, if_pos h₂, if_pos (by omega)]
    · rw [if_neg h₂, if_neg h₂]

/-- What is read from a block, changed in the middle and written back changes the middle of the block. -/
theorem writeFrom_splice (m : Nat → UInt8) (p : Nat) {n o : Nat} {bs : List UInt8} (h : o + bs.length ≤ n) :
    writeFrom m p ((readFrom m p n).take o ++ bs ++ (readFrom m p n).drop (o + bs.length)) = writeFrom m (p + o) bs := by
  funext i
  simp only [writeFrom_apply, List.getElem?_append, List.length_append, List.length_take, length_readFrom,
    List.getElem?_take, List.getElem?_drop, getElem?_readFrom]
  grind
/-- The two ranges have no byte in common. -/
def Disjoint (p : Loc ι) (a : Nat) (q : Loc ι) (b : Nat) : Prop :=
  p.block = q.block → p.off + a ≤ q.off ∨ q.off + b ≤ p.off

theorem Disjoint.symm {p q : Loc ι} {a b : Nat} (h : Disjoint p a q b) : Disjoint q b p a :=
  fun he => (h he.symm).symm

variable [DecidableEq ι]

@[simp] theorem read_write (mem : Memory ι) (p : Loc ι) (bs : List UInt8) :
    read (write mem p bs) p bs.length = bs := by
  rw [read, write, Function.update_self, readFrom_writeFrom]

theorem read_write_of_disjoint (mem : Memory ι) {p q : Loc ι} {bs : List UInt8} {len : Nat}
    (h : Disjoint p bs.length q len) : read (write mem p bs) q len = read mem q len := by
  rw [read, read, write]
  by_cases he : p.block = q.block
  · rw [← he, Function.update_self]
    refine readFrom_congr fun i h₁ h₂ => ?_
    obtain hd | hd := h he
    · exact writeFrom_of_ge _ _ (by omega)
    · exact writeFrom_of_lt _ _ (by omega)
  · rw [Function.update_of_ne (Ne.symm he)]

/-- Several stores, one after the other. -/
def writeAll (mem : Memory ι) (ws : List (Loc ι × List UInt8)) : Memory ι :=
  ws.foldl (fun mem w => mem.write w.1 w.2) mem

theorem read_writeAll_of_disjoint (mem : Memory ι) {ws : List (Loc ι × List UInt8)} {q : Loc ι}
    {len : Nat} (h : ∀ w ∈ ws, Disjoint w.1 w.2.length q len) :
    read (writeAll mem ws) q len = read mem q len := by
  induction ws generalizing mem with
  | nil => rfl
  | cons w ws ih =>
    rw [writeAll, List.foldl_cons]
    exact (ih _ fun x hx => h x (.tail _ hx)).trans (read_write_of_disjoint mem (h w (.head _)))

/-- Stores to separate ranges can all be read back. -/
theorem read_writeAll (mem : Memory ι) {ws : List (Loc ι × List UInt8)}
    (h : ws.Pairwise fun w w' => Disjoint w.1 w.2.length w'.1 w'.2.length) {w : Loc ι × List UInt8}
    (hw : w ∈ ws) : read (writeAll mem ws) w.1 w.2.length = w.2 := by
  induction ws generalizing mem with
  | nil => cases hw
  | cons x ws ih =>
    obtain ⟨hx, hws⟩ := List.pairwise_cons.mp h
    rw [writeAll, List.foldl_cons]
    obtain rfl | hw := List.mem_cons.mp hw
    · exact (read_writeAll_of_disjoint _ fun y hy => (hx y hy).symm).trans (read_write mem w.1 w.2)
    · exact ih _ hws hw

end Memory

/-- The low `w` bytes of `n`, least significant byte first. -/
def littleEndian (n : Nat) : Nat → List UInt8
  | 0 => []
  | w + 1 => .ofNat (n % 256) :: littleEndian (n / 256) w

@[simp] theorem length_littleEndian (n w : Nat) : (littleEndian n w).length = w := by
  induction w generalizing n with
  | zero => rfl
  | succ w ih => rw [littleEndian, List.length_cons, ih]

/-- The number that bytes stand for, least significant byte first. -/
def ofLittleEndian : List UInt8 → Nat
  | [] => 0
  | b :: bs => b.toNat + 256 * ofLittleEndian bs

theorem ofLittleEndian_littleEndian (n w : Nat) : ofLittleEndian (littleEndian n w) = n % 256 ^ w := by
  induction w generalizing n with
  | zero => rw [littleEndian, ofLittleEndian, Nat.pow_zero, Nat.mod_one]
  | succ w ih =>
    rw [littleEndian, ofLittleEndian, ih, Nat.pow_succ', Nat.mod_mul, UInt8.toNat_ofNat',
      Nat.mod_mod]

end Colama.Lib

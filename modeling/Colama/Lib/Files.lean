import Colama.Lib.Memory

namespace Colama.Lib

/-- A file, with a byte for each place. What is past its end reads as zeros. -/
structure File where
  length : Nat
  bytes : Nat → UInt8
  past : ∀ i, length ≤ i → bytes i = 0

namespace File

def empty : File := ⟨0, fun _ => 0, fun _ _ => rfl⟩

def read (f : File) (off n : Nat) : List UInt8 := Memory.readFrom f.bytes off n

/-- The file after the bytes are written at the offset. What lies between its end and the offset becomes a
hole, and to write nothing leaves the file as it is. -/
def write (f : File) (off : Nat) (bs : List UInt8) : File where
  length := if bs = [] then f.length else max f.length (off + bs.length)
  bytes := Memory.writeFrom f.bytes off bs
  past := fun i h => by
    split at h
    · rename_i hbs
      rw [hbs]
      exact f.past i h
    · rw [Memory.writeFrom_of_ge _ _ (by omega)]
      exact f.past i (by omega)

variable {f : File} {off off' n : Nat} {bs : List UInt8}

@[simp] theorem length_read : (f.read off n).length = n := Memory.length_readFrom _ _ _

theorem length_write (h : f.length ≤ off) (hbs : bs ≠ []) : (f.write off bs).length = off + bs.length := by
  rw [write]
  simp only [hbs, if_false]
  omega

theorem length_write_le {top : Nat} (hf : f.length ≤ top) (h : off + bs.length ≤ top) : (f.write off bs).length ≤ top := by
  rw [write]
  dsimp only
  split <;> omega

@[simp] theorem read_write : (f.write off bs).read off bs.length = bs := Memory.readFrom_writeFrom _ _ _

theorem read_write_of_le (h : off' + n ≤ off) : (f.write off bs).read off' n = f.read off' n :=
  Memory.readFrom_congr fun i _ hi => Memory.writeFrom_of_lt _ _ (by omega)

theorem read_write_of_ge (h : off + bs.length ≤ off') : (f.write off bs).read off' n = f.read off' n :=
  Memory.readFrom_congr fun i hi _ => Memory.writeFrom_of_ge _ _ (by omega)

theorem read_add (a b : Nat) : f.read off (a + b) = f.read off a ++ f.read (off + a) b :=
  Memory.readFrom_add _ _ _ _

theorem read_add_left (a : Nat) : f.read (off + a) n = (f.read off (a + n)).drop a := by
  rw [read_add, List.drop_left' length_read]

/-- A part of what has been written. -/
theorem read_write_part {k : Nat} (h : k + n ≤ bs.length) :
    (f.write off bs).read (off + k) n = (bs.drop k).take n := by
  have hread := @read_add (f.write off bs) off (k + n) (bs.length - (k + n))
  rw [Nat.add_sub_cancel' h, read_write, read_add] at hread
  conv_rhs => rw [hread, List.append_assoc, List.drop_left' length_read, List.take_left' length_read]

theorem read_past (h : f.length ≤ off) : f.read off n = List.replicate n 0 := by
  induction n generalizing off with
  | zero => rfl
  | succ n ih =>
    rw [List.replicate_succ, ← @ih (off + 1) (by omega)]
    exact congrArg (· :: _) (f.past off h)

/-- What is read past the end of what has been written last is zeros. -/
theorem read_write_end (h : f.length ≤ off) (n : Nat) :
    (f.write off bs).read off n = (bs ++ List.replicate n 0).take n := by
  rcases Nat.lt_or_ge bs.length n with hlt | hle
  · obtain ⟨m, rfl⟩ := Nat.exists_eq_add_of_le hlt.le
    have hend : (f.write off bs).read (off + bs.length) m = List.replicate m 0 := by
      rw [read_write_of_ge le_rfl, read_past (by omega)]
    rw [read_add, read_write, hend, List.take_append, List.take_of_length_le (by omega), Nat.add_sub_cancel_left,
      List.take_replicate, Nat.min_eq_left (by omega)]
  · have hpart := @read_write_part f off n bs 0 (by omega)
    rw [Nat.add_zero, List.drop_zero] at hpart
    rw [hpart, List.take_append_of_le_length hle]

end File

end Colama.Lib

import Mathlib.Data.BitVec

namespace Colama.Lib

/-- A function on words that treats every bit on its own. -/
def Bitwise (f : BitVec w → BitVec w) : Prop :=
  ∀ d d' i, d.getLsbD i = d'.getLsbD i → (f d).getLsbD i = (f d').getLsbD i

namespace Bitwise

variable {f g : BitVec w → BitVec w}

theorem id : Bitwise (fun d : BitVec w => d) := fun _ _ _ h => h

theorem const (c : BitVec w) : Bitwise fun _ => c := fun _ _ _ _ => rfl

theorem comp (hf : Bitwise f) (hg : Bitwise g) : Bitwise fun d => f (g d) :=
  fun d d' i h => hf _ _ i (hg d d' i h)

theorem not (hf : Bitwise f) : Bitwise fun d => ~~~(f d) := by
  intro d d' i h
  simp only [BitVec.getLsbD_not, hf d d' i h]

theorem and (hf : Bitwise f) (hg : Bitwise g) : Bitwise fun d => f d &&& g d := by
  intro d d' i h
  simp only [BitVec.getLsbD_and, hf d d' i h, hg d d' i h]

theorem or (hf : Bitwise f) (hg : Bitwise g) : Bitwise fun d => f d ||| g d := by
  intro d d' i h
  simp only [BitVec.getLsbD_or, hf d d' i h, hg d d' i h]

theorem xor (hf : Bitwise f) (hg : Bitwise g) : Bitwise fun d => f d ^^^ g d := by
  intro d d' i h
  simp only [BitVec.getLsbD_xor, hf d d' i h, hg d d' i h]

theorem foldl (step : α → BitVec w → BitVec w) (l : List α) (h : ∀ a ∈ l, Bitwise (step a)) :
    Bitwise fun d => l.foldl (fun d a => step a d) d := by
  induction l with
  | nil => exact id
  | cons a l ih =>
    have hl : Bitwise fun d => l.foldl (fun d a => step a d) d :=
      ih fun b hb => h b (List.mem_cons_of_mem a hb)
    exact hl.comp (h a List.mem_cons_self)

theorem getLsbD (hf : Bitwise f) (d : BitVec w) (hi : i < w) :
    (f d).getLsbD i = if d.getLsbD i then (f (BitVec.allOnes w)).getLsbD i else (f 0).getLsbD i := by
  cases hd : d.getLsbD i with
  | true => exact hf d _ i (by simp [hd, hi])
  | false => exact hf d _ i (by simp [hd])

theorem ext (hf : Bitwise f) (hg : Bitwise g) (h0 : f 0 = g 0)
    (h1 : f (BitVec.allOnes w) = g (BitVec.allOnes w)) (d : BitVec w) : f d = g d := by
  apply BitVec.eq_of_getLsbD_eq
  intro i hi
  rw [hf.getLsbD d hi, hg.getLsbD d hi, h0, h1]

end Bitwise

/-- The bits of `a` are among those of `b`. -/
def Within (a b : BitVec w) : Prop := a &&& b = a

theorem within_iff {a b : BitVec w} : Within a b ↔ ∀ i, a.getLsbD i → b.getLsbD i := by
  constructor
  · intro h i ha
    rw [← h, BitVec.getLsbD_and, Bool.and_eq_true] at ha
    exact ha.2
  · intro h
    apply BitVec.eq_of_getLsbD_eq
    intro i _
    rw [BitVec.getLsbD_and]
    cases ha : a.getLsbD i with
    | true => simp [h i ha]
    | false => rfl

namespace Bitwise

variable {f g : BitVec w → BitVec w}

theorem involutive_eq_xor (hf : Bitwise f) (h : ∀ d, f (f d) = d) (d : BitVec w) : f d = f 0 ^^^ d := by
  refine hf.ext (xor (const (f 0)) id) (by simp) ?_ d
  apply BitVec.eq_of_getLsbD_eq
  intro i hi
  have h0 := congrArg (fun d => BitVec.getLsbD d i) (h 0)
  have h1 := congrArg (fun d => BitVec.getLsbD d i) (h (BitVec.allOnes w))
  simp only [hf.getLsbD (f _) hi] at h0 h1
  simp only [BitVec.getLsbD_xor, BitVec.getLsbD_allOnes, hi, decide_true, Bool.xor_true]
  revert h0 h1
  simp only [BitVec.getLsbD_allOnes, BitVec.getLsbD_zero, BitVec.ofNat_eq_ofNat, hi, decide_true]
  cases (f 0).getLsbD i <;> cases (f (BitVec.allOnes w)).getLsbD i <;> simp

/-- Two involutions undo each other exactly when they agree on the zero word. -/
theorem comp_involutive_iff (hf : Bitwise f) (hg : Bitwise g) (hff : ∀ d, f (f d) = d)
    (hgg : ∀ d, g (g d) = d) : (∀ d, f (g d) = d) ↔ f 0 = g 0 := by
  constructor
  · intro h
    calc f 0 = f (f (g 0)) := by rw [h]
      _ = g 0 := hff _
  · intro h d
    rw [hf.involutive_eq_xor hff, hg.involutive_eq_xor hgg, h, ← BitVec.xor_assoc, BitVec.xor_self,
      BitVec.zero_xor]

theorem eq_iff (hf : Bitwise f) (hg : Bitwise g) : (∀ d, f d = g d) ↔
    f 0 = g 0 ∧ f (BitVec.allOnes w) = g (BitVec.allOnes w) :=
  ⟨fun h => ⟨h 0, h _⟩, fun h => hf.ext hg h.1 h.2⟩

theorem eq_iff_bits (hf : Bitwise f) (hg : Bitwise g) : (∀ d, f d = g d) ↔ ∀ i < w,
    (f 0).getLsbD i = (g 0).getLsbD i ∧
      (f (BitVec.allOnes w)).getLsbD i = (g (BitVec.allOnes w)).getLsbD i := by
  rw [hf.eq_iff hg]
  constructor
  · rintro ⟨h0, h1⟩ i _
    exact ⟨by rw [h0], by rw [h1]⟩
  · intro h
    exact ⟨BitVec.eq_of_getLsbD_eq fun i hi => (h i hi).1, BitVec.eq_of_getLsbD_eq fun i hi => (h i hi).2⟩

/-- What an idempotent sets is set in `f 0`, what it clears is clear in `f` of all ones. -/
theorem comp_idempotent_iff (hf : Bitwise f) (hg : Bitwise g) (hff : ∀ d, f (f d) = f d)
    (hgg : ∀ d, g (g d) = g d) : (∀ d, f (g d) = g d) ↔
      Within (f 0) (g 0) ∧ Within (g (BitVec.allOnes w)) (f (BitVec.allOnes w)) := by
  have hf' := ((hf.comp hf).eq_iff_bits hf).mp hff
  have hg' := ((hg.comp hg).eq_iff_bits hg).mp hgg
  rw [(hf.comp hg).eq_iff_bits hg, within_iff, within_iff]
  -- bit by bit: each of the two is the identity or a constant
  have key : ∀ i < w, ((f (g 0)).getLsbD i = (g 0).getLsbD i ∧
      (f (g (BitVec.allOnes w))).getLsbD i = (g (BitVec.allOnes w)).getLsbD i) ↔
        ((f 0).getLsbD i → (g 0).getLsbD i) ∧
          ((g (BitVec.allOnes w)).getLsbD i → (f (BitVec.allOnes w)).getLsbD i) := by
    intro i hi
    have hfi := hf' i hi
    have hgi := hg' i hi
    simp only [hf.getLsbD (f _) hi] at hfi
    simp only [hg.getLsbD (g _) hi] at hgi
    simp only [hf.getLsbD (g _) hi]
    revert hfi hgi
    cases (f 0).getLsbD i <;> cases (f (BitVec.allOnes w)).getLsbD i <;> cases (g 0).getLsbD i <;>
      cases (g (BitVec.allOnes w)).getLsbD i <;> simp
  constructor
  · intro h
    refine ⟨fun i hi => ?_, fun i hi => ?_⟩
    · exact ((key i (BitVec.lt_of_getLsbD hi)).mp (h i (BitVec.lt_of_getLsbD hi))).1 hi
    · exact ((key i (BitVec.lt_of_getLsbD hi)).mp (h i (BitVec.lt_of_getLsbD hi))).2 hi
  · rintro ⟨h0, h1⟩ i hi
    exact (key i hi).mpr ⟨h0 i, h1 i⟩

end Bitwise

end Colama.Lib

import Colama.Lib.Runs
import Colama.Qemu.Qcow2.ImageSpec
import Colama.Qemu.Qcow2.Writes

namespace Colama.Qemu.Qcow2

open Lib

variable {α : Type*} {C : Image α}

theorem int32_of_lt {z : Int} (hlo : 0 ≤ z) (hhi : z < 2 ^ 31) : int32 z = z := by
  rw [int32, Int.bmod_eq_of_le] <;> omega

theorem uint32_of_lt {n : Nat} (h : n < 2 ^ 32) : uint32 n = n := by
  rw [uint32, Int.emod_eq_of_lt] <;> omega

theorem uint64_of_lt {n : Nat} (h : n < 2 ^ 64) : uint64 n = n := by
  rw [uint64, Int.emod_eq_of_lt] <;> omega

namespace Image

variable (C)

theorem offset_div (x : Nat) : x * 512 / C.clusterSize = x / C.clusterSectors := by
  rw [C.clusterSize_eq, Nat.mul_div_mul_right _ _ (by omega)]

/-- The clusters up to the given number of sectors, in full. -/
def clustersTo (nEnd : Nat) : Nat := (nEnd + (C.clusterSectors - 1)) / C.clusterSectors

theorem le_clustersTo (nEnd : Nat) : nEnd ≤ C.clustersTo nEnd * C.clusterSectors := by
  have hpos := C.clusterSectors_pos
  have hdiv := Nat.div_add_mod (nEnd + (C.clusterSectors - 1)) C.clusterSectors
  have hmod := Nat.mod_lt (nEnd + (C.clusterSectors - 1)) hpos
  rw [clustersTo, Nat.mul_comm]
  omega

theorem lt_of_lt_clustersTo {nEnd n : Nat} (h : n < C.clustersTo nEnd) : n * C.clusterSectors < nEnd := by
  have hpos := C.clusterSectors_pos
  rw [clustersTo, Nat.lt_iff_add_one_le, Nat.le_div_iff_mul_le hpos, Nat.add_mul] at h
  omega

theorem clustersTo_pos {nEnd : Nat} (h : 0 < nEnd) : 0 < C.clustersTo nEnd := by
  apply Nat.pos_of_ne_zero
  intro hz
  have hle := C.le_clustersTo nEnd
  rw [hz] at hle
  omega

end Image

theorem nbClustersTo_of_lt {nEnd : Nat} (h : nEnd * 512 < 2 ^ 31) : nbClustersTo C nEnd = C.clustersTo nEnd := by
  have hle := C.clusterSize_le
  have hpos := C.clusterSize_pos
  have hsum : (nEnd * 512 : Int) + (C.clusterSize - 1) = ((nEnd * 512 + (C.clusterSize - 1) : Nat) : Int) := by
    push_cast [Nat.cast_sub hpos]
    ring
  have hdiv : (nEnd * 512 + (C.clusterSize - 1)) / C.clusterSize = C.clustersTo nEnd := by
    rw [Image.clustersTo, C.clusterSize_eq]
    have hs := C.clusterSectors_pos
    have hn : nEnd * 512 + (C.clusterSectors * 512 - 1) = (nEnd + (C.clusterSectors - 1)) * 512 + 511 := by
      omega
    rw [hn, Nat.mul_comm C.clusterSectors, ← Nat.div_div_eq_div_mul]
    congr 1
    omega
  have hlt : (nEnd * 512 + (C.clusterSize - 1)) / C.clusterSize < 2 ^ 31 := by
    apply Nat.div_lt_of_lt_mul
    have hcs : 512 ≤ C.clusterSize := by
      rw [C.clusterSize_eq]
      have hs := C.clusterSectors_pos
      omega
    have hscale : 512 * 2 ^ 31 ≤ C.clusterSize * 2 ^ 31 := Nat.mul_le_mul_right _ hcs
    have hlast : C.clusterSize - 1 < 2 ^ 21 := by omega
    apply lt_of_lt_of_le (Nat.add_lt_add h hlast)
    exact le_trans (by norm_num) hscale
  have hcast : (2 : Int) ^ C.clusterBits = (C.clusterSize : Nat) := by
    simp [Image.clusterSize]
  rw [hdiv] at hlt
  have hshift : int32 (nEnd * 512) = nEnd * 512 := int32_of_lt (by omega) (by omega)
  have hcount : int32 (C.clustersTo nEnd) = C.clustersTo nEnd := int32_of_lt (by omega) (by omega)
  rw [nbClustersTo, hshift, hsum, hcast, ← Int.natCast_ediv, hdiv, hcount]
  exact uint32_of_lt (by omega)

section Counting

variable {entry : Nat → L2Entry}

def L2Entry.IsCopied : L2Entry → Prop
  | .standard true _ => True
  | _ => False

theorem countContiguousClusters_spec (entry : Nat → L2Entry) (a : Nat) : ∀ nb start,
    countContiguousClusters entry a nb start ≤ nb ∧
      ∀ i, start ≤ i → i < start + countContiguousClusters entry a nb start →
        (entry a).behind i (entry (a + i)) = true := by
  intro nb
  induction nb with
  | zero =>
    intro start
    exact ⟨le_rfl, fun i hlo hhi => by rw [countContiguousClusters] at hhi; omega⟩
  | succ nb ih =>
    intro start
    rw [countContiguousClusters]
    split_ifs with h
    · obtain ⟨hle, hall⟩ := ih (start + 1)
      apply And.intro (by omega)
      intro i hlo hhi
      by_cases hi : i = start
      · rwa [hi]
      · exact hall i (by omega) (by omega)
    · exact ⟨by omega, fun i hlo hhi => by omega⟩

theorem countContiguousClusters_pos (entry : Nat → L2Entry) {a nb : Nat} (hnb : 0 < nb) (ha : entry a ≠ .free) :
    0 < countContiguousClusters entry a nb 0 := by
  cases nb with
  | zero => omega
  | succ nb =>
    rw [countContiguousClusters, if_pos]
    · omega
    · cases h : entry a with
      | free => exact absurd h ha
      | standard copied c => simp [L2Entry.behind]
      | compressed coffset n => simp [L2Entry.behind]

theorem countContiguousFreeClusters_spec (entry : Nat → L2Entry) : ∀ nb a,
    countContiguousFreeClusters entry nb a ≤ nb ∧
      ∀ i < countContiguousFreeClusters entry nb a, entry (a + i) = .free := by
  intro nb
  induction nb with
  | zero =>
    intro a
    exact ⟨le_rfl, fun i hi => by rw [countContiguousFreeClusters] at hi; omega⟩
  | succ nb ih =>
    intro a
    rw [countContiguousFreeClusters]
    split_ifs with h
    · obtain ⟨hle, hall⟩ := ih (a + 1)
      apply And.intro (by omega)
      intro i hi
      cases i with
      | zero => exact h
      | succ i =>
        have hfree := hall i (by omega)
        rwa [Nat.add_right_comm] at hfree
    · exact ⟨by omega, fun i hi => by omega⟩

theorem countContiguousFreeClusters_pos {a nb : Nat} (hnb : 0 < nb) (ha : entry a = .free) :
    0 < countContiguousFreeClusters entry nb a := by
  cases nb with
  | zero => omega
  | succ nb =>
    rw [countContiguousFreeClusters, if_pos ha]
    omega

/-- An entry that lies behind one without the flag has no flag either. -/
theorem L2Entry.behind_copied {first e : L2Entry} {i : Nat} (h : first.behind i e = true)
    (hfirst : ¬ first.IsCopied) : ¬ e.IsCopied := by
  cases first with
  | free => simp [L2Entry.behind] at h
  | standard copied c =>
    rw [L2Entry.behind, beq_iff_eq] at h
    subst h
    cases copied with
    | true => exact absurd trivial hfirst
    | false => exact id
  | compressed coffset n =>
    rw [L2Entry.behind, Bool.and_eq_true, beq_iff_eq, beq_iff_eq] at h
    rw [h.2]
    exact id

theorem le_countAvailable (entry : Nat → L2Entry) (a nb : Nat) : ∀ fuel i,
    i ≤ countAvailable entry a nb fuel i := by
  intro fuel
  induction fuel with
  | zero =>
    intro i
    exact le_rfl
  | succ fuel ih =>
    intro i
    rw [countAvailable]
    split_ifs with hlt
    · simp only
      split_ifs with hstop hend
      · omega
      · omega
      · split
        · omega
        · omega
        · exact le_trans (by omega) (ih _)
    · exact le_rfl

/-- The available clusters lie within the bound, and none of them has the flag. -/
theorem countAvailable_spec {a nb : Nat} (ha : ¬ (entry a).IsCopied) : ∀ fuel i, i ≤ nb →
    (∀ j < i, ¬ (entry (a + j)).IsCopied) →
      countAvailable entry a nb fuel i ≤ nb ∧
        ∀ j < countAvailable entry a nb fuel i, ¬ (entry (a + j)).IsCopied := by
  intro fuel
  induction fuel with
  | zero =>
    intro i hi hall
    exact ⟨hi, hall⟩
  | succ fuel ih =>
    intro i hi hall
    rw [countAvailable]
    split_ifs with hlt
    swap
    · exact ⟨hi, hall⟩
    obtain ⟨hcle, hcall⟩ := countContiguousClusters_spec entry a (nb - i) i
    have hall₁ : ∀ j < i + countContiguousClusters entry a (nb - i) i, ¬ (entry (a + j)).IsCopied := by
      intro j hj
      by_cases hji : j < i
      · exact hall j hji
      · exact L2Entry.behind_copied (hcall j (by omega) hj) ha
    generalize countContiguousClusters entry a (nb - i) i = m at hcle hall₁ ⊢
    simp only
    obtain ⟨hfle, hfall⟩ := countContiguousFreeClusters_spec entry (nb - (i + m)) (a + (i + m))
    have hall₂ : ∀ j < i + m + countContiguousFreeClusters entry (nb - (i + m)) (a + (i + m)),
        ¬ (entry (a + j)).IsCopied := by
      intro j hj
      by_cases hji : j < i + m
      · exact hall₁ j hji
      · have hfree := hfall (j - (i + m)) (by omega)
        rw [show a + (i + m) + (j - (i + m)) = a + j by omega] at hfree
        rw [hfree]
        exact id
    generalize countContiguousFreeClusters entry (nb - (i + m)) (a + (i + m)) = f at hfle hall₂ ⊢
    split_ifs with hstop hend
    · exact ⟨by omega, hall₁⟩
    · exact ⟨by omega, hall₂⟩
    · split
      · exact ⟨by omega, hall₂⟩
      · exact ⟨by omega, hall₂⟩
      · exact ih (i + m + f) (by omega) hall₂

theorem countAvailable_pos (entry : Nat → L2Entry) {a nb : Nat} (hnb : 0 < nb) :
    0 < countAvailable entry a nb nb 0 := by
  obtain ⟨fuel, hfuel⟩ : ∃ fuel, nb = fuel + 1 := ⟨nb - 1, by omega⟩
  rw [hfuel, countAvailable, ← hfuel, if_pos hnb, Nat.sub_zero, Nat.zero_add]
  obtain ⟨hcle, hcall⟩ := countContiguousClusters_spec entry a nb 0
  obtain ⟨hfle, hfall⟩ := countContiguousFreeClusters_spec entry
    (nb - countContiguousClusters entry a nb 0) (a + countContiguousClusters entry a nb 0)
  simp only
  split_ifs with hstop hend
  · rcases hstop with hstop | hstop
    · omega
    · apply Nat.pos_of_ne_zero
      intro hz
      rw [hz, Nat.add_zero] at hstop
      have hpos := countContiguousClusters_pos entry hnb hstop
      omega
  · omega
  · have hpos : 0 < countContiguousClusters entry a nb 0 + countContiguousFreeClusters entry
        (nb - countContiguousClusters entry a nb 0) (a + countContiguousClusters entry a nb 0) := by
      apply Nat.add_pos_right
      apply countContiguousFreeClusters_pos (by omega)
      by_contra hne
      exact hstop (Or.inr hne)
    split
    · exact hpos
    · exact hpos
    · exact hpos.trans_le (le_countAvailable _ _ _ _ _)

end Counting

/-- The bytes of a write, counted from the start of its first cluster and in full clusters up to the end
of its L2 table, fit in an `int`. -/
def Image.Fits (C : Image α) (x len : Nat) : Prop :=
  C.nEnd x len * 512 < 2 ^ 31 ∧
    min (C.clustersTo (C.nEnd x len)) (C.l2Size - x / C.clusterSectors % C.l2Size) * C.clusterSize < 2 ^ 31

instance (C : Image α) (x len : Nat) : Decidable (C.Fits x len) := inferInstanceAs (Decidable (_ ∧ _))

/-- The guest's clusters that an allocation under way will map. -/
def QCowL2Meta.Maps (C : Image α) (m : QCowL2Meta) (b : Nat) : Prop :=
  m.offset / C.clusterSize ≤ b ∧ b < m.offset / C.clusterSize + m.nbClusters

/-- The test on closed intervals of unaligned offsets misses no common cluster. -/
theorem walkAllocs_spec (acb : Nat → QCowAIOCB α) (offset : Nat) (hoff : offset < 2 ^ 63) (l : List Nat)
    (hl : ∀ old ∈ l, (acb old).l2meta.offset < 2 ^ 63 ∧
      (acb old).l2meta.nbClusters * C.clusterSize < 2 ^ 31 ∧ 0 < (acb old).l2meta.nbClusters) :
    ∀ nb, nb * C.clusterSize < 2 ^ 31 →
      match walkAllocs C acb offset l nb with
      | .inl old => old ∈ l
      | .inr nb' => nb' ≤ nb ∧ (0 < nb → 0 < nb') ∧ ∀ old ∈ l, ∀ b, offset / C.clusterSize ≤ b →
          b < offset / C.clusterSize + nb' → ¬ (acb old).l2meta.Maps C b := by
  induction l with
  | nil =>
    intro nb hnb
    exact ⟨le_rfl, id, fun old hold => by cases hold⟩
  | cons old l ih =>
    intro nb hnb
    have ih := ih fun j hj => hl j (List.mem_cons_of_mem _ hj)
    obtain ⟨holdoff, holdnb, holdpos⟩ := hl old List.mem_cons_self
    have hpos := C.clusterSize_pos
    rw [walkAllocs]
    generalize hm : (acb old).l2meta = m at holdoff holdnb holdpos
    have hend : uint64 (offset + uint32 (nb * C.clusterSize)) = offset + nb * C.clusterSize := by
      have hsum : ((offset : Int) + (uint32 (nb * C.clusterSize) : Nat))
          = ((offset + nb * C.clusterSize : Nat) : Int) := by
        have hu := uint32_of_lt (n := nb * C.clusterSize) (by omega)
        push_cast at hu ⊢
        rw [hu]
        push_cast
        rfl
      rw [hsum]
      exact uint64_of_lt (by omega)
    have holdend : uint64 (m.offset + int32 (m.nbClusters * C.clusterSize))
        = m.offset + m.nbClusters * C.clusterSize := by
      have hi : int32 ((m.nbClusters : Int) * C.clusterSize) = ((m.nbClusters * C.clusterSize : Nat) : Int) := by
        rw [← Nat.cast_mul]
        exact int32_of_lt (by omega) (by omega)
      rw [hi, ← Nat.cast_add]
      exact uint64_of_lt (by omega)
    have hstart : offset / C.clusterSize * C.clusterSize ≤ offset := Nat.div_mul_le_self _ _
    have holdstart : m.offset / C.clusterSize * C.clusterSize ≤ m.offset := Nat.div_mul_le_self _ _
    simp only [hend, holdend]
    split_ifs with hsep hbefore hzero hzero
    · have hih := ih nb hnb
      cases hw : walkAllocs C acb offset l nb with
      | inl j =>
        rw [hw] at hih
        exact List.mem_cons_of_mem _ hih
      | inr nb' =>
        rw [hw] at hih
        refine ⟨hih.1, hih.2.1, fun j hj b hlo hhi => ?_⟩
        rcases List.mem_cons.mp hj with rfl | hj
        · rw [hm]
          rintro ⟨hblo, hbhi⟩
          rcases hsep with hsep | hsep
          · have hle : offset / C.clusterSize + nb ≤ m.offset / C.clusterSize := by
              rw [Nat.le_div_iff_mul_le hpos, Nat.add_mul]
              omega
            omega
          · have hle : m.offset / C.clusterSize + m.nbClusters ≤ offset / C.clusterSize := by
              rw [Nat.le_div_iff_mul_le hpos, Nat.add_mul]
              omega
            omega
        · exact hih.2.2 j hj b hlo hhi
    · exact List.mem_cons_self
    · have hdiv : (m.offset - offset) / C.clusterSize * C.clusterSize ≤ m.offset - offset :=
        Nat.div_mul_le_self _ _
      have hmod : (m.offset - offset) / C.clusterSize % 2 ^ 32 = (m.offset - offset) / C.clusterSize := by
        apply Nat.mod_eq_of_lt
        exact (Nat.div_le_self _ _).trans_lt (by omega)
      have hlenb : (m.offset - offset) / C.clusterSize ≤ nb := by
        rw [Nat.div_le_iff_le_mul_add_pred hpos, Nat.mul_comm]
        omega
      rw [hmod] at hzero ⊢
      have hih := ih ((m.offset - offset) / C.clusterSize) (by omega)
      cases hw : walkAllocs C acb offset l ((m.offset - offset) / C.clusterSize) with
      | inl j =>
        rw [hw] at hih
        exact List.mem_cons_of_mem _ hih
      | inr nb' =>
        rw [hw] at hih
        refine ⟨hih.1.trans hlenb, fun _ => hih.2.1 (Nat.pos_of_ne_zero hzero), fun j hj b hlo hhi => ?_⟩
        rcases List.mem_cons.mp hj with rfl | hj
        · rw [hm]
          rintro ⟨hblo, hbhi⟩
          have hle : offset / C.clusterSize + (m.offset - offset) / C.clusterSize ≤ m.offset / C.clusterSize := by
            rw [Nat.le_div_iff_mul_le hpos, Nat.add_mul]
            omega
          have hnb := hih.1
          omega
        · exact hih.2.2 j hj b hlo hhi
    · exact List.mem_cons_self
    · exact absurd rfl hzero

end Colama.Qemu.Qcow2

import Colama.Spice.Qxl.Path

namespace Colama.Spice.Qxl

open Memslots DataChunks Lib Lib.Memory

/-- Where the segments start that a loop comes by from an offset on, and their counts. -/
inductive Segs (data : Nat → UInt8) (size : Nat) : Nat → List (Nat × UInt32) → Prop
  | done {start : Nat} (h : size ≤ start) : Segs data size start []
  | seg {start : Nat} {l : List (Nat × UInt32)} (h : start < size)
    (hl : Segs data size (nextSeg start (u32At data (start + 4))) l) :
    Segs data size start ((start, u32At data (start + 4)) :: l)

/-- The count passes the `ASSERT`s that do not depend on the other segments. -/
def Accepted (count : UInt32) : Prop := 0 < count.toNat ∧ count.toNat < (2 ^ 32 - 1) / 8

def pathMemSize (l : List (Nat × UInt32)) : Nat := (l.map fun s => 16 + 8 * s.2.toNat).sum

/-- The segment with its points ends inside the data. -/
def Inside (size : Nat) (s : Nat × UInt32) : Prop := nextSeg s.1 s.2 ≤ size

structure PathFits (canAlloc : UInt64 → Bool) (size : Nat) (l : List (Nat × UInt32)) : Prop where
  number : l.length < 2 ^ 31
  headers : ∀ s ∈ l, s.1 + 8 ≤ size
  points : canAlloc (UInt64.ofNat (8 + pathMemSize l)) → (∀ s ∈ l, Accepted s.2) → ∀ s ∈ l, Inside size s

/-- The memory at an allocation after the writes to it. -/
def memoryAfter (m : Nat → UInt8) (writes : List (Nat × List UInt8)) : Nat → UInt8 :=
  writes.foldl (fun m w => writeFrom m w.1 w.2) m

structure PathSafe (red : UInt64) (data : Nat → UInt8) (size : Nat) (run : PathRun PathAlloc) : Prop where
  defined : run.outcome ≠ .error .overflow
  reads : ∀ r ∈ run.reads, r.1 + r.2 ≤ size
  covered : ∀ a, run.outcome = .ok a → ∀ w ∈ a.writes, w.1 + w.2.length ≤ a.memSize.toNat
  listed : ∀ a, run.outcome = .ok a → ∀ heap l, Segs data size 0 l →
    pathAt (memoryAfter heap a.writes) red = l.map fun s => segAt data s.1

section Segs

variable {data : Nat → UInt8} {size start : Nat} {l l' : List (Nat × UInt32)}

theorem lt_nextSeg (start : Nat) (count : UInt32) : start < nextSeg start count := by
  rw [nextSeg]
  omega

theorem exists_segs (data : Nat → UInt8) (size start : Nat) : ∃ l, Segs data size start l := by
  by_cases h : start < size
  · obtain ⟨l, hl⟩ := exists_segs data size (nextSeg start (u32At data (start + 4)))
    exact ⟨_, .seg h hl⟩
  · exact ⟨[], .done (Nat.le_of_not_lt h)⟩
termination_by size - start
decreasing_by
  have := lt_nextSeg start (u32At data (start + 4))
  omega

theorem Segs.unique (h : Segs data size start l) (h' : Segs data size start l') : l = l' := by
  induction h generalizing l' with
  | done h =>
    cases h' with
    | done => rfl
    | seg hlt => exact absurd hlt (Nat.not_lt.mpr h)
  | seg h _ ih =>
    cases h' with
    | done hge => exact absurd h (Nat.not_lt.mpr hge)
    | seg _ hl' => rw [ih hl']

theorem Segs.count_eq (h : Segs data size start l) : ∀ s ∈ l, s.2 = u32At data (s.1 + 4) := by
  induction h with
  | done => exact fun _ hs => absurd hs List.not_mem_nil
  | seg _ _ ih => exact List.forall_mem_cons.mpr ⟨rfl, ih⟩

theorem Segs.lt (h : Segs data size start l) : ∀ s ∈ l, s.1 < size := by
  induction h with
  | done => exact fun _ hs => absurd hs List.not_mem_nil
  | seg hlt _ ih => exact List.forall_mem_cons.mpr ⟨hlt, ih⟩

/-- A segment that another one follows ends inside the data. -/
theorem Segs.inside_of_ne_nil (hl : Segs data size start l) (h : l ≠ []) : start < size := by
  cases hl with
  | done => exact absurd rfl h
  | seg hlt => exact hlt

/-- The segments take up at most the data and what the last of them has behind it. -/
theorem Segs.sum_lt (h : Segs data size start l) (hle : start ≤ size + 2 ^ 35 + 8) :
    start + (l.map fun s => 8 + 8 * s.2.toNat).sum ≤ size + 2 ^ 35 + 8 := by
  induction h with
  | done => simpa using hle
  | @seg start l hlt _ ih =>
    have hc := (u32At data (start + 4)).toNat_lt
    have := ih (by rw [nextSeg]; omega)
    rw [nextSeg] at this
    rw [List.map_cons, List.sum_cons]
    dsimp only
    omega

theorem pathMemSize_eq (l : List (Nat × UInt32)) :
    pathMemSize l = 8 * l.length + (l.map fun s => 8 + 8 * s.2.toNat).sum := by
  induction l with
  | nil => rfl
  | cons s l ih =>
    rw [pathMemSize] at ih
    rw [pathMemSize, List.map_cons, List.sum_cons, ih, List.map_cons, List.sum_cons, List.length_cons]
    omega

theorem Segs.pathMemSize_lt (h : Segs data size 0 l) (hn : l.length < 2 ^ 31) (hs : size < 2 ^ 63) :
    8 + pathMemSize l < 2 ^ 64 := by
  have := h.sum_lt (by omega)
  rw [pathMemSize_eq]
  omega

end Segs

theorem and_not_three {k : Nat} (hk : k < 2 ^ 62) : (2 ^ 2 * k + 3) &&& (2 ^ 64 - 4) = 2 ^ 2 * k := by
  apply Nat.eq_of_testBit_eq
  intro j
  have hmask : (2 ^ 64 - 4 : Nat) = 2 ^ 2 * (2 ^ 62 - 1) + 0 := by decide
  rw [hmask, Nat.testBit_and, Nat.testBit_two_pow_mul_add _ (by decide), Nat.testBit_two_pow_mul_add _ (by decide),
    ← Nat.add_zero (2 ^ 2 * k), Nat.testBit_two_pow_mul_add _ (by decide)]
  split
  · rw [Nat.zero_testBit, Bool.and_false]
  · rw [Nat.testBit_two_pow_sub_one]
    by_cases hj : j - 2 < 62
    · rw [decide_eq_true hj, Bool.and_true]
    · rw [Nat.testBit_lt_two_pow (Nat.lt_of_lt_of_le hk (Nat.pow_le_pow_right (by decide) (Nat.le_of_not_lt hj))),
        Bool.false_and]

theorem spiceAlign_eq {a : UInt64} (h : a.toNat % 4 = 0) : spiceAlign a = a := by
  have ha := a.toNat_lt
  obtain ⟨k, hk⟩ := Nat.dvd_of_mod_eq_zero h
  have hadd : (a + 3).toNat = 2 ^ 2 * k + 3 := by
    rw [UInt64.toNat_add]
    simp only [UInt64.reduceToNat]
    omega
  have hmask : (~~~3 : UInt64).toNat = 2 ^ 64 - 4 := by decide
  rw [← UInt64.toNat_inj, spiceAlign, UInt64.toNat_and, hadd, hmask, and_not_three (by omega)]
  exact hk.symm

/-- The room for a segment is a multiple of 4 as it is. -/
theorem spiceAlign_seg (count : UInt32) :
    (8 + spiceAlign (8 + count.toUInt64 * 8)).toNat = 16 + 8 * count.toNat := by
  have hc := count.toNat_lt
  have hseg : (8 + count.toUInt64 * 8 : UInt64).toNat = 8 + count.toNat * 8 := by
    rw [UInt64.toNat_add, UInt64.toNat_mul, UInt32.toNat_toUInt64]
    simp only [UInt64.reduceToNat]
    omega
  rw [spiceAlign_eq (by omega), UInt64.toNat_add, hseg]
  simp only [UInt64.reduceToNat]
  omega

section CountSegs

variable {data : Nat → UInt8} {size start : Nat} {l : List (Nat × UInt32)}

theorem countSegs_few (hl : Segs data size start l) {n : Nat} {memSize : UInt64} {reads : List (Nat × Nat)}
    (hn : n + l.length < 2 ^ 31) {rounds : Nat} {run : PathRun (Nat × UInt64)}
    (h : countSegs data size rounds start n memSize reads = some run) :
    run = ⟨reads ++ l.map fun s => (s.1 + 4, 4),
      .ok (n + l.length, memSize + UInt64.ofNat (pathMemSize l))⟩ := by
  induction hl generalizing n memSize reads rounds with
  | done hge =>
    cases rounds with
    | zero => cases h
    | succ rounds =>
      rw [countSegs, if_neg (Nat.not_lt.mpr hge), Option.some.injEq] at h
      simp [← h, pathMemSize]
  | @seg start l hlt hl ih =>
    cases rounds with
    | zero => cases h
    | succ rounds =>
      rw [List.length_cons] at hn
      rw [countSegs, if_pos hlt, if_neg (by omega)] at h
      have hsize : (8 + spiceAlign (8 + (u32At data (start + 4)).toUInt64 * 8)) =
          UInt64.ofNat (16 + 8 * (u32At data (start + 4)).toNat) := by
        rw [← spiceAlign_seg, UInt64.ofNat_toNat]
      rw [ih (by omega) h, hsize]
      simp [pathMemSize, UInt64.add_assoc, Nat.add_assoc, Nat.add_comm 1]

theorem countSegs_many (hl : Segs data size start l) {n : Nat} {memSize : UInt64} {reads : List (Nat × Nat)}
    (hn : 2 ^ 31 ≤ n + l.length) (hn' : n < 2 ^ 31) {rounds : Nat} {run : PathRun (Nat × UInt64)}
    (h : countSegs data size rounds start n memSize reads = some run) : run.outcome = .error .overflow := by
  induction hl generalizing n memSize reads rounds with
  | done =>
    rw [List.length_nil] at hn
    omega
  | @seg start l hlt hl ih =>
    cases rounds with
    | zero => cases h
    | succ rounds =>
      rw [List.length_cons] at hn
      rw [countSegs, if_pos hlt] at h
      split at h
      · rw [Option.some.injEq] at h
        rw [← h]
      · exact ih (by omega) (by omega) h

end CountSegs

def segReads (s : Nat × UInt32) : List (Nat × Nat) := (s.1 + 4, 4) :: (s.1, 4) :: pointReads s.1 s.2

/-- What the second loop writes for the segments, from the `n`th on. -/
@[grind] def pathWrites (data : Nat → UInt8) (red : UInt64) : Nat → Nat → List (Nat × UInt32) → List (Nat × List UInt8)
  | _, _, [] => []
  | n, seg, s :: l =>
    (8 + 8 * n, leBytes 8 (red + UInt64.ofNat seg).toNat) :: segWrites data s.1 seg s.2 ++
      pathWrites data red (n + 1) (nextSeg seg s.2) l

section SegFits

variable {memSize memSize2 : UInt64} {count : UInt32}

theorem toNat_points (count : UInt32) : (count.toUInt64 * 8).toNat = 8 * count.toNat := by
  have hc := count.toNat_lt
  rw [UInt64.toNat_mul, UInt32.toNat_toUInt64]
  simp only [UInt64.reduceToNat]
  omega

theorem accepted_of_segFits (h : SegFits memSize memSize2 count) : Accepted count := by
  obtain ⟨-, hlt, hgt, -⟩ := h
  refine ⟨Nat.pos_of_ne_zero fun h0 => ?_, hlt⟩
  have hzero : count.toUInt64 * 8 = 0 := by
    rw [← UInt64.toNat_inj, toNat_points, h0]
    rfl
  rw [hzero, UInt64.add_zero] at hgt
  exact absurd hgt (UInt64.lt_irrefl _)

theorem toNat_memSize2 (h : memSize2.toNat + (8 + 8 * count.toNat) < 2 ^ 64) :
    (memSize2 + 8 + count.toUInt64 * 8).toNat = memSize2.toNat + (8 + 8 * count.toNat) := by
  rw [UInt64.toNat_add, UInt64.toNat_add, toNat_points]
  simp only [UInt64.reduceToNat]
  omega

theorem segFits_of_accepted (h : Accepted count) (hm : memSize2.toNat + (8 + 8 * count.toNat) ≤ memSize.toNat) :
    SegFits memSize memSize2 count := by
  have hlt := memSize.toNat_lt
  have h8 : (memSize2 + 8).toNat = memSize2.toNat + 8 := by
    rw [UInt64.toNat_add]
    simp only [UInt64.reduceToNat]
    omega
  have hall : (memSize2 + 8 + count.toUInt64 * 8).toNat = memSize2.toNat + (8 + 8 * count.toNat) :=
    toNat_memSize2 (by omega)
  refine ⟨?_, h.2, ?_, ?_⟩
  · rw [gt_iff_lt, UInt64.lt_iff_toNat_lt, h8]
    omega
  · have := h.1
    rw [gt_iff_lt, UInt64.lt_iff_toNat_lt, h8, hall]
    omega
  · rw [UInt64.le_iff_toNat_le, hall]
    exact hm

end SegFits

section CopySegs

variable {data : Nat → UInt8} {size start : Nat} {l : List (Nat × UInt32)} {red memSize : UInt64}

theorem copySegs_accepted (hl : Segs data size start l) (hacc : ∀ s ∈ l, Accepted s.2) {n seg numSegments : Nat}
    {memSize2 : UInt64} (hn : n + l.length = numSegments) (hlt : numSegments < 2 ^ 31)
    (hm : memSize2.toNat + (l.map fun s => 8 + 8 * s.2.toNat).sum ≤ memSize.toNat)
    {reads : List (Nat × Nat)} {writes : List (Nat × List UInt8)} {rounds : Nat} {run : PathRun PathAlloc}
    (h : copySegs data size red memSize numSegments rounds start n seg memSize2 reads writes = some run) :
    run = ⟨reads ++ l.flatMap segReads, .ok ⟨memSize, writes ++ pathWrites data red n seg l⟩⟩ := by
  induction hl generalizing n seg memSize2 reads writes rounds with
  | done hge =>
    cases rounds with
    | zero => cases h
    | succ rounds =>
      rw [copySegs, if_neg (Nat.not_lt.mpr hge), if_pos (by simpa using hn), Option.some.injEq] at h
      simp [← h, pathWrites]
  | @seg start l hstart hl ih =>
    cases rounds with
    | zero => cases h
    | succ rounds =>
      obtain ⟨hhead, hrest⟩ := List.forall_mem_cons.mp hacc
      have hM := memSize.toNat_lt
      rw [List.length_cons] at hn
      rw [List.map_cons, List.sum_cons] at hm
      dsimp only at hhead hm
      rw [copySegs, if_pos hstart, if_neg (by omega)] at h
      dsimp only at h
      rw [if_pos (segFits_of_accepted hhead (by omega))] at h
      rw [ih hrest (by omega) (by rw [toNat_memSize2 (by omega)]; omega) h]
      simp [pathWrites, segReads]

/-- However the loop ends, it has stayed inside the data, and it only returns where every count is accepted. -/
theorem copySegs_reads (hl : Segs data size start l) (hhead : ∀ s ∈ l, s.1 + 8 ≤ size)
    (hin : (∀ s ∈ l, Accepted s.2) → ∀ s ∈ l, Inside size s) {n seg numSegments : Nat} {memSize2 : UInt64}
    (hn : n + l.length < 2 ^ 31) {reads : List (Nat × Nat)} (hr : ∀ r ∈ reads, r.1 + r.2 ≤ size)
    {writes : List (Nat × List UInt8)} {rounds : Nat} {run : PathRun PathAlloc}
    (h : copySegs data size red memSize numSegments rounds start n seg memSize2 reads writes = some run) :
    (∀ r ∈ run.reads, r.1 + r.2 ≤ size) ∧ run.outcome ≠ .error .overflow ∧
      ∀ a, run.outcome = .ok a → ∀ s ∈ l, Accepted s.2 := by
  induction hl generalizing n seg memSize2 reads writes rounds with
  | done hge =>
    cases rounds with
    | zero => cases h
    | succ rounds =>
      rw [copySegs, if_neg (Nat.not_lt.mpr hge)] at h
      split at h
      · cases h
        exact ⟨hr, nofun, fun _ _ => nofun⟩
      · cases h
        exact ⟨hr, nofun, fun _ _ => nofun⟩
  | @seg start l hstart hl ih =>
    cases rounds with
    | zero => cases h
    | succ rounds =>
      obtain ⟨hh, hheads⟩ := List.forall_mem_cons.mp hhead
      rw [List.length_cons] at hn
      rw [copySegs, if_pos hstart, if_neg (by omega)] at h
      dsimp only at h hh
      split at h
      · rename_i hfits
        have hacc := accepted_of_segFits hfits
        have hins : nextSeg start (u32At data (start + 4)) ≤ size := by
          by_cases hnil : l = []
          · subst hnil
            exact hin (by simpa using hacc) _ List.mem_cons_self
          · exact Nat.le_of_lt (hl.inside_of_ne_nil hnil)
        have hreads : ∀ r ∈ reads ++ (start + 4, 4) :: (start, 4) :: pointReads start (u32At data (start + 4)),
            r.1 + r.2 ≤ size := by
          rw [nextSeg] at hins
          simp only [List.mem_append, List.mem_cons, pointReads, List.mem_flatMap, List.mem_range, List.not_mem_nil,
            or_false]
          rintro r (hr' | rfl | rfl | ⟨i, hi, rfl | rfl⟩)
          · exact hr r hr'
          all_goals dsimp only; omega
        obtain ⟨h₁, h₂, h₃⟩ := ih hheads
          (fun hall s hs => hin (List.forall_mem_cons.mpr ⟨hacc, hall⟩) s (List.mem_cons_of_mem _ hs))
          (by omega) hreads h
        exact ⟨h₁, h₂, fun a ha => List.forall_mem_cons.mpr ⟨hacc, h₃ a ha⟩⟩
      · cases h
        refine ⟨?_, nofun, fun _ => nofun⟩
        intro r hr'
        obtain hr' | rfl := by simpa using hr'
        · exact hr r hr'
        · dsimp only
          omega

theorem mem_reads_of_copySegs {n seg numSegments : Nat} {memSize2 : UInt64} {reads : List (Nat × Nat)}
    {writes : List (Nat × List UInt8)} {rounds : Nat} {run : PathRun PathAlloc}
    (h : copySegs data size red memSize numSegments rounds start n seg memSize2 reads writes = some run) :
    ∀ r ∈ reads, r ∈ run.reads := by
  induction rounds generalizing start n seg memSize2 reads writes with
  | zero => cases h
  | succ rounds ih =>
    intro r hr
    rw [copySegs] at h
    split at h
    · split at h
      · cases h
        exact hr
      · dsimp only at h
        split at h
        · exact ih h r (List.mem_append_left _ hr)
        · cases h
          exact List.mem_append_left _ hr
    · split at h
      · cases h
        exact hr
      · cases h
        exact hr

end CopySegs

section Memory

variable {data m : Nat → UInt8} {off p : Nat}

/-- The memory `m` with `len` bytes of the data copied to the place `p`. -/
def copied (m data : Nat → UInt8) (off p len : Nat) (i : Nat) : UInt8 :=
  if p ≤ i ∧ i < p + len then data (off + (i - p)) else m i

theorem copied_of_not {len i : Nat} (h : ¬ (p ≤ i ∧ i < p + len)) : copied m data off p len i = m i := if_neg h

theorem copied_of_mem {len i : Nat} (h : i < len) : copied m data off p len (p + i) = data (off + i) := by
  rw [copied, if_pos (by omega), Nat.add_sub_cancel_left]

theorem copied_copied (a b : Nat) :
    copied (copied m data off p a) data (off + a) (p + a) b = copied m data off p (a + b) := by
  funext i
  simp only [copied]
  by_cases h : p + a ≤ i ∧ i < p + a + b
  · rw [if_pos h, if_pos (by omega)]
    congr 1
    omega
  · rw [if_neg h]
    by_cases h' : p ≤ i ∧ i < p + a
    · rw [if_pos h', if_pos (by omega)]
    · rw [if_neg h', if_neg (by omega)]

theorem writeFrom_readFrom (m data : Nat → UInt8) (off p len : Nat) :
    writeFrom m p (readFrom data off len) = copied m data off p len := by
  induction len generalizing m off p with
  | zero =>
    funext i
    exact (copied_of_not (by omega)).symm
  | succ len ih =>
    rw [readFrom, writeFrom, ih]
    funext i
    by_cases hi : i = p
    · subst hi
      rw [Function.update_self, copied, if_pos (by omega), Nat.sub_self, Nat.add_zero]
    · rw [Function.update_of_ne hi, copied, copied]
      by_cases h : p + 1 ≤ i ∧ i < p + 1 + len
      · rw [if_pos h, if_pos (by omega)]
        congr 1
        omega
      · rw [if_neg h, if_neg (by omega)]

theorem leBytes_u32At (data : Nat → UInt8) (off : Nat) : leBytes 4 (u32At data off).toNat = readFrom data off 4 := by
  have hlt := ofLeBytes_lt (readFrom data off 4)
  have hback := leBytes_ofLeBytes (readFrom data off 4)
  rw [length_readFrom] at hlt hback
  rw [u32At, UInt32.toNat_ofNat_of_lt' (by simpa using hlt), hback]

theorem writeFrom_u32At (m data : Nat → UInt8) (off p : Nat) :
    writeFrom m p (leBytes 4 (u32At data off).toNat) = copied m data off p 4 := by
  rw [leBytes_u32At, writeFrom_readFrom]

theorem memoryAfter_append (m : Nat → UInt8) (ws ws' : List (Nat × List UInt8)) :
    memoryAfter m (ws ++ ws') = memoryAfter (memoryAfter m ws) ws' := List.foldl_append

theorem memoryAfter_pointWrites (m data : Nat → UInt8) (start seg count : Nat) :
    memoryAfter m (pointWrites data start seg count) = copied m data (start + 8) (seg + 8) (8 * count) := by
  induction count with
  | zero =>
    funext i
    exact (copied_of_not (by omega)).symm
  | succ count ih =>
    rw [pointWrites, memoryAfter_append, ih]
    have h12 : start + 12 + 8 * count = start + 8 + 8 * count + 4 := by omega
    have h12' : seg + 12 + 8 * count = seg + 8 + 8 * count + 4 := by omega
    simp only [memoryAfter, List.foldl_cons, List.foldl_nil]
    rw [writeFrom_u32At, writeFrom_u32At, h12, h12', copied_copied, copied_copied]
    rfl

/-- Field by field, a segment is copied as it is. -/
theorem memoryAfter_segWrites (m data : Nat → UInt8) (start seg : Nat) :
    memoryAfter m (segWrites data start seg (u32At data (start + 4))) =
      copied m data start seg (8 + 8 * (u32At data (start + 4)).toNat) := by
  rw [segWrites, memoryAfter_append, memoryAfter_pointWrites]
  simp only [memoryAfter, List.foldl_cons, List.foldl_nil]
  rw [writeFrom_u32At, writeFrom_u32At, copied_copied, copied_copied, ← Nat.add_assoc]

theorem Segs.le {size start : Nat} {l : List (Nat × UInt32)} (h : Segs data size start l) : ∀ s ∈ l, start ≤ s.1 := by
  induction h with
  | done => exact fun _ hs => absurd hs List.not_mem_nil
  | @seg start l _ _ ih =>
    refine List.forall_mem_cons.mpr ⟨le_rfl, fun s hs => ?_⟩
    exact Nat.le_trans (Nat.le_of_lt (lt_nextSeg start _)) (ih s hs)

/-- What is left of the memory by the writes: the table from the `n`th entry on, which ends before `seg`,
and from there on the segments. -/
theorem memoryAfter_pathWrites (red : UInt64) {size start : Nat} {l : List (Nat × UInt32)}
    (hl : Segs data size start l) {n seg : Nat} (hT : 8 + 8 * (n + l.length) ≤ seg) (m : Nat → UInt8) :
    (∀ i, i < 8 + 8 * n ∨ 8 + 8 * (n + l.length) ≤ i ∧ i < seg →
      memoryAfter m (pathWrites data red n seg l) i = m i) ∧
    ∀ k s, l[k]? = some s →
      readFrom (memoryAfter m (pathWrites data red n seg l)) (8 + 8 * (n + k)) 8 =
        leBytes 8 (red + UInt64.ofNat (seg + (s.1 - start))).toNat ∧
      ∀ i < 8 + 8 * s.2.toNat, memoryAfter m (pathWrites data red n seg l) (seg + (s.1 - start) + i) = data (s.1 + i) := by
  induction hl generalizing n seg m with
  | done => exact ⟨fun _ _ => rfl, fun k s hk => by cases hk⟩
  | @seg start l hstart hl ih =>
    rw [List.length_cons] at hT
    have hptr : (leBytes 8 (red + UInt64.ofNat seg).toNat).length = 8 := length_leBytes _ _
    have hstep : memoryAfter m (pathWrites data red n seg ((start, u32At data (start + 4)) :: l)) =
        memoryAfter (copied (writeFrom m (8 + 8 * n) (leBytes 8 (red + UInt64.ofNat seg).toNat)) data start seg
          (8 + 8 * (u32At data (start + 4)).toNat))
          (pathWrites data red (n + 1) (nextSeg seg (u32At data (start + 4))) l) := by
      rw [pathWrites, List.cons_append, ← memoryAfter_segWrites, ← memoryAfter_append]
      rfl
    have hseg : nextSeg seg (u32At data (start + 4)) = seg + (8 + 8 * (u32At data (start + 4)).toNat) := Nat.add_assoc ..
    rw [hstep]
    obtain ⟨hframe, hlist⟩ := @ih (n + 1) (nextSeg seg (u32At data (start + 4))) (by omega)
      (copied (writeFrom m (8 + 8 * n) (leBytes 8 (red + UInt64.ofNat seg).toNat)) data start seg
        (8 + 8 * (u32At data (start + 4)).toNat))
    refine ⟨fun i hi => ?_, fun k s hk => ?_⟩
    · rw [List.length_cons] at hi
      rw [hframe i (by omega), copied_of_not (by omega)]
      obtain hi | hi := hi
      · exact writeFrom_of_lt m _ hi
      · exact writeFrom_of_ge m _ (by omega)
    · cases k with
      | zero =>
        obtain rfl : (start, u32At data (start + 4)) = s := by simpa using hk
        dsimp only
        rw [Nat.sub_self, Nat.add_zero, Nat.add_zero]
        refine ⟨?_, fun i hi => ?_⟩
        · rw [@readFrom_congr _ (writeFrom m (8 + 8 * n) (leBytes 8 (red + UInt64.ofNat seg).toNat))]
          · conv_lhs => rw [← hptr]
            exact readFrom_writeFrom m _ _
          · intro i _ hi
            rw [hframe i (by omega), copied_of_not (by omega)]
        · rw [Nat.add_zero seg, hframe (seg + i) (by omega), copied_of_mem hi]
      | succ k =>
        rw [List.getElem?_cons_succ] at hk
        have hle := hl.le s (List.mem_of_getElem? hk)
        have hoff : nextSeg seg (u32At data (start + 4)) + (s.1 - nextSeg start (u32At data (start + 4))) =
            seg + (s.1 - start) := by
          rw [nextSeg] at hle
          rw [nextSeg, nextSeg]
          omega
        rw [← hoff, ← Nat.add_assoc, Nat.add_right_comm]
        exact hlist k s hk

theorem u32At_congr {m data : Nat → UInt8} {p off : Nat} (h : ∀ i < 4, m (p + i) = data (off + i)) :
    u32At m p = u32At data off := by
  rw [u32At, readFrom_congr_add h, u32At]

theorem segAt_congr {m data : Nat → UInt8} {p off : Nat}
    (h : ∀ i < 8 + 8 * (u32At data (off + 4)).toNat, m (p + i) = data (off + i)) : segAt m p = segAt data off := by
  have word : ∀ d, d + 4 ≤ 8 + 8 * (u32At data (off + 4)).toNat → u32At m (p + d) = u32At data (off + d) := by
    intro d hd
    apply u32At_congr
    intro i hi
    rw [Nat.add_assoc, Nat.add_assoc]
    exact h (d + i) (by omega)
  have hcount := word 4 (by omega)
  have hflags := word 0 (by omega)
  rw [segAt, segAt, hcount]
  simp only [Nat.add_zero] at hflags
  rw [hflags]
  congr 1
  apply List.map_congr_left
  intro i hi
  rw [List.mem_range] at hi
  rw [Nat.add_assoc, Nat.add_assoc off, Nat.add_assoc p 12, Nat.add_assoc off 12, word (8 + 8 * i) (by omega),
    word (12 + 8 * i) (by omega)]

end Memory

/-- The path that is read back from the memory is the list of the segments in the data. -/
theorem pathAt_memoryAfter {data : Nat → UInt8} {size : Nat} {l : List (Nat × UInt32)} (hl : Segs data size 0 l)
    (hn : l.length < 2 ^ 31) (hs : size < 2 ^ 63) (red : UInt64) (heap : Nat → UInt8) :
    pathAt (memoryAfter heap ((0, leBytes 4 l.length) :: pathWrites data red 0 (8 + 8 * l.length) l)) red =
      l.map fun s => segAt data s.1 := by
  have hstep : memoryAfter heap ((0, leBytes 4 l.length) :: pathWrites data red 0 (8 + 8 * l.length) l) =
      memoryAfter (writeFrom heap 0 (leBytes 4 l.length)) (pathWrites data red 0 (8 + 8 * l.length) l) := rfl
  obtain ⟨hframe, hlist⟩ := @memoryAfter_pathWrites data red _ _ _ hl 0 (8 + 8 * l.length) (by omega)
    (writeFrom heap 0 (leBytes 4 l.length))
  rw [hstep]
  have hread : readFrom (memoryAfter (writeFrom heap 0 (leBytes 4 l.length)) (pathWrites data red 0 (8 + 8 * l.length) l)) 0 4 =
      leBytes 4 l.length := by
    have hlen : (leBytes 4 l.length).length = 4 := length_leBytes _ _
    rw [@readFrom_congr _ (writeFrom heap 0 (leBytes 4 l.length)) _ _ fun i _ hi => hframe i (by omega)]
    conv_lhs => rw [← hlen]
    exact readFrom_writeFrom heap _ _
  have hnum : (u32At (memoryAfter (writeFrom heap 0 (leBytes 4 l.length)) (pathWrites data red 0 (8 + 8 * l.length) l)) 0).toNat =
      l.length := by
    rw [u32At, hread, ofLeBytes_leBytes, UInt32.toNat_ofNat']
    omega
  apply List.ext_getElem
  · simp [pathAt, hnum]
  · intro k hk hk'
    rw [List.length_map] at hk'
    obtain ⟨hptr, hdata⟩ := hlist k l[k] (List.getElem?_eq_getElem hk')
    have hmem := List.getElem_mem hk'
    have hcount := hl.count_eq _ hmem
    have hlt := hl.lt _ hmem
    rw [Nat.zero_add, Nat.sub_zero] at hptr
    rw [Nat.sub_zero] at hdata
    have hu64 : u64At (memoryAfter (writeFrom heap 0 (leBytes 4 l.length)) (pathWrites data red 0 (8 + 8 * l.length) l)) (8 + 8 * k) =
        red + UInt64.ofNat (8 + 8 * l.length + l[k].1) := by
      have := (red + UInt64.ofNat (8 + 8 * l.length + l[k].1)).toNat_lt
      rw [u64At, hptr, ofLeBytes_leBytes, Nat.mod_eq_of_lt (by omega), UInt64.ofNat_toNat]
    have haddr : (red + UInt64.ofNat (8 + 8 * l.length + l[k].1) - red).toNat = 8 + 8 * l.length + l[k].1 := by
      rw [UInt64.add_comm, UInt64.add_sub_cancel, UInt64.toNat_ofNat_of_lt' (by show _ < 2 ^ 64; omega)]
    simp only [pathAt, List.getElem_map, List.getElem_range]
    rw [hu64, haddr]
    apply segAt_congr
    rw [← hcount]
    exact hdata

theorem pointWrites_le {data : Nat → UInt8} {start seg count : Nat} :
    ∀ w ∈ pointWrites data start seg count, w.1 + w.2.length ≤ seg + 8 + 8 * count := by
  induction count with
  | zero => exact fun _ hw => absurd hw List.not_mem_nil
  | succ count ih =>
    intro w hw
    simp only [pointWrites, List.mem_append, List.mem_cons, List.not_mem_nil, or_false] at hw
    obtain hw | rfl | rfl := hw
    · have := ih w hw
      omega
    all_goals
      dsimp only
      rw [length_leBytes]
      omega

theorem pathWrites_le {data : Nat → UInt8} {red : UInt64} {n seg : Nat} {l : List (Nat × UInt32)}
    (hT : 8 + 8 * (n + l.length) ≤ seg) :
    ∀ w ∈ pathWrites data red n seg l, w.1 + w.2.length ≤ seg + (l.map fun s => 8 + 8 * s.2.toNat).sum := by
  induction l generalizing n seg with
  | nil => exact fun _ hw => absurd hw List.not_mem_nil
  | cons s l ih =>
    rw [List.length_cons] at hT
    intro w hw
    simp only [pathWrites, segWrites, List.cons_append, List.nil_append, List.mem_cons, List.mem_append] at hw
    rw [List.map_cons, List.sum_cons]
    obtain rfl | rfl | rfl | hw | hw := hw
    · dsimp only
      rw [length_leBytes]
      omega
    · dsimp only
      rw [length_leBytes]
      omega
    · dsimp only
      rw [length_leBytes]
      omega
    · have := pointWrites_le w hw
      omega
    · have := @ih (n + 1) (nextSeg seg s.2) (by rw [nextSeg]; omega) w hw
      rw [nextSeg] at this
      omega

section Loops

variable {canAlloc : UInt64 → Bool} {data : Nat → UInt8} {size : Nat} {l : List (Nat × UInt32)} {red : UInt64}
  {rounds : Nat} {run : PathRun PathAlloc}

theorem pathLoops_many (hl : Segs data size 0 l) (hn : 2 ^ 31 ≤ l.length)
    (h : pathLoops canAlloc data size red rounds = some run) : run.outcome = .error .overflow := by
  rw [pathLoops, Option.bind_eq_some_iff] at h
  obtain ⟨counted, hc, h⟩ := h
  rw [countSegs_many hl (by omega) (by decide) hc] at h
  cases h
  rfl

/-- The first loop reads every count, and the second one only runs when there is memory for the path. -/
theorem pathLoops_few (hl : Segs data size 0 l) (hn : l.length < 2 ^ 31)
    (h : pathLoops canAlloc data size red rounds = some run) :
    if canAlloc (UInt64.ofNat (8 + pathMemSize l)) then
      copySegs data size red (UInt64.ofNat (8 + pathMemSize l)) l.length rounds 0 0 (8 + 8 * l.length) 8
        (l.map fun s => (s.1 + 4, 4)) [(0, leBytes 4 l.length)] = some run
    else run = ⟨l.map fun s => (s.1 + 4, 4), .error .noMemory⟩ := by
  rw [pathLoops, Option.bind_eq_some_iff] at h
  obtain ⟨counted, hc, h⟩ := h
  obtain rfl := countSegs_few hl (by omega) hc
  have hsize : (8 : UInt64) + UInt64.ofNat (pathMemSize l) = UInt64.ofNat (8 + pathMemSize l) := (UInt64.ofNat_add 8 _).symm
  rw [List.nil_append, Nat.zero_add, hsize] at h
  dsimp only at h
  split at h
  · rename_i ha
    rw [if_pos ha]
    exact h
  · rename_i ha
    rw [if_neg ha]
    exact (Option.some.inj h).symm

theorem count_reads_le (h : ∀ s ∈ l, s.1 + 8 ≤ size) : ∀ r ∈ l.map fun s : Nat × UInt32 => (s.1 + 4, 4), r.1 + r.2 ≤ size := by
  intro r hr
  obtain ⟨s, hs, rfl⟩ := List.mem_map.mp hr
  exact h s hs

theorem pathSafe_of_fits (hl : Segs data size 0 l) (hs : size < 2 ^ 63) (hf : PathFits canAlloc size l)
    (h : pathLoops canAlloc data size red rounds = some run) : PathSafe red data size run := by
  have hn := hf.number
  have hrun := pathLoops_few hl hn h
  have hcounts := count_reads_le hf.headers
  split at hrun
  · rename_i ha
    obtain ⟨hreads, hdef, hall⟩ := copySegs_reads hl hf.headers (hf.points ha) (by omega) hcounts hrun
    have hret : ∀ a, run.outcome = .ok a → a.memSize = UInt64.ofNat (8 + pathMemSize l) ∧
        a.writes = (0, leBytes 4 l.length) :: pathWrites data red 0 (8 + 8 * l.length) l := by
      intro a ha'
      have hlt := hl.pathMemSize_lt hf.number hs
      have hmem : (UInt64.ofNat (8 + pathMemSize l)).toNat = 8 + pathMemSize l := UInt64.toNat_ofNat_of_lt' hlt
      have hle : (8 : UInt64).toNat + (l.map fun s => 8 + 8 * s.2.toNat).sum ≤
          (UInt64.ofNat (8 + pathMemSize l)).toNat := by
        rw [hmem, pathMemSize_eq]
        simp only [UInt64.reduceToNat]
        omega
      rw [copySegs_accepted hl (hall a ha') (Nat.zero_add _) hf.number hle hrun, Except.ok.injEq] at ha'
      subst ha'
      exact ⟨rfl, rfl⟩
    refine ⟨hdef, hreads, fun a ha' w hw => ?_, fun a ha' heap l' hl' => ?_⟩
    · obtain ⟨hsize, hwrites⟩ := hret a ha'
      have hlt := hl.pathMemSize_lt hf.number hs
      rw [hsize, UInt64.toNat_ofNat_of_lt' hlt, pathMemSize_eq]
      rw [hwrites, List.mem_cons] at hw
      obtain rfl | hw := hw
      · dsimp only
        rw [length_leBytes]
        omega
      · have := pathWrites_le (by omega) w hw
        omega
    · rw [hl'.unique hl, (hret a ha').2]
      exact pathAt_memoryAfter hl hf.number hs red heap
  · subst hrun
    exact ⟨nofun, hcounts, nofun, nofun⟩

theorem mem_segReads_last {s : Nat × UInt32} (h : Accepted s.2) : (s.1 + 12 + 8 * (s.2.toNat - 1), 4) ∈ segReads s := by
  have hpos := h.1
  simp only [segReads, pointReads, List.mem_cons, List.mem_flatMap, List.mem_range]
  exact .inr (.inr ⟨s.2.toNat - 1, by omega, .inr (.inl rfl)⟩)

theorem fits_of_pathSafe (hl : Segs data size 0 l) (hs : size < 2 ^ 63) (hsafe : PathSafe red data size run)
    (h : pathLoops canAlloc data size red rounds = some run) : PathFits canAlloc size l := by
  have hn : l.length < 2 ^ 31 := by
    by_contra hn
    exact hsafe.defined (pathLoops_many hl (Nat.le_of_not_lt hn) h)
  have hrun := pathLoops_few hl hn h
  have hcounts : ∀ r ∈ l.map (fun s => (s.1 + 4, 4)), r ∈ run.reads := by
    intro r hr
    split at hrun
    · exact mem_reads_of_copySegs hrun r hr
    · rw [hrun]
      exact hr
  refine ⟨hn, fun s hs' => hsafe.reads _ (hcounts _ (List.mem_map_of_mem hs')), fun ha hall s hs' => ?_⟩
  rw [if_pos ha] at hrun
  have hlt := hl.pathMemSize_lt hn hs
  have hmem : (UInt64.ofNat (8 + pathMemSize l)).toNat = 8 + pathMemSize l := UInt64.toNat_ofNat_of_lt' hlt
  have hle : (8 : UInt64).toNat + (l.map fun s => 8 + 8 * s.2.toNat).sum ≤ (UInt64.ofNat (8 + pathMemSize l)).toNat := by
    rw [hmem, pathMemSize_eq]
    simp only [UInt64.reduceToNat]
    omega
  have hread := hsafe.reads (s.1 + 12 + 8 * (s.2.toNat - 1), 4) (by
    rw [copySegs_accepted hl hall (Nat.zero_add _) hn hle hrun]
    exact List.mem_append_right _ (List.mem_flatMap.mpr ⟨s, hs', mem_segReads_last (hall s hs')⟩))
  have hpos := (hall s hs').1
  rw [Inside, nextSeg]
  dsimp only at hread
  omega

end Loops

theorem size_of_linearize {host : HostMemory} {heap data : Nat → UInt8} {canAlloc : UInt64 → Bool}
    (halloc : ∀ n, canAlloc n → n.toNat < 2 ^ 63) {red : List RedDataChunk} {size : UInt64}
    (h : redLinearizeChunk host heap canAlloc red size = pure data) : size.toNat < 2 ^ 63 := by
  unfold redLinearizeChunk at h
  split at h
  · rename_i chunk
    obtain ⟨u, ha, -⟩ := Parse.bind_eq_pure.mp h
    rw [Parse.assert_eq_pure, UInt64.le_iff_toNat_le, UInt32.toNat_toUInt64] at ha
    have := chunk.dataSize.toNat_lt
    omega
  · split at h
    · rename_i ha
      exact halloc size ha
    · cases h

/-- For every chain that is accepted, the loops keep to the linearized data and copy all of it just when every
header is inside it, and so are the points unless the copying stops before them. -/
theorem path_safe_iff {info : RedMemSlotInfo} {host : HostMemory} {heap data : Nat → UInt8} {canAlloc : UInt64 → Bool}
    {red : UInt64} {groupId : Int32} {addr size : UInt64} {rounds : Nat} {run : PathRun PathAlloc}
    (halloc : ∀ n, canAlloc n → n.toNat < 2 ^ 63)
    (h : redGetPath host heap canAlloc red info groupId addr rounds = pure (data, size, run)) :
    PathSafe red data size.toNat run ↔ ∀ l, Segs data size.toNat 0 l → PathFits canAlloc size.toNat l := by
  obtain ⟨qxl, -, h⟩ := Parse.bind_eq_pure.mp h
  obtain ⟨r, -, h⟩ := Parse.bind_eq_pure.mp h
  obtain ⟨data, hdata, h⟩ := Parse.bind_eq_pure.mp h
  obtain ⟨run, hrun, h⟩ := Parse.bind_eq_pure.mp h
  obtain ⟨rfl, rfl, rfl⟩ := Parse.pure_inj.mp h
  have hs := size_of_linearize halloc hdata
  have hloops : pathLoops canAlloc data r.2.toNat red rounds = some run := by
    obtain ⟨run, hr, he⟩ := Option.map_eq_some_iff.mp hrun
    cases he
    exact hr
  obtain ⟨l, hl⟩ := exists_segs data r.2.toNat 0
  constructor
  · intro hsafe l' hl'
    exact fits_of_pathSafe hl' hs hsafe hloops
  · intro hf
    exact pathSafe_of_fits hl hs (hf l hl) hloops

/-- A `QXLPath` at 0x1000 with one chunk of data, where the header of a segment with a single point begins. -/
def onePoint (dataSize : UInt8) : HostMemory := fun a => if a = 0x1004 then dataSize else if a = 0x101c then 1 else 0

def belowHalf (n : UInt64) : Bool := n.toNat < 2 ^ 63

def readOnePoint (dataSize : UInt8) : Parse ((Nat → UInt8) × UInt64 × PathRun PathAlloc) :=
  redGetPath (onePoint dataSize) (fun _ => 0) belowHalf 0x3000 oneSlot 0 0x1000 2

def readsOf (r : Parse ((Nat → UInt8) × UInt64 × PathRun PathAlloc)) : Option (UInt64 × List (Nat × Nat)) :=
  r.run.bind fun e => e.toOption.map fun (_, size, run) => (size, run.reads)

theorem exists_of_readsOf {r : Parse ((Nat → UInt8) × UInt64 × PathRun PathAlloc)} {size : UInt64}
    {reads : List (Nat × Nat)} (h : readsOf r = some (size, reads)) :
    ∃ data run, r = pure (data, size, run) ∧ run.reads = reads := by
  match r with
  | none => cases h
  | some (.error e) => cases h
  | some (.ok (data, size, run)) =>
    cases h
    exact ⟨data, run, rfl, rfl⟩

theorem lt_of_belowHalf (n : UInt64) (h : belowHalf n) : n.toNat < 2 ^ 63 := of_decide_eq_true h

theorem path_safe_one_point : ∃ data size run, readOnePoint 16 = pure (data, size, run) ∧
    (PathSafe 0x3000 data size.toNat run ↔ ∀ l, Segs data size.toNat 0 l → PathFits belowHalf size.toNat l) := by
  have hr : readsOf (readOnePoint 16) = some (16, [(4, 4), (4, 4), (0, 4), (8, 4), (12, 4)]) := by decide
  obtain ⟨data, run, h, -⟩ := exists_of_readsOf hr
  exact ⟨data, 16, run, h, path_safe_iff lt_of_belowHalf h⟩

/-- The point of the segment is read behind the 8 bytes of the data. -/
theorem not_pathSafe_header_only : ¬ ∀ data size run, readOnePoint 8 = pure (data, size, run) →
    PathSafe 0x3000 data size.toNat run := by
  have hr : readsOf (readOnePoint 8) = some (8, [(4, 4), (4, 4), (0, 4), (8, 4), (12, 4)]) := by decide
  obtain ⟨data, run, h, hreads⟩ := exists_of_readsOf hr
  intro hall
  have hle := (hall data 8 run h).reads (12, 4) (by rw [hreads]; decide)
  exact absurd hle (by decide)

end Colama.Spice.Qxl

import Colama.Qemu.Block.DirtySpec
import Mathlib.Order.Interval.Finset.Nat

namespace Colama.Qemu.Block

open Lib.PackedFlags

variable {length words : Nat} {set : Finset Nat} {bs bs' : BlockDriverState}

theorem Holds.foldlM_true (h : Holds length words set bs) (chunks : List Nat)
    (hc : ∀ c ∈ chunks, c / 64 < words) :
    ∃ bs', chunks.foldlM (setDirtyChunk true) bs = some bs' ∧
      Holds length words (set ∪ chunks.toFinset.image cell) bs' := by
  induction chunks generalizing bs set with
  | nil => exact ⟨bs, rfl, by simpa using h⟩
  | cons c chunks ih =>
    obtain ⟨bs₁, hs, h₁⟩ := h.setDirtyChunk_true (hc c List.mem_cons_self)
    obtain ⟨bs₂, hs₂, h₂⟩ := ih h₁ fun c' hc' => hc c' (List.mem_cons_of_mem c hc')
    refine ⟨bs₂, by rw [List.foldlM_cons, hs]; exact hs₂, ?_⟩
    rwa [List.toFinset_cons, Finset.image_insert, Finset.union_insert, ← Finset.insert_union]

theorem Holds.foldlM_false (h : Holds length words set bs) (chunks : List Nat)
    (hc : ∀ c ∈ chunks, c / 64 < words) :
    ∃ bs', chunks.foldlM (setDirtyChunk false) bs = some bs' ∧
      Holds length words (set \ chunks.toFinset.image cell) bs' := by
  induction chunks generalizing bs set with
  | nil => exact ⟨bs, rfl, by simpa using h⟩
  | cons c chunks ih =>
    obtain ⟨bs₁, hs, h₁⟩ := h.setDirtyChunk_false (hc c List.mem_cons_self)
    obtain ⟨bs₂, hs₂, h₂⟩ := ih h₁ fun c' hc' => hc c' (List.mem_cons_of_mem c hc')
    refine ⟨bs₂, by rw [List.foldlM_cons, hs]; exact hs₂, ?_⟩
    rwa [List.toFinset_cons, Finset.image_insert, Finset.sdiff_insert, ← Finset.erase_sdiff_comm]

theorem Holds.getDirty (h : Holds length words set bs) {sector : Nat}
    (hs : sector * BDRV_SECTOR_SIZE < length) (hw : sector / BDRV_SECTORS_PER_DIRTY_CHUNK / 64 < words) :
    ∃ bits, getDirty bs sector = some bits ∧
      (bits ≠ 0 ↔ cell (sector / BDRV_SECTORS_PER_DIRTY_CHUNK) ∈ set) := by
  obtain ⟨bitmap, val, hb, hval, hsm, hcell⟩ := h.word hw
  have hlt : sector <<< BDRV_SECTOR_BITS < Block.getlength bs := by
    rw [Nat.shiftLeft_eq, getlength, h.length]
    exact hs
  refine ⟨(val &&& chunkMask (sector / BDRV_SECTORS_PER_DIRTY_CHUNK % 64)).truncate 32, ?_, ?_⟩
  · simp only [Block.getDirty, hb, if_pos hlt, hval, Option.map_some]
  · rw [truncate_and_mask_ne_zero hsm, hcell]

theorem Holds.getDirty_none (h : Holds length words set bs) {sector : Nat}
    (hs : sector * BDRV_SECTOR_SIZE < length) (hw : words ≤ sector / BDRV_SECTORS_PER_DIRTY_CHUNK / 64) :
    Block.getDirty bs sector = none := by
  obtain ⟨bitmap, hb, hlen, -, -⟩ := h.bitmap
  have hlt : sector <<< BDRV_SECTOR_BITS < Block.getlength bs := by
    rw [Nat.shiftLeft_eq, getlength, h.length]
    exact hs
  have hnone : bitmap[sector / BDRV_SECTORS_PER_DIRTY_CHUNK / 64]? = none :=
    List.getElem?_eq_none (hlen ▸ hw)
  simp only [Block.getDirty, hb, if_pos hlt, hnone, Option.map_none]

def coveredChunks (sector nb : Nat) : Finset Nat :=
  (Finset.Ico sector (sector + nb)).image (· / BDRV_SECTORS_PER_DIRTY_CHUNK)

theorem mem_coveredChunks {sector nb c : Nat} : c ∈ coveredChunks sector nb ↔ Covers sector nb c := by
  simp [coveredChunks, Covers, and_assoc]

theorem mem_touchedChunks {sector nb c : Nat} : c ∈ touchedChunks sector nb ↔
    sector / 2048 ≤ c ∧ c ≤ (sector + nb - 1) / 2048 := by
  simp only [touchedChunks, BDRV_SECTORS_PER_DIRTY_CHUNK, List.mem_range'_1]
  omega

theorem touched_of_covers {sector nb c : Nat} (h : Covers sector nb c) : c ∈ touchedChunks sector nb := by
  obtain ⟨x, hx, hlt, rfl⟩ := h
  rw [mem_touchedChunks]
  exact ⟨Nat.div_le_div_right hx, Nat.div_le_div_right (by omega)⟩

/-- The chunks that a history leaves dirty, one request after the other. -/
def DirtyOp.mark (chunks : Finset Nat) : DirtyOp → Finset Nat
  | .write sector nb => chunks ∪ coveredChunks sector nb
  | .reset sector nb => chunks \ coveredChunks sector nb

def dirtyChunks (ops : List DirtyOp) : Finset Nat := ops.foldl DirtyOp.mark ∅

theorem dirtyChunks_concat (ops : List DirtyOp) (op : DirtyOp) :
    dirtyChunks (ops ++ [op]) = op.mark (dirtyChunks ops) := by
  simp [dirtyChunks]

theorem not_dirty_nil (c : Nat) : ¬ Dirty [] c := by
  rintro ⟨before, s, nb, later, h, -⟩
  simp at h

theorem dirty_write {ops : List DirtyOp} {sector nb c : Nat} :
    Dirty (ops ++ [.write sector nb]) c ↔ Dirty ops c ∨ Covers sector nb c := by
  constructor
  · rintro ⟨before, s, n, later, heq, hc, hlater⟩
    induction later using List.reverseRecOn with
    | nil =>
      cases (List.append_inj' heq rfl).2
      exact .inr hc
    | append_singleton later op _ =>
      rw [← List.cons_append, ← List.append_assoc] at heq
      refine .inl ⟨before, s, n, later, (List.append_inj' heq rfl).1, hc, fun s' n' hmem => ?_⟩
      exact hlater s' n' (List.mem_append_left _ hmem)
  · rintro (⟨before, s, n, later, rfl, hc, hlater⟩ | hc)
    · refine ⟨before, s, n, later ++ [.write sector nb], by simp, hc, fun s' n' hmem => ?_⟩
      apply hlater s' n'
      simpa using hmem
    · exact ⟨ops, sector, nb, [], rfl, hc, by simp⟩

theorem dirty_reset {ops : List DirtyOp} {sector nb c : Nat} :
    Dirty (ops ++ [.reset sector nb]) c ↔ Dirty ops c ∧ ¬ Covers sector nb c := by
  constructor
  · rintro ⟨before, s, n, later, heq, hc, hlater⟩
    induction later using List.reverseRecOn with
    | nil => cases (List.append_inj' heq rfl).2
    | append_singleton later op _ =>
      rw [← List.cons_append, ← List.append_assoc] at heq
      cases (List.append_inj' heq rfl).2
      refine ⟨⟨before, s, n, later, (List.append_inj' heq rfl).1, hc, fun s' n' hmem => ?_⟩, ?_⟩
      · exact hlater s' n' (List.mem_append_left _ hmem)
      · exact hlater sector nb (by simp)
  · rintro ⟨⟨before, s, n, later, rfl, hc, hlater⟩, hnot⟩
    refine ⟨before, s, n, later ++ [.reset sector nb], by simp, hc, fun s' n' hmem => ?_⟩
    rcases List.mem_append.mp hmem with hmem | hmem
    · exact hlater s' n' hmem
    · cases List.mem_singleton.mp hmem
      exact hnot

theorem mem_dirtyChunks {ops : List DirtyOp} {c : Nat} : c ∈ dirtyChunks ops ↔ Dirty ops c := by
  induction ops using List.reverseRecOn with
  | nil => simp [dirtyChunks, not_dirty_nil]
  | append_singleton ops op ih =>
    rw [dirtyChunks_concat]
    cases op with
    | write sector nb => rw [DirtyOp.mark, Finset.mem_union, ih, mem_coveredChunks, dirty_write]
    | reset sector nb => rw [DirtyOp.mark, Finset.mem_sdiff, ih, mem_coveredChunks, dirty_reset]

/-- The chunks of a device of `length` bytes, the last of them perhaps in part. -/
def numChunks (length : Nat) : Nat :=
  (length + BDRV_SECTORS_PER_DIRTY_CHUNK * BDRV_SECTOR_SIZE - 1) /
    (BDRV_SECTORS_PER_DIRTY_CHUNK * BDRV_SECTOR_SIZE)

theorem lt_numChunks {c : Nat} : c < numChunks length ↔ c * 1048576 < length := by
  rw [numChunks, Nat.lt_iff_add_one_le, Nat.le_div_iff_mul_le (by decide)]
  simp only [BDRV_SECTORS_PER_DIRTY_CHUNK, BDRV_SECTOR_SIZE, BDRV_SECTOR_BITS]
  omega

theorem sector_lt_numChunks {sector : Nat} (h : sector * BDRV_SECTOR_SIZE < length) :
    sector / BDRV_SECTORS_PER_DIRTY_CHUNK < numChunks length := by
  rw [lt_numChunks]
  calc sector / 2048 * 1048576 = sector / 2048 * 2048 * 512 := by rw [Nat.mul_assoc]
    _ ≤ sector * 512 := Nat.mul_le_mul_right 512 (Nat.div_mul_le_self sector 2048)
    _ < length := h

/-- The bit of the chunk is in the lower half of its word, where the chunk that should have had the
same bit of the upper half is not there. -/
def Unshared (length chunk : Nat) : Prop := chunk % 64 < 32 ∧ numChunks length ≤ chunk + 32

theorem alone_iff {chunk : Nat} (h : chunk < numChunks length) :
    Alone cell (Finset.range (numChunks length)) chunk ↔ Unshared length chunk := by
  simp only [Alone, cell, Unshared, Finset.mem_range]
  constructor
  · intro h'
    have hup := h' (chunk + 32)
    have hdown := h' (chunk - 32)
    omega
  · rintro ⟨hlow, hend⟩ c' hc' heq
    omega

/-- Every chunk that the request touches is in the device; a write dirties none but those it covers and
no shared bit, a reset cleans none but those it covers. -/
def DirtyOp.Fits (length : Nat) (before : List DirtyOp) : DirtyOp → Prop
  | .write sector nb => ∀ c ∈ touchedChunks sector nb, c < numChunks length ∧
      (Covers sector nb c ∨ Dirty before c) ∧ Unshared length c
  | .reset sector nb => ∀ c ∈ touchedChunks sector nb, c < numChunks length ∧
      (Dirty before c → Covers sector nb c)

def DirtyOp.touched : DirtyOp → List Nat
  | .write sector nb => touchedChunks sector nb
  | .reset sector nb => touchedChunks sector nb

/-- The bits that the request leaves set. -/
def DirtyOp.markCells (set : Finset Nat) : DirtyOp → Finset Nat
  | .write sector nb => set ∪ (touchedChunks sector nb).toFinset.image cell
  | .reset sector nb => set \ (touchedChunks sector nb).toFinset.image cell

theorem Holds.run (h : Holds length words set bs) (op : DirtyOp)
    (hop : ∀ c ∈ op.touched, c / 64 < words) :
    ∃ bs', op.run bs = some bs' ∧ Holds length words (op.markCells set) bs' := by
  obtain ⟨bitmap, hb, -⟩ := h.bitmap
  cases op with
  | write sector nb =>
    rw [DirtyOp.run, hb]
    exact h.foldlM_true _ hop
  | reset sector nb => exact h.foldlM_false _ hop

theorem Holds.run_none (h : Holds length 0 set bs) {op : DirtyOp} (hop : op.touched = [0]) :
    op.run bs = none := by
  obtain ⟨bitmap, hb, -⟩ := h.bitmap
  have hnone : ∀ dirty, [0].foldlM (setDirtyChunk dirty) bs = none := by
    intro dirty
    rw [List.foldlM_cons, setDirtyChunk_none dirty h (Nat.zero_le _)]
    rfl
  cases op with
  | write sector nb =>
    have ht : touchedChunks sector nb = [0] := hop
    simp only [DirtyOp.run, hb, setDirtyBitmap, ht, hnone, Option.isSome_some, if_true]
  | reset sector nb =>
    have ht : touchedChunks sector nb = [0] := hop
    simp only [DirtyOp.run, resetDirty, setDirtyBitmap, ht, hnone]

theorem touchedChunks_inside {sector nb : Nat} (h : (sector + nb) * BDRV_SECTOR_SIZE ≤ length) :
    (∀ c ∈ touchedChunks sector nb, c < numChunks length) ∨ length = 0 ∧ touchedChunks sector nb = [0] := by
  rcases Nat.eq_zero_or_pos (sector + nb) with hz | hpos
  · have hs : sector = 0 := by omega
    have hn : nb = 0 := by omega
    subst hs hn
    rcases Nat.eq_zero_or_pos length with rfl | hlen
    · exact .inr ⟨rfl, rfl⟩
    · apply Or.inl
      intro c hc
      have hc0 : c = 0 := by simpa using mem_touchedChunks.mp hc
      rw [hc0, lt_numChunks]
      simpa using hlen
  · apply Or.inl
    intro c hc
    apply (mem_touchedChunks.mp hc).2.trans_lt
    apply sector_lt_numChunks
    exact (Nat.mul_lt_mul_of_pos_right (Nat.sub_lt hpos Nat.one_pos) (by decide)).trans_le h

theorem DirtyOp.touched_inside {op : DirtyOp} (h : op.Inside length) :
    (∀ c ∈ op.touched, c < numChunks length) ∨ length = 0 ∧ op.touched = [0] := by
  cases op with
  | write sector nb => exact touchedChunks_inside h
  | reset sector nb => exact touchedChunks_inside h

theorem DirtyOp.Fits.touched_lt {op : DirtyOp} {before : List DirtyOp} (h : op.Fits length before) :
    ∀ c ∈ op.touched, c < numChunks length := by
  cases op with
  | write sector nb => exact fun c hc => (h c hc).1
  | reset sector nb => exact fun c hc => (h c hc).1

/-- The state after `ops`, with the bits of `set`, each that of a chunk. -/
structure Reaches (length : Nat) (ops : List DirtyOp) (set : Finset Nat) (bs : BlockDriverState) : Prop where
  run : ops.foldlM DirtyOp.run (tracked length) = some bs
  holds : Holds length (bitmapSize length / 8) set bs
  cells : set ⊆ (Finset.range (numChunks length)).image cell
  chunks : dirtyChunks ops ⊆ Finset.range (numChunks length)

variable {ops : List DirtyOp} {op : DirtyOp}

theorem Reaches.nil (length : Nat) : Reaches length [] ∅ (tracked length) :=
  ⟨rfl, .tracked length, Finset.empty_subset _, Finset.empty_subset _⟩

theorem DirtyOp.mark_subset {dev chunks : Finset Nat} (h : chunks ⊆ dev) (hop : ∀ c ∈ op.touched, c ∈ dev) :
    op.mark chunks ⊆ dev := by
  cases op with
  | write sector nb =>
    apply Finset.union_subset h
    intro c hc
    exact hop c (touched_of_covers (mem_coveredChunks.mp hc))
  | reset sector nb => exact Finset.sdiff_subset.trans h

theorem DirtyOp.markCells_subset {dev : Finset Nat} (h : set ⊆ dev.image cell)
    (hop : ∀ c ∈ op.touched, c ∈ dev) : op.markCells set ⊆ dev.image cell := by
  cases op with
  | write sector nb =>
    apply Finset.union_subset h
    apply Finset.image_subset_image
    intro c hc
    exact hop c (List.mem_toFinset.mp hc)
  | reset sector nb => exact Finset.sdiff_subset.trans h

theorem Reaches.concat (h : Reaches length ops set bs)
    (hwords : numChunks length ≤ 64 * (bitmapSize length / 8))
    (hop : ∀ c ∈ op.touched, c < numChunks length) :
    ∃ bs', Reaches length (ops ++ [op]) (op.markCells set) bs' := by
  obtain ⟨bs', hrun, hholds⟩ := h.holds.run op fun c hc => by
    have hlt := (hop c hc).trans_le hwords
    omega
  have hdev : ∀ c ∈ op.touched, c ∈ Finset.range (numChunks length) :=
    fun c hc => Finset.mem_range.mpr (hop c hc)
  refine ⟨bs', ?_, hholds, DirtyOp.markCells_subset h.cells hdev, ?_⟩
  · rw [List.foldlM_append, h.run]
    simpa using hrun
  · rw [dirtyChunks_concat]
    exact DirtyOp.mark_subset h.chunks hdev

theorem Reaches.exact_iff_tells (h : Reaches length ops set bs)
    (hwords : numChunks length ≤ 64 * (bitmapSize length / 8)) :
    Exact length ops ↔ Tells cell (Finset.range (numChunks length)) set (dirtyChunks ops) := by
  have hget : ∀ sector, sector * BDRV_SECTOR_SIZE < length → ∃ bits, Block.getDirty bs sector = some bits ∧
      (bits ≠ 0 ↔ cell (sector / BDRV_SECTORS_PER_DIRTY_CHUNK) ∈ set) := by
    intro sector hs
    apply h.holds.getDirty hs
    have hlt := (sector_lt_numChunks hs).trans_le hwords
    omega
  constructor
  · rintro ⟨bs', hrun, hbits, chunks, hchunks, hcount⟩
    rw [h.run] at hrun
    cases hrun
    constructor
    · intro c hc
      have hlt := lt_numChunks.mp (Finset.mem_range.mp hc)
      have hs : c * 2048 * BDRV_SECTOR_SIZE < length := by
        rw [Nat.mul_assoc]
        exact hlt
      obtain ⟨bits, hb, hset⟩ := hget _ hs
      obtain ⟨bits', hb', hdirty⟩ := hbits _ hs
      rw [hb] at hb'
      cases hb'
      have hdiv : c * 2048 / BDRV_SECTORS_PER_DIRTY_CHUNK = c := Nat.mul_div_cancel c (by decide)
      rw [hdiv] at hset hdirty
      rw [← hset, hdirty, mem_dirtyChunks]
    · have heq : chunks = dirtyChunks ops := by
        ext c
        rw [hchunks, mem_dirtyChunks]
      rw [getDirtyCount, h.holds.count, heq] at hcount
      exact_mod_cast hcount
  · intro htells
    refine ⟨bs, h.run, ?_, dirtyChunks ops, fun c => mem_dirtyChunks, ?_⟩
    · intro sector hs
      obtain ⟨bits, hb, hset⟩ := hget sector hs
      refine ⟨bits, hb, ?_⟩
      rw [hset, htells.1 _ (Finset.mem_range.mpr (sector_lt_numChunks hs)), mem_dirtyChunks]
    · rw [getDirtyCount, h.holds.count, htells.2]

theorem tells_mark_iff (htells : Tells cell (Finset.range (numChunks length)) set (dirtyChunks ops))
    (h : Reaches length ops set bs) (hop : ∀ c ∈ op.touched, c < numChunks length) :
    Tells cell (Finset.range (numChunks length)) (op.markCells set) (dirtyChunks (ops ++ [op])) ↔
      op.Fits length ops := by
  rw [dirtyChunks_concat]
  have hcov : ∀ sector nb, coveredChunks sector nb ⊆ (touchedChunks sector nb).toFinset := fun sector nb c hc =>
    List.mem_toFinset.mpr (touched_of_covers (mem_coveredChunks.mp hc))
  cases op with
  | write sector nb =>
    have hdev : (touchedChunks sector nb).toFinset ⊆ Finset.range (numChunks length) :=
      fun c hc => Finset.mem_range.mpr (hop c (List.mem_toFinset.mp hc))
    rw [DirtyOp.mark, DirtyOp.markCells, htells.union_iff h.cells h.chunks hdev (hcov sector nb)]
    apply forall_congr'
    intro c
    rw [List.mem_toFinset, mem_coveredChunks, mem_dirtyChunks]
    apply imp_congr_right
    intro hc
    rw [alone_iff (hop c hc)]
    exact ⟨fun h' => ⟨hop c hc, h'⟩, fun h' => h'.2⟩
  | reset sector nb =>
    have hdev : (touchedChunks sector nb).toFinset ⊆ Finset.range (numChunks length) :=
      fun c hc => Finset.mem_range.mpr (hop c (List.mem_toFinset.mp hc))
    rw [DirtyOp.mark, DirtyOp.markCells, htells.sdiff_iff h.cells h.chunks hdev (hcov sector nb)]
    apply forall_congr'
    intro c
    rw [List.mem_toFinset, mem_coveredChunks, mem_dirtyChunks]
    apply imp_congr_right
    intro hc
    exact ⟨fun h' => ⟨hop c hc, h'⟩, fun h' => h'.2⟩

/-- One request more: the account stays exact just when the request fits. -/
theorem Reaches.exact_concat_iff (h : Reaches length ops set bs)
    (hwords : numChunks length ≤ 64 * (bitmapSize length / 8)) (hexact : Exact length ops)
    (hin : op.Inside length) : Exact length (ops ++ [op]) ↔ op.Fits length ops := by
  rcases DirtyOp.touched_inside hin with hop | ⟨hlen, hop⟩
  · obtain ⟨bs', h'⟩ := h.concat hwords hop
    rw [h'.exact_iff_tells hwords, tells_mark_iff ((h.exact_iff_tells hwords).mp hexact) h hop]
  · constructor
    · rintro ⟨bs', hrun, -⟩
      rw [List.foldlM_append, h.run] at hrun
      have hwords0 : bitmapSize length / 8 = 0 := by
        rw [hlen]
        rfl
      have hnone := (hwords0 ▸ h.holds).run_none hop
      simp [hnone] at hrun
    · intro hfits
      have hlt := hfits.touched_lt 0 (by rw [hop]; exact List.mem_singleton_self 0)
      rw [lt_numChunks, hlen] at hlt
      exact absurd hlt (Nat.not_lt_zero _)

theorem words_of_exact (h : Exact length []) : numChunks length ≤ 64 * (bitmapSize length / 8) := by
  by_contra hlt
  rw [Nat.not_le] at hlt
  obtain ⟨bs, hrun, hbits, -⟩ := h
  cases hrun
  have hlast : 64 * (bitmapSize length / 8) * 2048 * BDRV_SECTOR_SIZE < length := by
    rw [Nat.mul_assoc (64 * _)]
    exact lt_numChunks.mp hlt
  obtain ⟨bits, hb, -⟩ := hbits _ hlast
  rw [(Holds.tracked length).getDirty_none hlast] at hb
  · cases hb
  · have hdiv : ∀ w, 64 * w * 2048 / BDRV_SECTORS_PER_DIRTY_CHUNK / 64 = w := by
      intro w
      rw [BDRV_SECTORS_PER_DIRTY_CHUNK, Nat.mul_div_cancel _ (by decide), Nat.mul_div_cancel_left _ (by decide)]
    rw [hdiv]

def EveryFits (length : Nat) (ops : List DirtyOp) : Prop :=
  ∀ before op, before ++ [op] <+: ops → op.Fits length before

theorem everyFits_concat : EveryFits length (ops ++ [op]) ↔ EveryFits length ops ∧ op.Fits length ops := by
  constructor
  · intro h
    refine ⟨fun before o hpre => h before o (hpre.trans (List.prefix_append _ _)), ?_⟩
    exact h ops op (List.prefix_refl _)
  · rintro ⟨h, hop⟩ before o hpre
    rcases List.prefix_concat_iff.mp hpre with heq | hpre
    · obtain ⟨hbefore, hlast⟩ := List.append_inj' heq rfl
      cases hlast
      rwa [hbefore]
    · exact h before o hpre

theorem everyExact_concat : (∀ before, before <+: ops ++ [op] → Exact length before) ↔
    (∀ before, before <+: ops → Exact length before) ∧ Exact length (ops ++ [op]) := by
  simp only [List.prefix_concat_iff, forall_eq_or_imp]
  exact and_comm

theorem EveryFits.reaches (hwords : numChunks length ≤ 64 * (bitmapSize length / 8))
    (h : EveryFits length ops) : ∃ set bs, Reaches length ops set bs := by
  induction ops using List.reverseRecOn with
  | nil => exact ⟨_, _, .nil length⟩
  | append_singleton ops op ih =>
    rw [everyFits_concat] at h
    obtain ⟨set, bs, hr⟩ := ih h.1
    obtain ⟨bs', hr'⟩ := hr.concat hwords h.2.touched_lt
    exact ⟨_, _, hr'⟩

theorem everyExact_iff (hwords : numChunks length ≤ 64 * (bitmapSize length / 8))
    (hin : ∀ op ∈ ops, op.Inside length) :
    (∀ before, before <+: ops → Exact length before) ↔ EveryFits length ops := by
  induction ops using List.reverseRecOn with
  | nil =>
    have hnil : Exact length [] := ((Reaches.nil length).exact_iff_tells hwords).mpr .empty
    constructor
    · intro _ before op hpre
      simp at hpre
    · intro _ before hpre
      rw [List.prefix_nil.mp hpre]
      exact hnil
  | append_singleton ops op ih =>
    rw [everyExact_concat, everyFits_concat, ih fun o ho => hin o (List.mem_append_left _ ho)]
    apply and_congr_right
    intro hfits
    obtain ⟨set, bs, hr⟩ := hfits.reaches hwords
    have hexact := (ih fun o ho => hin o (List.mem_append_left _ ho)).mpr hfits ops (List.prefix_refl _)
    exact hr.exact_concat_iff hwords hexact (hin op (by simp))

/-- The bitmap is exact at every point of a history just when its words lie in the allocation and
every request fits what went before it. -/
theorem exact_iff (length : Nat) (ops : List DirtyOp) (h : ∀ op ∈ ops, op.Inside length) :
    (∀ before, before <+: ops → Exact length before) ↔
      numChunks length ≤ 64 * (bitmapSize length / 8) ∧ ∀ before op,
        before ++ [op] <+: ops → op.Fits length before := by
  constructor
  · intro hexact
    have hwords := words_of_exact (hexact [] (List.nil_prefix ..))
    exact ⟨hwords, (everyExact_iff hwords h).mp hexact⟩
  · rintro ⟨hwords, hfits⟩
    exact (everyExact_iff hwords h).mpr hfits

theorem EveryFits.nil (length : Nat) : EveryFits length [] := by
  intro before op hpre
  simp at hpre

/-- A device of 57 chunks has a bitmap of eight bytes, and nothing shares the bit of its chunk 30. -/
theorem exact_iff_chunk_30 : Exact 59768832 [.write 61440 2048, .reset 63487 1] := by
  refine (exact_iff 59768832 [.write 61440 2048, .reset 63487 1] ?_).mpr ?_ _ List.prefix_rfl
  · intro op hop
    simp only [List.mem_cons, List.not_mem_nil, or_false] at hop
    rcases hop with rfl | rfl <;> simp [DirtyOp.Inside, BDRV_SECTOR_SIZE, BDRV_SECTOR_BITS]
  · refine ⟨by decide, everyFits_concat.2 ⟨everyFits_concat.2 ⟨.nil _, ?_⟩, ?_⟩⟩
    · intro c hc
      rw [mem_touchedChunks] at hc
      have hc30 : c = 30 := by omega
      subst hc30
      exact ⟨by decide, .inl ⟨61440, by decide⟩, by unfold Unshared; decide⟩
    · intro c hc
      rw [mem_touchedChunks] at hc
      have hc30 : c = 30 := by omega
      subst hc30
      exact ⟨by decide, fun _ => ⟨63487, by decide⟩⟩

/-- On a device of 64 chunks a write to the first sector makes those of chunk 32 dirty too. -/
theorem write_dirties_chunk_32 :
    ¬ ∀ length ops, (∀ op ∈ ops, DirtyOp.Inside length op) → Exact length ops := by
  intro h
  obtain ⟨bs, hrun, hbits, -⟩ := h 67108864 [.write 0 1] (by simp [DirtyOp.Inside, BDRV_SECTOR_SIZE, BDRV_SECTOR_BITS])
  obtain ⟨bits, hb, hdirty⟩ := hbits 65536 (by decide)
  have hne : bits ≠ 0 := by
    cases hrun
    cases hb
    decide
  obtain ⟨x, -, hlt, hx⟩ := (dirty_write.mp (hdirty.mp hne)).resolve_left (not_dirty_nil _)
  rw [Nat.lt_one_iff] at hlt
  rw [hlt] at hx
  exact absurd hx (by decide)

end Colama.Qemu.Block

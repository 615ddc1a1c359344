import Colama.Qemu.Block.MigrationSpec

namespace Colama.Qemu.Block

open Lib

variable {α : Type} {length words : Nat} {set : Finset Nat} {bs : BlockDriverState}

theorem mul_le_of_le_shift {x : Nat} (h : x ≤ length >>> BDRV_SECTOR_BITS) : x * BDRV_SECTOR_SIZE ≤ length := by
  rw [Nat.shiftRight_eq_div_pow] at h
  exact (Nat.le_div_iff_mul_le (by decide)).mp h

theorem mul_lt_of_lt_shift {x : Nat} (h : x < length >>> BDRV_SECTOR_BITS) : x * BDRV_SECTOR_SIZE < length :=
  (Nat.mul_lt_mul_of_pos_right (Nat.lt_succ_self x) (by decide)).trans_le (mul_le_of_le_shift (Nat.succ_le_of_lt h))

theorem le_shift_of_mul_le {x : Nat} (h : x * BDRV_SECTOR_SIZE ≤ length) : x ≤ length >>> BDRV_SECTOR_BITS := by
  rw [Nat.shiftRight_eq_div_pow]
  exact (Nat.le_div_iff_mul_le (by decide)).mpr h

theorem chunk_in_words (hwords : numChunks length ≤ 64 * words) {sector : Nat}
    (h : sector < length >>> BDRV_SECTOR_BITS) : sector / BDRV_SECTORS_PER_DIRTY_CHUNK / 64 < words := by
  have hchunk := sector_lt_numChunks (mul_lt_of_lt_shift h)
  omega

theorem Holds.scanDirty (h : Holds length words set bs) (hwords : numChunks length ≤ 64 * words) (sector : Nat)
    (haligned : sector % BDRV_SECTORS_PER_DIRTY_CHUNK = 0) :
    ∃ sector' dirty, Block.scanDirty bs (length >>> BDRV_SECTOR_BITS) sector = some (sector', dirty) ∧
      sector ≤ sector' ∧ sector' % BDRV_SECTORS_PER_DIRTY_CHUNK = 0 ∧
      (∀ c, sector ≤ c * BDRV_SECTORS_PER_DIRTY_CHUNK → c * BDRV_SECTORS_PER_DIRTY_CHUNK < sector' → cell c ∉ set) ∧
      (dirty = true → sector' < length >>> BDRV_SECTOR_BITS ∧ cell (chunkOf sector') ∈ set) ∧
      (dirty = false → length >>> BDRV_SECTOR_BITS ≤ sector') := by
  fun_induction Block.scanDirty bs (length >>> BDRV_SECTOR_BITS) sector with
  | case1 sector hlt hnone =>
    obtain ⟨bits, hbits, -⟩ := h.getDirty (mul_lt_of_lt_shift hlt) (chunk_in_words hwords hlt)
    rw [hbits] at hnone
    cases hnone
  | case2 sector hlt bits hbits hne =>
    obtain ⟨bits', hbits', hiff⟩ := h.getDirty (mul_lt_of_lt_shift hlt) (chunk_in_words hwords hlt)
    rw [hbits] at hbits'
    cases hbits'
    exact ⟨sector, true, rfl, le_rfl, haligned, fun c hc hc' => absurd hc' (Nat.not_lt.mpr hc),
      fun _ => ⟨hlt, hiff.mp hne⟩, (by rintro ⟨⟩)⟩
  | case3 sector hlt bits hbits hz ih =>
    obtain ⟨bits', hbits', hiff⟩ := h.getDirty (mul_lt_of_lt_shift hlt) (chunk_in_words hwords hlt)
    rw [hbits] at hbits'
    cases hbits'
    have hclean : cell (sector / BDRV_SECTORS_PER_DIRTY_CHUNK) ∉ set := fun hmem => hz (hiff.mpr hmem)
    obtain ⟨sector', dirty, hscan, hle, haligned', hskip, hdirty, hend⟩ := ih (by rw [Nat.add_mod_right, haligned])
    refine ⟨sector', dirty, hscan, by omega, haligned', ?_, hdirty, hend⟩
    intro c hc hc'
    rcases Nat.lt_or_ge (c * BDRV_SECTORS_PER_DIRTY_CHUNK) (sector + BDRV_SECTORS_PER_DIRTY_CHUNK) with hnear | hfar
    · have heq : c = sector / BDRV_SECTORS_PER_DIRTY_CHUNK := by
        simp only [BDRV_SECTORS_PER_DIRTY_CHUNK] at *
        omega
      rwa [heq]
    · exact hskip c hfar hc'
  | case4 sector hge =>
    exact ⟨sector, false, rfl, le_rfl, haligned, fun c hc hc' => absurd hc' (Nat.not_lt.mpr hc), (by rintro ⟨⟩),
      fun _ => Nat.not_lt.mp hge⟩

theorem touchedChunks_block {sector : Nat} (haligned : sector % BDRV_SECTORS_PER_DIRTY_CHUNK = 0) :
    touchedChunks sector BDRV_SECTORS_PER_DIRTY_CHUNK = [chunkOf sector] := by
  have hlast : (sector + BDRV_SECTORS_PER_DIRTY_CHUNK - 1) / BDRV_SECTORS_PER_DIRTY_CHUNK =
      sector / BDRV_SECTORS_PER_DIRTY_CHUNK := by
    simp only [BDRV_SECTORS_PER_DIRTY_CHUNK] at *
    omega
  rw [touchedChunks, hlast]
  simp [chunkOf]

theorem Holds.resetDirty (h : Holds length words set bs) (hwords : numChunks length ≤ 64 * words) {sector : Nat}
    (haligned : sector % BDRV_SECTORS_PER_DIRTY_CHUNK = 0) (hlt : sector < length >>> BDRV_SECTOR_BITS) :
    ∃ bs', Block.resetDirty bs sector BDRV_SECTORS_PER_DIRTY_CHUNK = some bs' ∧
      Holds length words (set.erase (cell (chunkOf sector))) bs' := by
  obtain ⟨bs', hs, h'⟩ := h.setDirtyChunk_false (chunk_in_words hwords hlt)
  refine ⟨bs', ?_, h'⟩
  rw [Block.resetDirty, setDirtyBitmap, touchedChunks_block haligned, List.foldlM_cons]
  simp only [chunkOf, hs, List.foldlM_nil]
  rfl

theorem cell_eq_iff {c c' : Nat} : cell c = cell c' ↔ SameBit c c' := by
  unfold cell SameBit
  omega

theorem covered_touched (sector nb : Nat) : ∀ c ∈ coveredChunks sector nb, c ∈ touchedChunks sector nb :=
  fun _ hc => touched_of_covers (mem_coveredChunks.mp hc)

theorem covered_lt {sector nb c total : Nat} (h : sector + nb ≤ total) (hc : c ∈ coveredChunks sector nb) :
    c * BDRV_SECTORS_PER_DIRTY_CHUNK < total := by
  obtain ⟨x, -, hx, rfl⟩ := mem_coveredChunks.mp hc
  exact (Nat.div_mul_le_self x BDRV_SECTORS_PER_DIRTY_CHUNK).trans_lt (hx.trans_le h)

end Colama.Qemu.Block

import Colama.Qemu.Block.Dirty

namespace Colama.Qemu.Block

open Lib.PackedFlags

theorem chunkMask_getLsbD (bit i : Nat) : (chunkMask bit).getLsbD i =
    (decide (i < 64) && (decide (i = bit % 32) || decide (bit % 32 = 31) && decide (31 ≤ i))) := by
  simp only [chunkMask, BitVec.getLsbD_signExtend, BitVec.msb_eq_getLsbD_last, BitVec.getLsbD_shiftLeft,
    BitVec.getLsbD_one]
  have hlt : bit % 32 < 32 := Nat.mod_lt _ (by decide)
  generalize bit % 32 = b at *
  by_cases hi : i < 64
  · by_cases hi' : i < 32
    · simp only [hi, hi', if_true]
      rw [Bool.eq_iff_iff]
      simp
      omega
    · simp only [hi, hi', if_false]
      rw [Bool.eq_iff_iff]
      simp
      omega
  · simp [hi]

/-- The upper half repeats bit 31. -/
def Smeared (word : BitVec 64) : Prop := ∀ i, 31 ≤ i → i < 64 → word.getLsbD i = word.getLsbD 31

theorem Smeared.zero : Smeared 0 := fun i _ _ => by simp

theorem Smeared.mask (bit : Nat) : Smeared (chunkMask bit) := by
  intro i hi hi'
  rw [chunkMask_getLsbD, chunkMask_getLsbD, Bool.eq_iff_iff]
  simp
  omega

theorem Smeared.or {v w : BitVec 64} (hv : Smeared v) (hw : Smeared w) : Smeared (v ||| w) := by
  intro i hi hi'
  rw [BitVec.getLsbD_or, BitVec.getLsbD_or, hv i hi hi', hw i hi hi']

theorem Smeared.and_not {v w : BitVec 64} (hv : Smeared v) (hw : Smeared w) : Smeared (v &&& ~~~w) := by
  intro i hi hi'
  rw [BitVec.getLsbD_and, BitVec.getLsbD_not, BitVec.getLsbD_and, BitVec.getLsbD_not, hv i hi hi',
    hw i hi hi']
  simp [hi']

theorem and_mask_getLsbD {w : BitVec 64} (hw : Smeared w) (bit : Nat) {i : Nat} (hi : i < 64)
    (h : (w &&& chunkMask bit).getLsbD i = true) : w.getLsbD (bit % 32) = true := by
  rw [BitVec.getLsbD_and, chunkMask_getLsbD] at h
  simp only [Bool.and_eq_true, Bool.or_eq_true, decide_eq_true_eq] at h
  rcases h.2.2 with heq | ⟨hb, hge⟩
  · rw [← heq]
    exact h.1
  · rw [hb, ← hw i hge hi]
    exact h.1

theorem mask_self (w : BitVec 64) (bit : Nat) :
    (w &&& chunkMask bit).getLsbD (bit % 32) = w.getLsbD (bit % 32) := by
  have hlt : bit % 32 < 64 := (Nat.mod_lt _ (by decide)).trans (by decide)
  rw [BitVec.getLsbD_and, chunkMask_getLsbD]
  simp [hlt]

theorem and_mask_ne_zero {w : BitVec 64} (hw : Smeared w) (bit : Nat) :
    w &&& chunkMask bit ≠ 0 ↔ w.getLsbD (bit % 32) = true := by
  constructor
  · intro h
    by_contra hbit
    apply h
    apply BitVec.eq_of_getLsbD_eq
    intro i hi
    rw [BitVec.ofNat_eq_ofNat, BitVec.getLsbD_zero]
    cases hb : (w &&& chunkMask bit).getLsbD i with
    | false => rfl
    | true => exact absurd (and_mask_getLsbD hw bit hi hb) hbit
  · intro h hz
    rw [← mask_self, hz] at h
    simp at h

/-- What `bdrv_get_dirty` loses by returning an int is only the copies of the sign. -/
theorem truncate_and_mask_ne_zero {w : BitVec 64} (hw : Smeared w) (bit : Nat) :
    (w &&& chunkMask bit).truncate 32 ≠ 0 ↔ w.getLsbD (bit % 32) = true := by
  have hlt : bit % 32 < 32 := Nat.mod_lt _ (by decide)
  constructor
  · intro h
    apply (and_mask_ne_zero hw bit).mp
    intro hz
    apply h
    rw [hz]
    rfl
  · intro h hz
    have hbit := congrArg (fun v => v.getLsbD (bit % 32)) hz
    simp only [BitVec.truncate_eq_setWidth, BitVec.getLsbD_setWidth, mask_self, h, hlt] at hbit
    simp at hbit

theorem or_mask_getLsbD (w : BitVec 64) (bit : Nat) {i : Nat} (hi : i < 32) :
    (w ||| chunkMask bit).getLsbD i = (w.getLsbD i || decide (i = bit % 32)) := by
  rw [BitVec.getLsbD_or, chunkMask_getLsbD]
  apply congrArg (w.getLsbD i || ·)
  rw [Bool.eq_iff_iff]
  simp
  omega

theorem and_not_mask_getLsbD (w : BitVec 64) (bit : Nat) {i : Nat} (hi : i < 32) :
    (w &&& ~~~chunkMask bit).getLsbD i = (w.getLsbD i && !decide (i = bit % 32)) := by
  rw [BitVec.getLsbD_and, BitVec.getLsbD_not, chunkMask_getLsbD]
  apply congrArg (w.getLsbD i && ·)
  rw [Bool.eq_iff_iff]
  simp
  omega

/-- The bit, of those that can be told apart, in which the code keeps a chunk. -/
def cell (chunk : Nat) : Nat := 32 * (chunk / 64) + chunk % 32

theorem cell_div (chunk : Nat) : cell chunk / 32 = chunk / 64 := by
  unfold cell
  omega

theorem cell_mod (chunk : Nat) : cell chunk % 32 = chunk % 64 % 32 := by
  unfold cell
  omega

def bitOf (bitmap : List (BitVec 64)) (k : Nat) : Bool :=
  match bitmap[k / 32]? with
  | some word => word.getLsbD (k % 32)
  | none => false

/-- The bitmap of `words` words has the bits of `set`, and the count is theirs. -/
structure Holds (length words : Nat) (set : Finset Nat) (bs : BlockDriverState) : Prop where
  length : bs.length = length
  bitmap : ∃ bitmap, bs.dirtyBitmap = some bitmap ∧ bitmap.length = words ∧
    (∀ w ∈ bitmap, Smeared w) ∧ ∀ k, k ∈ set ↔ bitOf bitmap k = true
  count : bs.dirtyCount = set.card

variable {length words : Nat} {set : Finset Nat} {bs : BlockDriverState}

theorem Holds.tracked (length : Nat) : Holds length (bitmapSize length / 8) ∅ (tracked length) where
  length := rfl
  bitmap := by
    refine ⟨_, rfl, List.length_replicate, ?_, ?_⟩
    · intro w hw
      rw [List.eq_of_mem_replicate hw]
      exact Smeared.zero
    · intro k
      simp only [Finset.notMem_empty, false_iff, bitOf, List.getElem?_replicate]
      split
      · rename_i h
        split at h
        · cases h
          simp
        · cases h
      · simp
  count := rfl

theorem bitOf_set (bitmap : List (BitVec 64)) {idx : Nat} (hidx : idx < bitmap.length) (w : BitVec 64)
    (k : Nat) :
    bitOf (bitmap.set idx w) k = if k / 32 = idx then w.getLsbD (k % 32) else bitOf bitmap k := by
  unfold bitOf
  by_cases h : k / 32 = idx
  · subst h
    rw [List.getElem?_set_self hidx, if_pos rfl]
  · rw [List.getElem?_set_ne (Ne.symm h), if_neg h]

theorem bitOf_cell {bitmap : List (BitVec 64)} {chunk : Nat} {w : BitVec 64}
    (h : bitmap[chunk / 64]? = some w) : bitOf bitmap (cell chunk) = w.getLsbD (chunk % 64 % 32) := by
  rw [bitOf, cell_div, cell_mod, h]

theorem setDirtyChunk_none (dirty : Bool) (h : Holds length words set bs) {chunk : Nat}
    (hc : words ≤ chunk / 64) : setDirtyChunk dirty bs chunk = none := by
  obtain ⟨bitmap, hb, hlen, -, -⟩ := h.bitmap
  have hnone : bitmap[chunk / 64]? = none := List.getElem?_eq_none (hlen ▸ hc)
  simp [setDirtyChunk, hb, hnone]

theorem eq_cell_iff {chunk k : Nat} : k = cell chunk ↔ k / 32 = chunk / 64 ∧ k % 32 = chunk % 64 % 32 := by
  unfold cell
  omega

/-- Another word in the place of that of `chunk`, with no other bit changed. -/
theorem Holds.put (h : Holds length words set bs) {bitmap : List (BitVec 64)} {chunk : Nat}
    {val w : BitVec 64} {set' : Finset Nat} {count : Int} (hb : bs.dirtyBitmap = some bitmap)
    (hval : bitmap[chunk / 64]? = some val) (hw : Smeared w)
    (hother : ∀ i < 32, i ≠ chunk % 64 % 32 → w.getLsbD i = val.getLsbD i)
    (hself : cell chunk ∈ set' ↔ w.getLsbD (chunk % 64 % 32) = true)
    (hset : ∀ k ≠ cell chunk, k ∈ set' ↔ k ∈ set) (hcount : count = set'.card) :
    Holds length words set'
      { bs with dirtyBitmap := some (bitmap.set (chunk / 64) w), dirtyCount := count } where
  length := h.length
  count := hcount
  bitmap := by
    obtain ⟨bitmap', hb', hlen, hsm, hbits⟩ := h.bitmap
    rw [hb] at hb'
    cases hb'
    have hidx : chunk / 64 < bitmap.length := (List.getElem?_eq_some_iff.mp hval).1
    refine ⟨_, rfl, by rw [List.length_set, hlen], ?_, ?_⟩
    · intro v hv
      rcases List.mem_or_eq_of_mem_set hv with hv | rfl
      · exact hsm v hv
      · exact hw
    · intro k
      rw [bitOf_set bitmap hidx]
      by_cases hk : k = cell chunk
      · subst hk
        rw [cell_div, if_pos rfl, cell_mod]
        exact hself
      · rw [hset k hk, hbits]
        split
        · rename_i hdiv
          have hmod : k % 32 ≠ chunk % 64 % 32 := fun hmod => hk (eq_cell_iff.2 ⟨hdiv, hmod⟩)
          rw [hother _ (Nat.mod_lt _ (by decide)) hmod, bitOf, hdiv, hval]
        · rfl

theorem Holds.word (h : Holds length words set bs) {chunk : Nat} (hc : chunk / 64 < words) :
    ∃ bitmap val, bs.dirtyBitmap = some bitmap ∧ bitmap[chunk / 64]? = some val ∧ Smeared val ∧
      (cell chunk ∈ set ↔ val.getLsbD (chunk % 64 % 32) = true) := by
  obtain ⟨bitmap, hb, hlen, hsm, hbits⟩ := h.bitmap
  have hidx : chunk / 64 < bitmap.length := hlen ▸ hc
  have hval : bitmap[chunk / 64]? = some bitmap[chunk / 64] := List.getElem?_eq_getElem hidx
  refine ⟨bitmap, _, hb, hval, hsm _ (List.getElem_mem hidx), ?_⟩
  rw [hbits, bitOf_cell hval]

theorem Holds.setDirtyChunk_true (h : Holds length words set bs) {chunk : Nat}
    (hc : chunk / 64 < words) :
    ∃ bs', setDirtyChunk true bs chunk = some bs' ∧ Holds length words (insert (cell chunk) set) bs' := by
  obtain ⟨bitmap, val, hb, hval, hs, hcell⟩ := h.word hc
  have hlt : chunk % 64 % 32 < 32 := Nat.mod_lt _ (by decide)
  by_cases hz : val &&& chunkMask (chunk % 64) = 0
  · have hnot : cell chunk ∉ set := fun hmem => (and_mask_ne_zero hs _).mpr (hcell.mp hmem) hz
    refine ⟨{ bs with dirtyBitmap := _, dirtyCount := bs.dirtyCount + 1 }, ?_,
      h.put hb hval (hs.or (Smeared.mask (chunk % 64))) ?_ ?_ ?_ ?_⟩
    · simp only [setDirtyChunk, hb, hval, if_true, hz, Option.bind_eq_bind, Option.bind_some]
    · intro i hi hne
      rw [or_mask_getLsbD val _ hi, decide_eq_false hne, Bool.or_false]
    · rw [or_mask_getLsbD val _ hlt]
      simp
    · intro k hk
      simp [hk]
    · rw [Finset.card_insert_of_notMem hnot, h.count]
      simp
  · have hmem : cell chunk ∈ set := hcell.mpr ((and_mask_ne_zero hs _).mp hz)
    refine ⟨{ bs with dirtyBitmap := _ }, ?_, h.put hb hval hs (fun _ _ _ => rfl) ?_ ?_ ?_⟩
    · simp only [setDirtyChunk, hb, hval, if_true, hz, if_false, Option.bind_eq_bind, Option.bind_some]
    · rw [Finset.insert_eq_of_mem hmem, hcell]
    · intro k hk
      rw [Finset.insert_eq_of_mem hmem]
    · rw [Finset.insert_eq_of_mem hmem, h.count]

theorem Holds.setDirtyChunk_false (h : Holds length words set bs) {chunk : Nat}
    (hc : chunk / 64 < words) :
    ∃ bs', setDirtyChunk false bs chunk = some bs' ∧ Holds length words (set.erase (cell chunk)) bs' := by
  obtain ⟨bitmap, val, hb, hval, hs, hcell⟩ := h.word hc
  have hlt : chunk % 64 % 32 < 32 := Nat.mod_lt _ (by decide)
  by_cases hz : val &&& chunkMask (chunk % 64) ≠ 0
  · have hmem : cell chunk ∈ set := hcell.mpr ((and_mask_ne_zero hs _).mp hz)
    refine ⟨{ bs with dirtyBitmap := _, dirtyCount := bs.dirtyCount - 1 }, ?_,
      h.put hb hval (hs.and_not (Smeared.mask (chunk % 64))) ?_ ?_ ?_ ?_⟩
    · simp only [setDirtyChunk, hb, hval, Bool.false_eq_true, if_false, Option.bind_eq_bind, Option.bind_some]
      rw [if_pos hz]
    · intro i hi hne
      rw [and_not_mask_getLsbD val _ hi, decide_eq_false hne, Bool.not_false, Bool.and_true]
    · rw [and_not_mask_getLsbD val _ hlt]
      simp
    · intro k hk
      simp [hk]
    · have hpos : 0 < set.card := Finset.card_pos.mpr ⟨_, hmem⟩
      rw [Finset.card_erase_of_mem hmem, h.count]
      omega
  · have hnot : cell chunk ∉ set := fun hmem => hz ((and_mask_ne_zero hs _).mpr (hcell.mp hmem))
    refine ⟨{ bs with dirtyBitmap := _ }, ?_, h.put hb hval hs (fun _ _ _ => rfl) ?_ ?_ ?_⟩
    · simp only [setDirtyChunk, hb, hval, Bool.false_eq_true, if_false, hz, Option.bind_eq_bind,
        Option.bind_some]
    · rw [Finset.erase_eq_of_notMem hnot, hcell]
    · intro k hk
      rw [Finset.erase_eq_of_notMem hnot]
    · rw [Finset.erase_eq_of_notMem hnot, h.count]

end Colama.Qemu.Block

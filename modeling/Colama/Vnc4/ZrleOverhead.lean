import Colama.Vnc4.ZrleSpec

namespace Colama.Vnc4.Zrle

open Lib
open Xvnc (Bpp Card)

variable {bpp : Bpp} {cp : CPixel}

/-- The runs of equal pixels, in the first of which `len` pixels have been seen. -/
@[grind] def runsFrom (pix : Card bpp) (len : Nat) : List (Card bpp) → List (Card bpp × Nat)
  | [] => [(pix, len)]
  | next :: ptr => if next = pix then runsFrom pix (len + 1) ptr else (pix, len) :: runsFrom next 1 ptr

def runsOf : List (Card bpp) → List (Card bpp × Nat)
  | [] => []
  | pix :: ptr => runsFrom pix 1 ptr

def longRuns (rs : List (Card bpp × Nat)) : Nat := rs.countP fun r => decide (2 ≤ r.2)

def singles (rs : List (Card bpp × Nat)) : Nat := rs.countP fun r => !decide (2 ≤ r.2)

/-- The bytes that run lengths from 256 on take beyond what is estimated. -/
def extra (rs : List (Card bpp × Nat)) : Nat := (rs.map fun r => (r.2 - 1) / 255).sum

section Runs

variable {pix : Card bpp} {len : Nat} {ptr : List (Card bpp)}

theorem runsFrom_pos (hlen : 0 < len) : ∀ r ∈ runsFrom pix len ptr, 0 < r.2 := by
  induction ptr generalizing pix len with
  | nil => simpa [runsFrom] using hlen
  | cons next ptr ih =>
    rw [runsFrom]
    split
    · exact ih (Nat.succ_pos len)
    · exact List.forall_mem_cons.mpr ⟨hlen, ih Nat.one_pos⟩

theorem runsFrom_sum : ((runsFrom pix len ptr).map Prod.snd).sum = len + ptr.length := by
  induction ptr generalizing pix len with
  | nil => simp [runsFrom]
  | cons next ptr ih =>
    rw [runsFrom, List.length_cons]
    split
    · rw [ih]
      omega
    · rw [List.map_cons, List.sum_cons, ih]
      omega

theorem mem_runsFrom {a : Card bpp} : a ∈ (runsFrom pix len ptr).map Prod.fst ↔ a ∈ pix :: ptr := by
  induction ptr generalizing pix len with
  | nil => simp [runsFrom]
  | cons next ptr ih =>
    rw [runsFrom]
    split
    · rename_i heq
      rw [ih, heq]
      simp
    · rw [List.map_cons, List.mem_cons, ih, List.mem_cons (b := pix)]

theorem longRuns_cons (r : Card bpp × Nat) (rs : List (Card bpp × Nat)) :
    longRuns (r :: rs) = longRuns rs + if 2 ≤ r.2 then 1 else 0 := by
  simp [longRuns, List.countP_cons]

theorem singles_cons (r : Card bpp × Nat) (rs : List (Card bpp × Nat)) :
    singles (r :: rs) = singles rs + if 2 ≤ r.2 then 0 else 1 := by
  rw [singles, List.countP_cons, ← singles]
  by_cases h : 2 ≤ r.2
  · rw [decide_eq_true h, if_pos h]
    rfl
  · rw [decide_eq_false h, if_neg h]
    rfl

theorem extra_cons (r : Card bpp × Nat) (rs : List (Card bpp × Nat)) :
    extra (r :: rs) = extra rs + (r.2 - 1) / 255 := by
  rw [extra, List.map_cons, List.sum_cons, ← extra, Nat.add_comm]

theorem longRuns_add_singles (rs : List (Card bpp × Nat)) : longRuns rs + singles rs = rs.length := by
  induction rs with
  | nil => rfl
  | cons r rs ih =>
    rw [longRuns_cons, singles_cons, List.length_cons]
    split
    · omega
    · omega

/-- The first loop puts the colour of each run into the palette. -/
theorem countRuns_eq {pastEnd : Card bpp} (hend : pastEnd ≠ (pix :: ptr).getLast (List.cons_ne_nil pix ptr))
    (hlen : 0 < len) (ph : PaletteHelper bpp) (runs singlePixels : Nat) :
    countRuns pix (decide (2 ≤ len)) (ptr ++ [pastEnd]) ph runs singlePixels =
      (((runsFrom pix len ptr).map Prod.fst).foldlM PaletteHelper.insert ph).map fun ph' =>
        (ph', runs + longRuns (runsFrom pix len ptr), singlePixels + singles (runsFrom pix len ptr)) := by
  induction ptr generalizing pix len ph runs singlePixels with
  | nil =>
    have hne : pastEnd ≠ pix := hend
    rw [List.nil_append, countRuns, if_neg hne, runsFrom, longRuns_cons, singles_cons]
    by_cases h : 2 ≤ len
    · cases hins : ph.insert pix <;> simp [countRuns, longRuns, singles, h, hins]
    · cases hins : ph.insert pix <;> simp [countRuns, longRuns, singles, h, hins]
  | cons next ptr ih =>
    rw [List.getLast_cons (List.cons_ne_nil next ptr)] at hend
    rw [List.cons_append, countRuns, runsFrom]
    by_cases hnext : next = pix
    · subst hnext
      have hagain : (true : Bool) = decide (2 ≤ len + 1) := (decide_eq_true (by omega)).symm
      rw [if_pos rfl, if_pos rfl, hagain, ih hend (Nat.succ_pos len)]
    · rw [if_neg hnext, if_neg hnext, List.map_cons, List.foldlM_cons, longRuns_cons, singles_cons]
      cases hins : ph.insert pix with
      | none => rfl
      | some ph₁ =>
        dsimp only [Option.bind_eq_bind, Option.bind_some]
        have hrest : ∀ r s, countRuns next false (ptr ++ [pastEnd]) ph₁ r s = _ := fun r s =>
          ih hend Nat.one_pos ph₁ r s
        by_cases h : 2 ≤ len
        · rw [decide_eq_true h, if_pos rfl, hrest, if_pos h, if_pos h]
          simp only [Nat.add_assoc, Nat.add_comm 1, Nat.add_zero]
        · rw [decide_eq_false h, if_neg Bool.false_ne_true, hrest, if_neg h, if_neg h]
          simp only [Nat.add_assoc, Nat.add_comm 1, Nat.add_zero]

end Runs

section Colours

variable {ph : PaletteHelper bpp} {seen : Set (Card bpp)}

theorem insert_cases (h : ph.Sound seen) (pix : Card bpp) : ∃ ph', ph.insert pix = some ph' ∧
    (ph.size < 127 ∧ pix ∈ ph.palette ∧ ph' = ph ∨
      ph.size < 127 ∧ pix ∉ ph.palette ∧ ph'.palette = ph.palette ++ [pix] ∧ ph'.size = ph.size + 1 ∨
      127 ≤ ph.size ∧ ph'.palette = ph.palette ∧ ph'.size = ph.size + 1) := by
  rw [PaletteHelper.insert]
  by_cases hsize : ph.size < PaletteHelper.MAX_SIZE
  · obtain ⟨i, hslot, -, hfound, -⟩ := h.slot pix
    rw [if_pos hsize, hslot, Option.map_some]
    refine ⟨_, rfl, ?_⟩
    by_cases hindex : ph.index i = 255
    · have hnone := PaletteHelper.slots_eq_none.mpr hindex
      have hnew : pix ∉ ph.palette := (hfound.resolve_right fun h => by rw [hnone] at h; cases h).2
      rw [if_neg (not_not.mpr hindex)]
      exact .inr (.inl ⟨hsize, hnew, rfl, rfl⟩)
    · have hsome := hfound.resolve_left fun hfree => hindex (PaletteHelper.slots_eq_none.mp hfree.1)
      rw [if_pos hindex]
      exact .inl ⟨hsize, List.mem_toFinset.mp (h.hashed.mem i pix hsome), rfl⟩
  · rw [if_neg hsize]
    exact ⟨_, rfl, .inr (.inr ⟨not_lt.mp hsize, rfl, rfl⟩)⟩

/-- The palette after some colours. Its size is their number, up to the first colour after 127 different ones. -/
structure Collected (ph : PaletteHelper bpp) (colours : List (Card bpp)) : Prop where
  sound : ph.Sound {a | a ∈ colours}
  nodup : ph.palette.Nodup
  mem : ∀ a ∈ ph.palette, a ∈ colours
  size : if colours.dropLast.toFinset.card < 127 then ph.size = colours.toFinset.card else 128 ≤ ph.size

theorem card_dropLast_le (colours : List (Card bpp)) : colours.dropLast.toFinset.card ≤ colours.toFinset.card := by
  apply Finset.card_le_card
  intro a ha
  exact List.mem_toFinset.mpr (List.dropLast_subset _ (List.mem_toFinset.mp ha))

theorem Collected.toFinset_eq {colours : List (Card bpp)} (h : Collected ph colours) (hsize : ph.size ≤ 127) :
    ph.palette.toFinset = colours.toFinset := by
  ext a
  rw [List.mem_toFinset, List.mem_toFinset]
  exact ⟨h.mem a, h.sound.all hsize a⟩

theorem collected_nil : Collected (PaletteHelper.empty bpp) [] :=
  ⟨PaletteHelper.Sound.empty.mono (fun _ h => absurd h List.not_mem_nil), List.nodup_nil,
    fun _ h => absurd h List.not_mem_nil, rfl⟩

theorem Collected.insert {colours : List (Card bpp)} (h : Collected ph colours) (pix : Card bpp) :
    ∃ ph', ph.insert pix = some ph' ∧ Collected ph' (colours ++ [pix]) := by
  obtain ⟨ph', hinsert, hsound, -⟩ := h.sound.insert pix
  obtain ⟨ph'', hinsert', hcases⟩ := insert_cases h.sound pix
  rw [hinsert] at hinsert'
  cases hinsert'
  have hsound' : ph'.Sound {a | a ∈ colours ++ [pix]} := by
    apply hsound.mono
    intro a ha
    obtain ha | ha := List.mem_append.mp ha
    · exact .inr ha
    · exact .inl (List.mem_singleton.mp ha)
  have hold := h.size
  have hle := card_dropLast_le colours
  have hdrop : (colours ++ [pix]).dropLast = colours := List.dropLast_concat
  have happend : (colours ++ [pix]).toFinset = Insert.insert pix colours.toFinset := by
    ext a
    simp
  refine ⟨ph', hinsert, ?_⟩
  obtain ⟨hsize, hmem, rfl⟩ | ⟨hsize, hnew, hpalette, hsize'⟩ | ⟨hsize, hpalette, hsize'⟩ := hcases
  · refine ⟨hsound', h.nodup, fun a ha => List.mem_append_left _ (h.mem a ha), ?_⟩
    have hpix : pix ∈ colours.toFinset := List.mem_toFinset.mpr (h.mem pix hmem)
    rw [hdrop, happend, Finset.insert_eq_self.mpr hpix]
    split at hold
    · rw [if_pos (by omega), hold]
    · omega
  · have hpix : pix ∉ colours.toFinset := by
      rw [← h.toFinset_eq hsize.le, List.mem_toFinset]
      exact hnew
    refine ⟨hsound', ?_, fun a ha => ?_, ?_⟩
    · rw [hpalette]
      exact List.Nodup.append h.nodup (List.nodup_singleton pix) (by simpa using hnew)
    · rw [hpalette] at ha
      obtain ha | ha := List.mem_append.mp ha
      · exact List.mem_append_left _ (h.mem a ha)
      · exact List.mem_append_right _ ha
    · rw [hdrop, happend, Finset.card_insert_of_notMem hpix]
      split at hold
      · rw [if_pos (by omega), hsize', hold]
      · omega
  · refine ⟨hsound', ?_, fun a ha => ?_, ?_⟩
    · rw [hpalette]
      exact h.nodup
    · rw [hpalette] at ha
      exact List.mem_append_left _ (h.mem a ha)
    · rw [hdrop]
      split at hold
      · rw [if_neg (by omega)]
        omega
      · rw [if_neg (by omega)]
        omega

theorem collected (colours : List (Card bpp)) :
    ∃ ph, colours.foldlM PaletteHelper.insert (PaletteHelper.empty bpp) = some ph ∧ Collected ph colours := by
  induction colours using List.reverseRecOn with
  | nil => exact ⟨_, rfl, collected_nil⟩
  | append_singleton colours pix ih =>
    obtain ⟨ph, hfold, hcollected⟩ := ih
    obtain ⟨ph', hinsert, hcollected'⟩ := hcollected.insert pix
    refine ⟨ph', ?_, hcollected'⟩
    rw [List.foldlM_append, hfold]
    dsimp only [Option.bind_eq_bind, Option.bind_some]
    rw [List.foldlM_cons, hinsert]
    rfl

end Colours

section Lengths

variable {ph : PaletteHelper bpp} {usePalette : Bool} {pix : Card bpp} {len : Nat} {ptr : List (Card bpp)}
  {bytes : List UInt8}

theorem writeRuns_length {f : Nat → Nat} (hlen : 0 < len)
    (hrun : ∀ pix len bs, 0 < len → writeRun cp ph usePalette pix len = some bs → bs.length = f len)
    (h : writeRuns cp ph usePalette pix len ptr = some bytes) :
    bytes.length = ((runsFrom pix len ptr).map fun r => f r.2).sum := by
  induction ptr generalizing pix len bytes with
  | nil => simpa [runsFrom] using hrun pix len bytes hlen h
  | cons next ptr ih =>
    rw [writeRuns] at h
    rw [runsFrom]
    split at h
    · rename_i heq
      rw [if_pos heq]
      exact ih (Nat.succ_pos len) h
    · rename_i hne
      obtain ⟨run, hfirst, h⟩ := Option.bind_eq_some_iff.mp h
      obtain ⟨rest, hrest, h⟩ := Option.bind_eq_some_iff.mp h
      cases h
      rw [if_neg hne, List.length_append, hrun pix len run hlen hfirst, ih Nat.one_pos hrest, List.map_cons,
        List.sum_cons]

theorem writeRun_plain_length (hcp : cp.Suits bpp) (h : writeRun cp ph false pix len = some bytes) :
    bytes.length = cp.size bpp + 1 + (len - 1) / 255 := by
  cases h
  rw [List.length_append, CPixel.length_write hcp, length_writeLength]
  omega

theorem writeRun_palette_length (hlen : 0 < len) (h : writeRun cp ph true pix len = some bytes) :
    bytes.length = (if 2 ≤ len then 2 else 1) + (len - 1) / 255 := by
  rw [writeRun, if_pos rfl] at h
  obtain ⟨index, -, rfl⟩ := Option.map_eq_some_iff.mp h
  by_cases hshort : len ≤ 2
  · rw [if_pos hshort, Nat.div_eq_of_lt (by omega)]
    by_cases htwo : len = 2
    · simp [htwo]
    · have hone : len = 1 := by omega
      simp [hone]
  · rw [if_neg hshort, if_pos (by omega), List.length_cons, length_writeLength]
    omega

theorem sum_plain (size : Nat) (rs : List (Card bpp × Nat)) :
    (rs.map fun r => size + 1 + (r.2 - 1) / 255).sum = (size + 1) * rs.length + extra rs := by
  induction rs with
  | nil => rfl
  | cons r rs ih =>
    rw [List.map_cons, List.sum_cons, ih, extra_cons, List.length_cons, Nat.mul_succ]
    omega

theorem sum_palette (rs : List (Card bpp × Nat)) :
    (rs.map fun r => (if 2 ≤ r.2 then 2 else 1) + (r.2 - 1) / 255).sum =
      2 * longRuns rs + singles rs + extra rs := by
  induction rs with
  | nil => rfl
  | cons r rs ih =>
    rw [List.map_cons, List.sum_cons, ih, longRuns_cons, singles_cons, extra_cons]
    split
    · omega
    · omega

/-- A row ends with a byte of its own, which may be filled up. -/
theorem packRow_length {bppp : Nat} (hbppp : bppp = 1 ∨ bppp = 2 ∨ bppp = 4) {row : List (Card bpp)} {byte nbits : Nat}
    (hnbits : nbits < 8) (hdvd : bppp ∣ nbits) (h : packRow ph bppp row byte nbits = some bytes) :
    bytes.length = (nbits + bppp * row.length + 7) / 8 := by
  induction row generalizing byte nbits bytes with
  | nil =>
    cases h
    split
    · simp only [List.length_singleton, List.length_nil]
      omega
    · simp only [List.length_nil]
      omega
  | cons pix row ih =>
    obtain ⟨index, -, h⟩ := Option.bind_eq_some_iff.mp h
    rw [List.length_cons, Nat.mul_succ]
    split at h
    · obtain ⟨rest, hrest, rfl⟩ := Option.map_eq_some_iff.mp h
      have hfull : nbits + bppp = 8 := by rcases hbppp with rfl | rfl | rfl <;> omega
      rw [List.length_cons, ih (by decide) (dvd_zero bppp) hrest]
      omega
    · rw [ih (by omega) (dvd_add hdvd dvd_rfl) h]
      congr 1
      omega

theorem packRows_length {bppp : Nat} (hbppp : bppp = 1 ∨ bppp = 2 ∨ bppp = 4) {w n : Nat} {data : List (Card bpp)}
    (hn : data.length = w * n) (h : packRows ph bppp w n data = some bytes) :
    bytes.length = n * ((bppp * w + 7) / 8) := by
  induction n generalizing data bytes with
  | zero =>
    cases h
    rw [Nat.zero_mul]
    rfl
  | succ n ih =>
    rw [Nat.mul_succ] at hn
    obtain ⟨row, hrow, h⟩ := Option.bind_eq_some_iff.mp h
    obtain ⟨rows, hrows, h⟩ := Option.bind_eq_some_iff.mp h
    cases h
    have htake : (data.take w).length = w := by
      rw [List.length_take, hn]
      omega
    have hdrop : (data.drop w).length = w * n := by rw [List.length_drop, hn, Nat.add_sub_cancel]
    rw [List.length_append, packRow_length hbppp (by decide) (dvd_zero bppp) hrow, htake, ih hdrop hrows, Nat.succ_mul,
      Nat.zero_add, Nat.add_comm]

end Lengths

/-- The estimate of plain RLE. -/
def plainRleBytes (size : Nat) (rs : List (Card bpp × Nat)) : Nat := (size + 1) * rs.length

def paletteRleBytes (size colours : Nat) (rs : List (Card bpp × Nat)) : Nat :=
  size * colours + (2 * longRuns rs + singles rs)

def packedBytes (size colours area : Nat) : Nat := size * colours + area * bitsPerPackedPixel (colours - 1) / 8

/-- There are too many colours for a palette, plain RLE seems to be shorter, and the lengths of its runs take more
than it saves. -/
structure PlainOver (size : Nat) (data : List (Card bpp)) : Prop where
  colours : 127 ≤ ((runsOf data).dropLast.map Prod.fst).toFinset.card
  below : plainRleBytes size (runsOf data) < size * data.length
  above : size * data.length < plainRleBytes size (runsOf data) + extra (runsOf data)

/-- Packed pixels seem to be the shortest form, and the ends of the rows take more than it saves. -/
structure PackedOver (size : Nat) (data : List (Card bpp)) (w h : Nat) : Prop where
  colours : data.toFinset.card < 17
  below : packedBytes size data.toFinset.card (w * h) < size * data.length
  belowPlain : packedBytes size data.toFinset.card (w * h) < plainRleBytes size (runsOf data)
  belowPalette : packedBytes size data.toFinset.card (w * h) <
    paletteRleBytes size data.toFinset.card (runsOf data)
  above : size * data.length <
    size * data.toFinset.card + h * ((bitsPerPackedPixel (data.toFinset.card - 1) * w + 7) / 8)

section Choice

variable {rs : List (Card bpp × Nat)}

/-- A run of 256 makes up for the lengths, and for a palette. -/
theorem long_slack (hpos : ∀ r ∈ rs, 0 < r.2) : 2 * longRuns rs + singles rs + extra rs ≤ (rs.map Prod.snd).sum ∧
    (0 < extra rs → 2 * longRuns rs + singles rs + extra rs + 253 ≤ (rs.map Prod.snd).sum) := by
  induction rs with
  | nil => exact ⟨le_rfl, fun h => absurd h (Nat.lt_irrefl 0)⟩
  | cons r rs ih =>
    obtain ⟨hr, hrs⟩ := List.forall_mem_cons.mp hpos
    obtain ⟨hle, hlong⟩ := ih hrs
    rw [longRuns_cons, singles_cons, extra_cons, List.map_cons, List.sum_cons]
    split
    · omega
    · omega

/-- Palette RLE does not take more than raw pixels, where that is estimated. -/
theorem paletteRle_le {size colours : Nat} (hsize : 0 < size) (hpos : ∀ r ∈ rs, 0 < r.2) (hcolours : colours ≤ 127)
    (h : paletteRleBytes size colours rs < size * (rs.map Prod.snd).sum ∨ 0 < extra rs) :
    paletteRleBytes size colours rs + extra rs ≤ size * (rs.map Prod.snd).sum := by
  obtain ⟨hle, hlong⟩ := long_slack hpos
  obtain hzero | hextra := Nat.eq_zero_or_pos (extra rs)
  · rw [hzero]
    omega
  · have hsum := hlong hextra
    obtain ⟨n, hn⟩ := Nat.exists_eq_add_of_le (show colours ≤ (rs.map Prod.snd).sum by omega)
    have hmul : n ≤ size * n := Nat.le_mul_of_pos_left n hsize
    rw [hn, Nat.mul_add, paletteRleBytes]
    omega

/-- What a chosen form says about the estimates. -/
theorem chooseForm_cases (rs : List (Card bpp × Nat)) (size colours area : Nat) :
    (colours < 17 ∧ packedBytes size colours area < size * area ∧
        packedBytes size colours area < plainRleBytes size rs ∧
        packedBytes size colours area < paletteRleBytes size colours rs) ∧
      chooseForm size colours area (longRuns rs) (singles rs) = (false, true) ∨
    ¬(colours < 17 ∧ packedBytes size colours area < size * area ∧
        packedBytes size colours area < plainRleBytes size rs ∧
        packedBytes size colours area < paletteRleBytes size colours rs) ∧
      (chooseForm size colours area (longRuns rs) (singles rs) = (true, true) ∧ colours < 128 ∧
          paletteRleBytes size colours rs < size * area ∨
        chooseForm size colours area (longRuns rs) (singles rs) = (true, false) ∧ plainRleBytes size rs < size * area ∧
          (colours < 128 → plainRleBytes size rs ≤ paletteRleBytes size colours rs) ∨
        chooseForm size colours area (longRuns rs) (singles rs) = (false, false) ∧
          size * area ≤ plainRleBytes size rs) := by
  have hplain : (size + 1) * (longRuns rs + singles rs) = plainRleBytes size rs := by
    rw [longRuns_add_singles, plainRleBytes]
  have hpalette : size * colours + 2 * longRuns rs + singles rs = paletteRleBytes size colours rs := by
    rw [paletteRleBytes, Nat.add_assoc]
  have hpacked : size * colours + area * bitsPerPackedPixel (colours - 1) / 8 = packedBytes size colours area := rfl
  rw [chooseForm, hplain, hpalette, hpacked, Nat.mul_comm area size]
  dsimp only
  generalize plainRleBytes size rs = plain
  generalize paletteRleBytes size colours rs = palette
  generalize packedBytes size colours area = packed
  generalize size * area = raw
  have hest : (if plain < raw then plain else raw) = min plain raw := by
    split
    · omega
    · omega
  have hest' : (if palette < min plain raw then palette else min plain raw) = min palette (min plain raw) := by
    split
    · omega
    · omega
  rw [hest, hest']
  by_cases hfew : colours < 17 ∧ packed < raw ∧ packed < plain ∧ packed < palette
  · obtain ⟨hcolours, hraw, hplain, hpalette⟩ := hfew
    rw [if_pos (by omega), if_pos hcolours, if_pos (by omega)]
    exact .inl ⟨⟨hcolours, hraw, hplain, hpalette⟩, rfl⟩
  · refine .inr ⟨hfew, ?_⟩
    by_cases hcolours : colours < 128
    · have hkeep : (if colours < 17 then if packed < min palette (min plain raw) then (false, true)
            else (decide (plain < raw) || decide (palette < min plain raw), decide (palette < min plain raw))
          else (decide (plain < raw) || decide (palette < min plain raw), decide (palette < min plain raw))) =
          (decide (plain < raw) || decide (palette < min plain raw), decide (palette < min plain raw)) := by
        split
        · exact if_neg (by omega)
        · rfl
      rw [if_pos hcolours, hkeep]
      by_cases huse : palette < min plain raw
      · rw [decide_eq_true huse, Bool.or_true]
        exact .inl ⟨rfl, hcolours, by omega⟩
      · rw [decide_eq_false huse, Bool.or_false]
        by_cases hrle : plain < raw
        · exact .inr (.inl ⟨by rw [decide_eq_true hrle], hrle, fun _ => by omega⟩)
        · exact .inr (.inr ⟨by rw [decide_eq_false hrle], not_lt.mp hrle⟩)
    · rw [if_neg hcolours]
      by_cases hrle : plain < raw
      · exact .inr (.inl ⟨by rw [decide_eq_true hrle], hrle, fun h => absurd h hcolours⟩)
      · exact .inr (.inr ⟨by rw [decide_eq_false hrle], not_lt.mp hrle⟩)

end Choice

section Tile

variable {data : List (Card bpp)} {ph : PaletteHelper bpp} {w h : Nat} {pixels : List UInt8}

theorem runsOf_pos (data : List (Card bpp)) : ∀ r ∈ runsOf data, 0 < r.2 := by
  cases data with
  | nil => exact fun _ h => absurd h List.not_mem_nil
  | cons pix ptr => exact runsFrom_pos Nat.one_pos

theorem runsOf_sum (data : List (Card bpp)) : ((runsOf data).map Prod.snd).sum = data.length := by
  cases data with
  | nil => rfl
  | cons pix ptr => rw [runsOf, runsFrom_sum, List.length_cons, Nat.add_comm]

theorem runsOf_toFinset : ((runsOf data).map Prod.fst).toFinset = data.toFinset := by
  ext a
  rw [List.mem_toFinset, List.mem_toFinset]
  cases data with
  | nil => rfl
  | cons pix ptr => exact mem_runsFrom

theorem writePixels_rle_length {usePalette : Bool} {f : Nat → Nat}
    (hrun : ∀ pix len bs, 0 < len → writeRun cp ph usePalette pix len = some bs → bs.length = f len)
    (hp : writePixels cp ph true usePalette data w h = some pixels) :
    pixels.length = ((runsOf data).map fun r => f r.2).sum := by
  rw [writePixels.eq_def, if_pos rfl] at hp
  cases data with
  | nil =>
    cases hp
    rfl
  | cons pix ptr => exact writeRuns_length Nat.one_pos hrun hp

/-- The size of the palette of a tile, and what it says of the colours. -/
theorem Collected.few (hc : Collected ph ((runsOf data).map Prod.fst)) (hsize : ph.size < 128) :
    ph.size = data.toFinset.card ∧ ((runsOf data).dropLast.map Prod.fst).toFinset.card < 127 := by
  have h := hc.size
  rw [← List.map_dropLast, runsOf_toFinset] at h
  split at h
  · rename_i hlt
    exact ⟨h, hlt⟩
  · omega

theorem Collected.many (hc : Collected ph ((runsOf data).map Prod.fst)) (hsize : 128 ≤ ph.size) :
    127 ≤ ((runsOf data).dropLast.map Prod.fst).toFinset.card := by
  have h := hc.size
  have hlen : (List.map Prod.fst (runsOf data)).toFinset.card ≤
      ((runsOf data).dropLast.map Prod.fst).toFinset.card + 1 := by
    rcases List.eq_nil_or_concat (runsOf data) with hnil | ⟨init, last, hconcat⟩
    · rw [hnil]
      exact Nat.zero_le _
    · rw [hconcat, List.concat_eq_append, List.dropLast_concat, List.map_append, List.toFinset_append]
      exact (Finset.card_union_le _ _).trans (Nat.add_le_add_left (List.toFinset_card_le _) _)
  rw [← List.map_dropLast] at h
  split at h
  · omega
  · omega

theorem zrleEncodeTile_eq (hne : data ≠ []) : ∃ ph, Collected ph ((runsOf data).map Prod.fst) ∧
    ∀ form, chooseForm (cp.size bpp) ph.size (w * h) (longRuns (runsOf data)) (singles (runsOf data)) = form →
      zrleEncodeTile cp data w h =
        if ph.size = 1 then (ph.palette.head?).map fun pix => 1 :: cp.write pix
        else (writePixels cp ph form.1 form.2 data w h).map fun pixels =>
          UInt8.ofNat ((if form.1 then 128 else 0) ||| if form.2 then ph.size else 0) ::
            ((ph.palette.take (if form.2 then ph.size else 0)).flatMap cp.write ++ pixels) := by
  obtain ⟨ph, hfold, hcollected⟩ := collected ((runsOf data).map Prod.fst)
  refine ⟨ph, hcollected, ?_⟩
  rintro form rfl
  cases data with
  | nil => exact absurd rfl hne
  | cons first ptr =>
    have hcount := countRuns_eq (not_ne_self ((first :: ptr).getLast (List.cons_ne_nil first ptr))) Nat.one_pos
      (PaletteHelper.empty bpp) 0 0
    rw [show decide (2 ≤ 1) = false from rfl, ← runsOf, hfold, Nat.zero_add, Nat.zero_add] at hcount
    rw [zrleEncodeTile]
    dsimp only [Option.bind_eq_bind]
    rw [hcount, Option.map_some, Option.bind_some]
    dsimp only
    split
    · rfl
    · rw [Option.map_eq_bind]
      rfl

/-- The bytes of a tile: its mode, its palette and its pixels. -/
theorem length_tile (hcp : cp.Suits bpp) (hc : Collected ph ((runsOf data).map Prod.fst)) {useRle usePalette : Bool}
    {bytes : List UInt8} (hfew : usePalette = true → ph.size < 128)
    (hbytes : ((writePixels cp ph useRle usePalette data w h).map fun pixels =>
      UInt8.ofNat ((if useRle then 128 else 0) ||| if usePalette then ph.size else 0) ::
        ((ph.palette.take (if usePalette then ph.size else 0)).flatMap cp.write ++ pixels)) = some bytes) :
    ∃ pixels, writePixels cp ph useRle usePalette data w h = some pixels ∧
      bytes.length = cp.size bpp * (if usePalette then ph.size else 0) + pixels.length + 1 := by
  obtain ⟨pixels, hpixels, rfl⟩ := Option.map_eq_some_iff.mp hbytes
  refine ⟨pixels, hpixels, ?_⟩
  have hlen := hc.sound.length
  have hmax : PaletteHelper.MAX_SIZE = 127 := rfl
  have htake : (ph.palette.take (if usePalette then ph.size else 0)).length = if usePalette then ph.size else 0 := by
    rw [List.length_take, hlen]
    cases usePalette with
    | true =>
      have hlt := hfew rfl
      rw [if_pos rfl]
      omega
    | false => exact Nat.zero_min _
  rw [List.length_cons, List.length_append, length_flatMap_write hcp, htake]

theorem dropLast_card_le (data : List (Card bpp)) : ((runsOf data).dropLast.map Prod.fst).toFinset.card ≤ data.toFinset.card := by
  have hle := card_dropLast_le ((runsOf data).map Prod.fst)
  rwa [← List.map_dropLast, runsOf_toFinset] at hle

/-- Where the code does not choose packed pixels they are not what is too long. -/
theorem not_packedOver {size : Nat} (hlen : data.length = w * h) (hc : Collected ph ((runsOf data).map Prod.fst))
    (hnot : ¬(ph.size < 17 ∧ packedBytes size ph.size (w * h) < size * (w * h) ∧
      packedBytes size ph.size (w * h) < plainRleBytes size (runsOf data) ∧
      packedBytes size ph.size (w * h) < paletteRleBytes size ph.size (runsOf data))) : ¬PackedOver size data w h := by
  rintro ⟨hcolours, hbelow, hplain, hpalette, -⟩
  rw [hlen] at hbelow
  by_cases hfew : ph.size < 128
  · obtain ⟨hcard, -⟩ := hc.few hfew
    rw [← hcard] at hcolours hbelow hplain hpalette
    exact hnot ⟨hcolours, hbelow, hplain, hpalette⟩
  · have hmany := hc.many (not_lt.mp hfew)
    have hle := dropLast_card_le data
    omega

end Tile

/-- A tile takes at most a byte more than its raw pixels, but for the tiles whose form was chosen by an estimate that
is too low by the lengths of runs or by the ends of rows. -/
theorem zrleEncodeTile_length_iff (hcp : cp.Suits bpp) {data : List (Card bpp)} {w h : Nat} (hw : 0 < w ∧ w ≤ 64)
    (hh : 0 < h ∧ h ≤ 64) (hlen : data.length = w * h) :
    ∃ bytes, zrleEncodeTile cp data w h = some bytes ∧
      (bytes.length ≤ w * h * cp.size bpp + 1 ↔
        ¬PlainOver (cp.size bpp) data ∧ ¬PackedOver (cp.size bpp) data w h) := by
  obtain ⟨bytes, hencode, -⟩ := zrleEncodeTile_spec hcp hw hh hlen
  refine ⟨bytes, hencode, ?_⟩
  have hsize := (cp.size_le bpp).1
  have harea : 0 < data.length := hlen ▸ Nat.mul_pos hw.1 hh.1
  have hraw : cp.size bpp ≤ cp.size bpp * data.length := Nat.le_mul_of_pos_right _ harea
  obtain ⟨ph, hc, heq⟩ := @zrleEncodeTile_eq bpp cp data w h (List.ne_nil_of_length_pos harea)
  rw [Nat.mul_comm (w * h), ← hlen]
  by_cases hsolid : ph.size = 1
  · rw [heq _ rfl, if_pos hsolid] at hencode
    obtain ⟨pix, -, rfl⟩ := Option.map_eq_some_iff.mp hencode
    obtain ⟨hcard, hfew⟩ := hc.few (by omega)
    rw [List.length_cons, CPixel.length_write hcp]
    refine iff_of_true (by omega) ⟨fun hover => absurd hover.colours (by omega), fun hover => ?_⟩
    have habove := hover.above
    rw [← hcard, hsolid] at habove
    simp only [bitsPerPackedPixel] at habove
    simp at habove
    omega
  · have hpos := runsOf_pos data
    have hsum := runsOf_sum data
    have hlen' : cp.size bpp * (w * h) = cp.size bpp * data.length := by rw [hlen]
    obtain ⟨⟨hcolours, hbelow, hplain, hpalette⟩, hform⟩ | ⟨hnot, ⟨hform, hcolours, hbelow⟩ | ⟨hform, hbelow, hplain⟩ |
      ⟨hform, hbelow⟩⟩ := chooseForm_cases (runsOf data) (cp.size bpp) ph.size (w * h)
    all_goals rw [heq _ hform, if_neg hsolid] at hencode
    · obtain ⟨hcard, hfew⟩ := hc.few (by omega)
      have hgt : 1 < ph.size := by
        have hpos' : 0 < data.toFinset.card := by
          obtain ⟨a, ha⟩ := List.exists_mem_of_length_pos harea
          exact Finset.card_pos.mpr ⟨a, List.mem_toFinset.mpr ha⟩
        omega
      obtain ⟨hbits, hbppp, -⟩ := packedBits_eq ph.size hcolours hgt
      obtain ⟨pixels, hpixels, hlength⟩ := length_tile hcp hc (fun _ => by omega) hencode
      have hrows := packRows_length (hbits ▸ hbppp) hlen hpixels
      rw [hlength, if_pos rfl, hrows]
      constructor
      · intro hle
        refine ⟨fun hover => absurd hover.colours (by omega), fun hover => ?_⟩
        have habove := hover.above
        rw [← hcard] at habove
        omega
      · rintro ⟨-, hnot⟩
        by_contra hgt'
        refine hnot ⟨hcard ▸ hcolours, ?_, ?_, ?_, ?_⟩
        all_goals rw [← hcard]
        · omega
        · exact hplain
        · exact hpalette
        · omega
    · obtain ⟨hcard, hfew⟩ := hc.few hcolours
      obtain ⟨pixels, hpixels, hlength⟩ := length_tile hcp hc (fun _ => hcolours) hencode
      have hruns := writePixels_rle_length (fun pix len bs hpos' => writeRun_palette_length hpos') hpixels
      have hle := paletteRle_le hsize hpos (Nat.le_of_lt_succ hcolours) (.inl (by rw [hsum]; omega))
      rw [hsum, paletteRleBytes] at hle
      rw [sum_palette] at hruns
      rw [hlength, if_pos rfl]
      exact iff_of_true (by omega) ⟨fun hover => absurd hover.colours (by omega), not_packedOver hlen hc hnot⟩
    · obtain ⟨pixels, hpixels, hlength⟩ := length_tile hcp hc (fun h => absurd h Bool.false_ne_true) hencode
      have hruns := writePixels_rle_length (fun pix len bs _ => writeRun_plain_length hcp) hpixels
      rw [sum_plain, ← plainRleBytes] at hruns
      rw [if_neg Bool.false_ne_true, Nat.mul_zero, Nat.zero_add, hruns] at hlength
      rw [hlength]
      constructor
      · exact fun hle => ⟨fun hover => absurd hover.above (by omega), not_packedOver hlen hc hnot⟩
      · rintro ⟨hnotPlain, -⟩
        by_contra hgt
        by_cases hfew : ph.size < 128
        · have hle := paletteRle_le hsize hpos (Nat.le_of_lt_succ hfew) (.inr (by omega))
          have hplain' := hplain hfew
          rw [hsum] at hle
          omega
        · exact hnotPlain ⟨hc.many (not_lt.mp hfew), hlen' ▸ hbelow, by omega⟩
    · obtain ⟨pixels, hpixels, hlength⟩ := length_tile hcp hc (fun h => absurd h Bool.false_ne_true) hencode
      have hpixels' : pixels.length = cp.size bpp * data.length := by
        cases hpixels
        exact length_flatMap_write hcp data
      rw [hlength, if_neg Bool.false_ne_true, hpixels']
      exact iff_of_true (by omega) ⟨fun hover => absurd hover.below (by omega), not_packedOver hlen hc hnot⟩

/-- A row of three pixels of one colour. -/
theorem zrleEncodeTile_length_iff_solid : ∃ bytes, zrleEncodeTile .whole ([7, 7, 7] : List (Card .bpp8)) 3 1 = some bytes ∧
    (bytes.length ≤ 3 * 1 * 1 + 1 ↔ ¬PlainOver 1 ([7, 7, 7] : List (Card .bpp8)) ∧
      ¬PackedOver 1 ([7, 7, 7] : List (Card .bpp8)) 3 1) :=
  zrleEncodeTile_length_iff (.inl rfl) (by decide) (by decide) rfl

/-- A column of three pixels in two colours takes six bytes. -/
theorem not_zrleEncodeTile_length_column :
    ∃ bytes, zrleEncodeTile .whole ([0, 1, 0] : List (Card .bpp8)) 1 3 = some bytes ∧ ¬bytes.length ≤ 1 * 3 * 1 + 1 :=
  ⟨[2, 0, 1, 0, 128, 0], by decide, by decide⟩

end Colama.Vnc4.Zrle

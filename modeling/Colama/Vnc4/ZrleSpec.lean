import Colama.Vnc4.Zrle
import Colama.Xvnc.HextileSpec

namespace Colama.Vnc4.Zrle

open Lib
open Xvnc (Bpp Card steps tilesOf tileList)

variable {bpp : Bpp} {cp : CPixel}

namespace CPixel

/-- Three bytes are written of four. -/
def Suits (cp : CPixel) (bpp : Bpp) : Prop := cp = whole ∨ bpp = .bpp32

/-- The pixel that comes back. -/
def kept (cp : CPixel) (pix : Card bpp) : Card bpp := cp.ofBytes bpp (cp.write pix)

theorem length_write (hcp : cp.Suits bpp) (pix : Card bpp) : (cp.write pix).length = cp.size bpp := by
  cases cp with
  | whole => exact Card.length_bytes pix
  | cpixel24A =>
    rw [write, List.length_take, Card.length_bytes, hcp.resolve_left nofun]
    rfl
  | cpixel24B =>
    rw [write, List.length_drop, Card.length_bytes, hcp.resolve_left nofun]
    rfl

theorem read_write (hcp : cp.Suits bpp) (pix : Card bpp) (rest : List UInt8) :
    cp.read bpp (cp.write pix ++ rest) = some (cp.kept pix, rest) := by
  rw [read, readBytes_append (length_write hcp pix)]
  rfl

theorem size_le (cp : CPixel) (bpp : Bpp) : 0 < cp.size bpp ∧ cp.size bpp ≤ 4 := by
  cases cp with
  | whole => cases bpp <;> decide
  | cpixel24A => exact ⟨Nat.succ_pos 2, Nat.le_succ 3⟩
  | cpixel24B => exact ⟨Nat.succ_pos 2, Nat.le_succ 3⟩

end CPixel

theorem readPixels_write (hcp : cp.Suits bpp) (pixels : List (Card bpp)) (rest : List UInt8) :
    readPixels bpp cp pixels.length (pixels.flatMap cp.write ++ rest) = some (pixels.map cp.kept, rest) := by
  induction pixels with
  | nil => rfl
  | cons pix pixels ih =>
    rw [List.length_cons, readPixels, List.flatMap_cons, List.append_assoc, CPixel.read_write hcp]
    dsimp only [Option.bind_eq_bind, Option.bind_some]
    rw [ih]
    rfl

namespace PaletteHelper

/-- The table holds the palette, each colour under its index. If there were not too many colours, they are all
that has been seen. -/
structure Sound (ph : PaletteHelper bpp) (seen : Set (Card bpp)) : Prop where
  hashed : Probing.Hashed hash ph.slots ph.palette.toFinset
  index : ∀ i, ph.index i ≠ 255 → ph.palette[ph.index i]? = some (ph.key i)
  length : ph.palette.length = min ph.size MAX_SIZE
  all : ph.size ≤ MAX_SIZE → ∀ pix ∈ seen, pix ∈ ph.palette

variable {ph : PaletteHelper bpp} {seen : Set (Card bpp)}

theorem Sound.empty : Sound (PaletteHelper.empty bpp) ∅ :=
  ⟨Probing.Hashed.empty hash, fun _ h => absurd rfl h, rfl, fun _ _ h => absurd h (Set.notMem_empty _)⟩

theorem hash_le (pix : Card bpp) : hash pix ≤ 4095 := Nat.and_le_right

theorem slots_eq_none {i : Nat} : ph.slots i = none ↔ ph.index i = 255 := by
  rw [slots]
  split
  · rename_i h
    exact ⟨fun _ => h, fun _ => rfl⟩
  · rename_i h
    exact ⟨nofun, fun h' => absurd h' h⟩

theorem slots_eq_some {i : Nat} {pix : Card bpp} : ph.slots i = some pix ↔ ph.index i ≠ 255 ∧ ph.key i = pix := by
  rw [slots]
  split
  · rename_i h
    exact ⟨nofun, fun h' => absurd h h'.1⟩
  · rename_i h
    exact ⟨fun h' => ⟨h, Option.some.inj h'⟩, fun h' => congrArg some h'.2⟩

theorem Sound.slot (h : ph.Sound seen) (pix : Card bpp) :
    ∃ i, ph.slot pix = some i ∧ hash pix ≤ i ∧ (ph.slots i = none ∧ pix ∉ ph.palette ∨ ph.slots i = some pix) ∧
      ∀ i', hash pix ≤ i' → i' < i → ph.slots i' ≠ none := by
  have hcard : ph.palette.toFinset.card < 4096 + MAX_SIZE - hash pix := by
    have hle := List.toFinset_card_le ph.palette
    have hhash := hash_le pix
    rw [h.length] at hle
    have hmax : MAX_SIZE = 127 := rfl
    omega
  obtain ⟨i, hprobe, hle, -, hfound, hpath⟩ := h.hashed.probe pix hcard
  refine ⟨i, hprobe, hle, hfound.imp (fun hfree => ⟨hfree.1, fun hmem => ?_⟩) id, hpath⟩
  exact hfree.2 (List.mem_toFinset.mpr hmem)

theorem Sound.lookup (h : ph.Sound seen) {pix : Card bpp} (hpix : pix ∈ ph.palette) :
    ∃ k, ph.lookup pix = some k ∧ ph.palette[k]? = some pix := by
  obtain ⟨i, hslot, -, hfound, -⟩ := h.slot pix
  have hsome := hfound.resolve_left fun hfree => hfree.2 hpix
  obtain ⟨hindex, hkey⟩ := slots_eq_some.1 hsome
  refine ⟨ph.index i, ?_, hkey ▸ h.index i hindex⟩
  rw [PaletteHelper.lookup, hslot]
  exact if_pos hindex

theorem Sound.insert (h : ph.Sound seen) (pix : Card bpp) :
    ∃ ph', ph.insert pix = some ph' ∧ ph'.Sound (Insert.insert pix seen) ∧ 0 < ph'.size := by
  rw [PaletteHelper.insert]
  by_cases hsize : ph.size < MAX_SIZE
  · obtain ⟨i, hslot, hle, hfound, hpath⟩ := h.slot pix
    have hlen : ph.palette.length = ph.size := by
      rw [h.length, Nat.min_eq_left hsize.le]
    rw [if_pos hsize, hslot, Option.map_some]
    by_cases hindex : ph.index i = 255
    · rw [if_neg (not_not.mpr hindex)]
      have hnone := slots_eq_none.2 hindex
      have hnew : pix ∉ ph.palette := (hfound.resolve_right fun h => by rw [hnone] at h; cases h).2
      refine ⟨_, rfl, ⟨?_, ?_, ?_, ?_⟩, Nat.succ_pos _⟩
      · have hslots : slots
            { palette := ph.palette ++ [pix], index := Function.update ph.index i ph.size,
              key := Function.update ph.key i pix, size := ph.size + 1 } =
            Function.update ph.slots i (some pix) := by
          funext j
          by_cases hij : j = i
          · subst hij
            have hne : ph.size ≠ 255 := by
              have hmax : MAX_SIZE = 127 := rfl
              omega
            simp [slots, hne]
          · simp [slots, hij]
        have hfinset : (ph.palette ++ [pix]).toFinset = Insert.insert pix ph.palette.toFinset := by
          ext a
          simp
        rw [hslots]
        dsimp only
        rw [hfinset]
        exact h.hashed.insert hnone hle (fun hmem => hnew (List.mem_toFinset.mp hmem)) hpath
      · intro j hj
        dsimp only at hj ⊢
        by_cases hij : j = i
        · subst hij
          rw [Function.update_self, Function.update_self, ← hlen]
          simp
        · rw [Function.update_of_ne hij] at hj ⊢
          rw [Function.update_of_ne hij]
          have hold := h.index j hj
          obtain ⟨hlt, -⟩ := List.getElem?_eq_some_iff.mp hold
          rw [List.getElem?_append_left hlt]
          exact hold
      · dsimp only
        rw [List.length_append, List.length_singleton, hlen]
        omega
      · intro _ a ha
        rcases ha with rfl | ha
        · exact List.mem_append_right _ List.mem_cons_self
        · exact List.mem_append_left _ (h.all hsize.le a ha)
    · rw [if_pos hindex]
      have hsome := hfound.resolve_left fun hfree => hindex (slots_eq_none.1 hfree.1)
      have hmem : pix ∈ ph.palette := List.mem_toFinset.mp (h.hashed.mem i pix hsome)
      refine ⟨ph, rfl, ⟨h.hashed, h.index, h.length, ?_⟩, ?_⟩
      · intro hle' a ha
        rcases ha with rfl | ha
        · exact hmem
        · exact h.all hle' a ha
      · rw [← hlen]
        exact List.length_pos_of_mem hmem
  · rw [if_neg hsize]
    refine ⟨_, rfl, ⟨h.hashed, h.index, ?_, ?_⟩, Nat.succ_pos _⟩
    · have hlen := h.length
      dsimp only
      omega
    · intro hle
      dsimp only at hle
      exact absurd hle (by omega)

theorem Sound.mono {seen' : Set (Card bpp)} (h : ph.Sound seen) (hle : seen' ⊆ seen) : ph.Sound seen' :=
  ⟨h.hashed, h.index, h.length, fun hsize pix hpix => h.all hsize pix (hle hpix)⟩

end PaletteHelper

/-- All of the pixels of a tile are put into the palette. -/
theorem countRuns_sound {ph : PaletteHelper bpp} {seen : Set (Card bpp)} (h : ph.Sound seen) (pix : Card bpp)
    (ptr : List (Card bpp)) {pastEnd : Card bpp} (hend : pastEnd ≠ (pix :: ptr).getLast (List.cons_ne_nil pix ptr))
    (again : Bool) (runs singlePixels : Nat) :
    ∃ ph' runs' singlePixels', countRuns pix again (ptr ++ [pastEnd]) ph runs singlePixels =
        some (ph', runs', singlePixels') ∧
      ph'.Sound (seen ∪ {a | a ∈ pix :: ptr}) ∧ 0 < ph'.size := by
  induction ptr generalizing pix ph seen again runs singlePixels with
  | nil =>
    obtain ⟨ph', hinsert, hsound, hpos⟩ := h.insert pix
    have hsound' : ph'.Sound (seen ∪ {a | a ∈ [pix]}) := by
      apply hsound.mono
      rintro a (ha | ha)
      · exact .inr ha
      · exact .inl (List.mem_singleton.mp ha)
    rw [List.nil_append, countRuns, if_neg (by simpa using hend), hinsert]
    dsimp only [Option.bind_eq_bind, Option.bind_some]
    split
    · exact ⟨ph', _, _, rfl, hsound', hpos⟩
    · exact ⟨ph', _, _, rfl, hsound', hpos⟩
  | cons next ptr ih =>
    rw [List.getLast_cons (List.cons_ne_nil next ptr)] at hend
    rw [List.cons_append, countRuns]
    by_cases hnext : next = pix
    · subst hnext
      obtain ⟨ph', runs', singlePixels', heq, hsound, hpos⟩ := ih h next hend true runs singlePixels
      rw [if_pos rfl]
      refine ⟨ph', runs', singlePixels', heq, hsound.mono ?_, hpos⟩
      rintro a (ha | ha)
      · exact .inl ha
      · rcases List.mem_cons.mp ha with rfl | ha
        · exact .inr List.mem_cons_self
        · exact .inr ha
    · obtain ⟨ph₁, hinsert, hsound₁, -⟩ := h.insert pix
      rw [if_neg hnext, hinsert]
      dsimp only [Option.bind_eq_bind, Option.bind_some]
      have hseen : seen ∪ {a | a ∈ pix :: next :: ptr} ⊆ Insert.insert pix seen ∪ {a | a ∈ next :: ptr} := by
        rintro a (ha | ha)
        · exact .inl (.inr ha)
        · rcases List.mem_cons.mp ha with rfl | ha
          · exact .inl (.inl rfl)
          · exact .inr ha
      cases again with
      | true =>
        obtain ⟨ph', runs', singlePixels', heq, hsound, hpos⟩ := ih hsound₁ next hend false (runs + 1) singlePixels
        exact ⟨ph', runs', singlePixels', heq, hsound.mono hseen, hpos⟩
      | false =>
        obtain ⟨ph', runs', singlePixels', heq, hsound, hpos⟩ := ih hsound₁ next hend false runs (singlePixels + 1)
        exact ⟨ph', runs', singlePixels', heq, hsound.mono hseen, hpos⟩

theorem chooseForm_spec (size n area runs singlePixels : Nat) :
    ((chooseForm size n area runs singlePixels).2 = true → n < 128) ∧
      (chooseForm size n area runs singlePixels = (false, true) → n < 17) := by
  unfold chooseForm
  dsimp only
  by_cases h : n < 128
  · rw [if_pos h]
    refine ⟨fun _ => h, ?_⟩
    split
    · rename_i h17
      exact fun _ => h17
    · intro heq
      obtain ⟨hrle, hpalette⟩ := Prod.mk.inj heq
      rw [hpalette, Bool.or_true] at hrle
      cases hrle
  · rw [if_neg h]
    exact ⟨nofun, fun heq => Bool.noConfusion (Prod.mk.inj heq).2⟩

theorem readLength_write (len : Nat) (rest : List UInt8) :
    readLength (writeLength len ++ rest) = some (len, rest) := by
  have hrun : ∀ n, readLength (List.replicate n 255 ++ (UInt8.ofNat (len % 255) :: rest)) =
      some (n * 255 + len % 255, rest) := by
    intro n
    have hlast : (UInt8.ofNat (len % 255)).toNat = len % 255 := by
      rw [UInt8.toNat_ofNat', Nat.mod_eq_of_lt (by omega)]
    induction n with
    | zero =>
      have hne : UInt8.ofNat (len % 255) ≠ 255 := by
        intro h
        rw [h] at hlast
        have hmod := Nat.mod_lt len (show 0 < 255 by decide)
        exact absurd hlast.symm (Nat.ne_of_lt hmod)
      rw [List.replicate_zero, List.nil_append, readLength, if_neg hne, hlast, Nat.zero_mul, Nat.zero_add]
    | succ n ih =>
      rw [List.replicate_succ, List.cons_append, readLength, if_pos rfl, ih, Option.map_some,
        show (n + 1) * 255 + len % 255 = 255 + (n * 255 + len % 255) by omega]
  rw [writeLength, List.append_assoc, List.singleton_append, hrun]
  congr 2
  omega

/-- A palette that holds all pixels, and the palette of the decoder. -/
structure Indexed (cp : CPixel) (ph : PaletteHelper bpp) (pixels : List (Card bpp)) (palette : List (Card bpp)) :
    Prop where
  sound : ∃ seen, ph.Sound seen
  mem : ∀ pix ∈ pixels, pix ∈ ph.palette
  palette : palette = ph.palette.map cp.kept

theorem Indexed.lookup {ph : PaletteHelper bpp} {pixels palette : List (Card bpp)} (h : Indexed cp ph pixels palette)
    {pix : Card bpp} (hpix : pix ∈ pixels) :
    ∃ k, ph.lookup pix = some k ∧ k < 127 ∧ k < palette.length ∧ palette[k]? = some (cp.kept pix) := by
  obtain ⟨seen, hsound⟩ := h.sound
  obtain ⟨k, hlookup, hk⟩ := hsound.lookup (h.mem pix hpix)
  obtain ⟨hlt, -⟩ := List.getElem?_eq_some_iff.mp hk
  have hlen := hsound.length
  have hmax : PaletteHelper.MAX_SIZE = 127 := rfl
  refine ⟨k, hlookup, by omega, ?_, ?_⟩
  · rw [h.palette, List.length_map]
    exact hlt
  · rw [h.palette, List.getElem?_map, hk]
    rfl

/-- Some bytes are read as runs of as many pixels, whatever comes after them. -/
def ReadsAs (readRun : List UInt8 → Option ((Card bpp × Nat) × List UInt8)) (bytes : List UInt8)
    (pixels : List (Card bpp)) : Prop :=
  ∀ fuel n rest later input, n + pixels.length ≤ fuel →
    (∀ fuel', n ≤ fuel' → readRuns readRun fuel' n rest = some (later, input)) →
    readRuns readRun fuel (n + pixels.length) (bytes ++ rest) = some (pixels ++ later, input)

variable {readRun : List UInt8 → Option ((Card bpp × Nat) × List UInt8)}

theorem ReadsAs.append {bytes bytes' : List UInt8} {pixels pixels' : List (Card bpp)}
    (h : ReadsAs readRun bytes pixels) (h' : ReadsAs readRun bytes' pixels') :
    ReadsAs readRun (bytes ++ bytes') (pixels ++ pixels') := by
  intro fuel n rest later input hfuel hrest
  rw [List.length_append, ← Nat.add_assoc, Nat.add_right_comm] at hfuel ⊢
  rw [List.append_assoc, List.append_assoc]
  apply h fuel _ _ _ _ hfuel
  intro fuel' hfuel'
  exact h' fuel' n rest later input hfuel' hrest

theorem ReadsAs.run {bytes : List UInt8} {pix : Card bpp} {len : Nat} (hlen : 0 < len)
    (hread : ∀ rest, readRun (bytes ++ rest) = some ((pix, len), rest)) :
    ReadsAs readRun bytes (List.replicate len pix) := by
  intro fuel n rest later input hfuel hrest
  rw [List.length_replicate] at hfuel ⊢
  cases fuel with
  | zero => omega
  | succ fuel =>
    rw [readRuns, if_neg (by omega), hread]
    dsimp only [Option.bind_eq_bind, Option.bind_some]
    rw [if_pos (by omega), Nat.add_sub_cancel, hrest fuel (by omega)]
    rfl

theorem readPlainRun_write (hcp : cp.Suits bpp) (pix : Card bpp) {len : Nat} (hlen : 0 < len) (rest : List UInt8) :
    readPlainRun bpp cp (cp.write pix ++ writeLength (len - 1) ++ rest) = some ((cp.kept pix, len), rest) := by
  rw [readPlainRun, List.append_assoc, CPixel.read_write hcp]
  dsimp only [Option.bind_eq_bind, Option.bind_some]
  rw [readLength_write]
  dsimp only [Option.bind_some]
  rw [Nat.add_sub_cancel' hlen]

theorem index_bits : ∀ k < 128, k &&& 128 = 0 ∧ k &&& 127 = k ∧ (k ||| 128) &&& 128 = 128 ∧ (k ||| 128) &&& 127 = k ∧
    k ||| 128 < 256 := by
  decide

theorem readPaletteRun_single {palette : List (Card bpp)} {k : Nat} {pix : Card bpp} (hk : k < 128)
    (hpix : palette[k]? = some pix) (rest : List UInt8) :
    readPaletteRun palette ([UInt8.ofNat k] ++ rest) = some ((pix, 1), rest) := by
  obtain ⟨hflag, hindex, -⟩ := index_bits k hk
  have hbyte : (UInt8.ofNat k).toNat = k := by
    rw [UInt8.toNat_ofNat', Nat.mod_eq_of_lt (by omega)]
  rw [readPaletteRun, List.singleton_append, readU8, hbyte]
  dsimp only [Option.bind_eq_bind, Option.bind_some]
  rw [indexLength, if_neg (not_not.mpr hflag)]
  dsimp only [Option.bind_some]
  rw [hindex, hpix]
  rfl

theorem readPaletteRun_run {palette : List (Card bpp)} {k len : Nat} {pix : Card bpp} (hk : k < 128)
    (hpix : palette[k]? = some pix) (hlen : 0 < len) (rest : List UInt8) :
    readPaletteRun palette (UInt8.ofNat (k ||| 128) :: writeLength (len - 1) ++ rest) = some ((pix, len), rest) := by
  obtain ⟨-, -, hflag, hindex, hlt⟩ := index_bits k hk
  have hbyte : (UInt8.ofNat (k ||| 128)).toNat = k ||| 128 := by
    rw [UInt8.toNat_ofNat', Nat.mod_eq_of_lt hlt]
  rw [readPaletteRun, List.cons_append, readU8, hbyte]
  dsimp only [Option.bind_eq_bind, Option.bind_some]
  rw [indexLength, hflag, if_pos (by decide), readLength_write]
  dsimp only [Option.bind_some]
  rw [hindex, hpix]
  dsimp only [Option.bind_some]
  rw [Nat.add_sub_cancel' hlen]

theorem length_writeLength (len : Nat) : (writeLength len).length = len / 255 + 1 := by
  rw [writeLength, List.length_append, List.length_replicate, List.length_singleton]

theorem writeRun_plain (hcp : cp.Suits bpp) (ph : PaletteHelper bpp) (pix : Card bpp) {len : Nat} (hlen : 0 < len) :
    ∃ bytes, writeRun cp ph false pix len = some bytes ∧
      ReadsAs (readPlainRun bpp cp) bytes (List.replicate len (cp.kept pix)) ∧ bytes.length ≤ 5 * len := by
  refine ⟨_, rfl, ReadsAs.run hlen (readPlainRun_write hcp pix hlen), ?_⟩
  have hsize := (cp.size_le bpp).2
  rw [List.length_append, CPixel.length_write hcp, length_writeLength]
  omega

theorem writeRun_palette {ph : PaletteHelper bpp} {pixels palette : List (Card bpp)}
    (h : Indexed cp ph pixels palette) {pix : Card bpp} (hpix : pix ∈ pixels) {len : Nat} (hlen : 0 < len) :
    ∃ bytes, writeRun cp ph true pix len = some bytes ∧
      ReadsAs (readPaletteRun palette) bytes (List.replicate len (cp.kept pix)) ∧ bytes.length ≤ 5 * len := by
  obtain ⟨k, hlookup, hk, -, hpalette⟩ := h.lookup hpix
  have hsingle : ReadsAs (readPaletteRun palette) [UInt8.ofNat k] (List.replicate 1 (cp.kept pix)) :=
    ReadsAs.run Nat.one_pos (readPaletteRun_single (by omega) hpalette)
  rw [writeRun, if_pos rfl, hlookup, Option.map_some]
  refine ⟨_, rfl, ?_⟩
  by_cases hshort : len ≤ 2
  · rw [if_pos hshort]
    by_cases htwo : len = 2
    · subst htwo
      exact ⟨hsingle.append hsingle, by simp⟩
    · have hone : len = 1 := by omega
      subst hone
      exact ⟨hsingle, by simp⟩
  · rw [if_neg hshort]
    refine ⟨ReadsAs.run hlen (readPaletteRun_run (by omega) hpalette hlen), ?_⟩
    rw [List.length_cons, length_writeLength]
    omega

/-- The runs of a tile, the first of which has come to `len` pixels. -/
theorem writeRuns_reads {ph : PaletteHelper bpp} {usePalette : Bool} {pixels : List (Card bpp)}
    (hrun : ∀ pix ∈ pixels, ∀ len, 0 < len → ∃ bytes, writeRun cp ph usePalette pix len = some bytes ∧
      ReadsAs readRun bytes (List.replicate len (cp.kept pix)) ∧ bytes.length ≤ 5 * len)
    {pix : Card bpp} (hpix : pix ∈ pixels) {len : Nat} (hlen : 0 < len) {ptr : List (Card bpp)}
    (hptr : ∀ a ∈ ptr, a ∈ pixels) :
    ∃ bytes, writeRuns cp ph usePalette pix len ptr = some bytes ∧
      ReadsAs readRun bytes (List.replicate len (cp.kept pix) ++ ptr.map cp.kept) ∧
      bytes.length ≤ 5 * (len + ptr.length) := by
  induction ptr generalizing pix len with
  | nil =>
    obtain ⟨bytes, hwrite, hreads, hle⟩ := hrun pix hpix len hlen
    exact ⟨bytes, hwrite, by rwa [List.map_nil, List.append_nil], hle⟩
  | cons next ptr ih =>
    obtain ⟨hnext, hptr'⟩ := List.forall_mem_cons.mp hptr
    rw [writeRuns]
    by_cases heq : next = pix
    · subst heq
      obtain ⟨bytes, hwrite, hreads, hle⟩ := ih hpix (Nat.succ_pos len) hptr'
      rw [if_pos rfl]
      refine ⟨bytes, hwrite, ?_, by rw [List.length_cons]; omega⟩
      rw [List.map_cons]
      rwa [List.replicate_succ', List.append_assoc] at hreads
    · obtain ⟨run, hwrite, hreads, hle⟩ := hrun pix hpix len hlen
      obtain ⟨rest, hwrite', hreads', hle'⟩ := ih hnext Nat.one_pos hptr'
      rw [if_neg heq, hwrite]
      dsimp only [Option.bind_eq_bind, Option.bind_some]
      rw [hwrite']
      refine ⟨run ++ rest, rfl, ?_, ?_⟩
      · rw [List.map_cons]
        exact hreads.append hreads'
      · rw [List.length_append, List.length_cons]
        omega

theorem ReadsAs.readRuns_eq {bytes : List UInt8} {pixels : List (Card bpp)} (h : ReadsAs readRun bytes pixels)
    (rest : List UInt8) :
    readRuns readRun pixels.length pixels.length (bytes ++ rest) = some (pixels, rest) := by
  have hread := h pixels.length 0 rest [] rest (Nat.zero_add _).le fun fuel' _ => by
    cases fuel' with
    | zero => rfl
    | succ fuel' => rfl
  rwa [Nat.zero_add, List.append_nil] at hread

theorem pushIndex (byte : Nat) {bppp k : Nat} (hbppp : bppp = 1 ∨ bppp = 2 ∨ bppp = 4) (hk : k < 2 ^ bppp) :
    (byte <<< bppp ||| k) % 256 < 256 ∧ (byte <<< bppp ||| k) % 256 % 2 ^ bppp = k ∧
      ∀ nbits, nbits + bppp ≤ 8 → (byte <<< bppp ||| k) % 256 % 2 ^ (nbits + bppp) / 2 ^ bppp = byte % 2 ^ nbits := by
  rw [← Nat.shiftLeft_add_eq_or_of_lt hk, Nat.shiftLeft_eq]
  refine ⟨Nat.mod_lt _ (by decide), ?_, ?_⟩
  · rcases hbppp with rfl | rfl | rfl <;> omega
  · intro nbits hnbits
    have hdvd : 2 ^ (nbits + bppp) ∣ 256 := Nat.pow_dvd_pow 2 hnbits
    rw [Nat.mod_mod_of_dvd _ hdvd, Nat.pow_add, Nat.mul_comm (2 ^ nbits), Nat.mod_mul_right_div_self,
      Nat.add_comm, Nat.add_mul_div_right _ _ (Nat.two_pow_pos bppp), Nat.div_eq_of_lt hk, Nat.zero_add]

theorem popIndex {bppp b nbits : Nat} (hbppp : bppp = 1 ∨ bppp = 2 ∨ bppp = 4) :
    (b >>> nbits) &&& (1 <<< bppp - 1) &&& 127 = b / 2 ^ nbits % 2 ^ bppp := by
  rw [Nat.shiftRight_eq_div_pow, Nat.one_shiftLeft, Nat.and_two_pow_sub_one_eq_mod,
    show 127 = 2 ^ 7 - 1 by rfl, Nat.and_two_pow_sub_one_eq_mod]
  apply Nat.mod_eq_of_lt
  have hlt := Nat.mod_lt (b / 2 ^ nbits) (Nat.two_pow_pos bppp)
  rcases hbppp with rfl | rfl | rfl <;> omega

theorem ofNat_toNat {b : Nat} (hb : b < 256) : (UInt8.ofNat b).toNat = b := by
  rw [UInt8.toNat_ofNat', Nat.mod_eq_of_lt hb]

theorem ofNat_mod (n : Nat) : UInt8.ofNat (n % 256) = UInt8.ofNat n := by
  apply UInt8.toNat_inj.mp
  rw [UInt8.toNat_ofNat', UInt8.toNat_ofNat', Nat.mod_mod]

/-- What is read of the byte `b`, of which `nbits` have been read before, and of what follows it. -/
theorem unpackRow_cons {palette : List (Card bpp)} {bppp b nbits k : Nat} {pix : Card bpp}
    (hbppp : bppp = 1 ∨ bppp = 2 ∨ bppp = 4) (hnbits : nbits + bppp ≤ 8) (hb : b / 2 ^ (8 - (nbits + bppp)) % 2 ^ bppp = k)
    (hpix : palette[k]? = some pix) {n : Nat} {input rest : List UInt8} {pixels : List (Card bpp)}
    (hrest : unpackRow palette bppp n b (8 - (nbits + bppp)) input = some (pixels, rest)) :
    unpackRow palette bppp (n + 1) b (8 - nbits) input = some (pix :: pixels, rest) := by
  rw [unpackRow, currentByte, if_neg (by omega)]
  dsimp only [Option.bind_eq_bind, Option.bind_some]
  rw [show 8 - nbits - bppp = 8 - (nbits + bppp) by omega, popIndex hbppp, hb, hpix]
  dsimp only [Option.bind_some]
  rw [hrest]
  rfl

theorem unpackRow_byte {palette : List (Card bpp)} {bppp b n : Nat} (hb : b < 256) (byte : Nat) {bs : List UInt8} :
    unpackRow palette bppp (n + 1) byte 0 (UInt8.ofNat b :: bs) = unpackRow palette bppp (n + 1) b 8 bs := by
  rw [unpackRow, unpackRow, currentByte, currentByte, if_pos rfl, if_neg (by decide), readU8, ofNat_toNat hb]
  rfl

/-- A row of packed pixels. The byte that it goes on with holds some indices before. -/
theorem packRow_unpackRow {ph : PaletteHelper bpp} {pixels palette : List (Card bpp)} {bppp : Nat}
    (h : Indexed cp ph pixels palette) (hbppp : bppp = 1 ∨ bppp = 2 ∨ bppp = 4) (hlen : palette.length ≤ 2 ^ bppp)
    {row : List (Card bpp)} (hrow : ∀ pix ∈ row, pix ∈ pixels) {byte nbits : Nat} (hbyte : byte < 256)
    (hnbits : nbits < 8) (hdvd : bppp ∣ nbits) :
    ∃ bytes, packRow ph bppp row byte nbits = some bytes ∧ bytes.length ≤ row.length + 1 ∧
      (0 < nbits → ∃ b bs, bytes = UInt8.ofNat b :: bs ∧ b < 256 ∧ b / 2 ^ (8 - nbits) = byte % 2 ^ nbits ∧
        ∀ rest, unpackRow palette bppp row.length b (8 - nbits) (bs ++ rest) = some (row.map cp.kept, rest)) ∧
      (nbits = 0 → ∀ byte' rest,
        unpackRow palette bppp row.length byte' 0 (bytes ++ rest) = some (row.map cp.kept, rest)) := by
  induction row generalizing byte nbits with
  | nil =>
    refine ⟨_, rfl, ?_, ?_, ?_⟩
    · split <;> simp
    · intro hpos
      refine ⟨byte <<< (8 - nbits) % 256, [], ?_, Nat.mod_lt _ (by decide), ?_, fun rest => rfl⟩
      · rw [if_pos hpos, ofNat_mod]
      · have hpow : 256 = 2 ^ (8 - nbits) * 2 ^ nbits := by
          rw [← Nat.pow_add, Nat.sub_add_cancel hnbits.le]
        rw [Nat.shiftLeft_eq, hpow, Nat.mul_comm byte, Nat.mul_mod_mul_left,
          Nat.mul_div_cancel_left _ (Nat.two_pow_pos _)]
    · rintro rfl byte' rest
      rfl
  | cons pix row ih =>
    obtain ⟨hpix, hrow'⟩ := List.forall_mem_cons.mp hrow
    obtain ⟨k, hlookup, -, hk, hpalette⟩ := h.lookup hpix
    obtain ⟨hbyte', hlow, hhigh⟩ := pushIndex byte hbppp (show k < 2 ^ bppp by omega)
    have hbppp8 : bppp ≤ 4 := by rcases hbppp with rfl | rfl | rfl <;> omega
    have hpos : 0 < bppp := by rcases hbppp with rfl | rfl | rfl <;> omega
    rw [packRow, hlookup]
    dsimp only [Option.bind_eq_bind, Option.bind_some]
    generalize (byte <<< bppp ||| k) % 256 = byte₁ at hbyte' hlow hhigh ⊢
    by_cases hfull : nbits + bppp ≥ 8
    · have hfull' : nbits + bppp = 8 := by
        rcases hbppp with rfl | rfl | rfl <;> omega
      have hnext := hhigh nbits hfull'.le
      obtain ⟨bytes, hpack, hle, -, hnone⟩ := ih hrow' hbyte' (show 0 < 8 by decide) (dvd_zero bppp)
      rw [if_pos hfull, hpack, Option.map_some]
      have hindex : byte₁ / 2 ^ (8 - (nbits + bppp)) % 2 ^ bppp = k := by
        rw [hfull', Nat.sub_self, Nat.pow_zero, Nat.div_one, hlow]
      have hcons : ∀ rest, unpackRow palette bppp (row.length + 1) byte₁ (8 - nbits) (bytes ++ rest) =
          some (cp.kept pix :: row.map cp.kept, rest) := fun rest =>
        unpackRow_cons hbppp hfull'.le hindex hpalette (by
          rw [hfull']
          exact hnone rfl byte₁ rest)
      refine ⟨_, rfl, Nat.succ_le_succ hle, ?_, ?_⟩
      · intro _
        refine ⟨byte₁, bytes, rfl, hbyte', ?_, hcons⟩
        rw [← hnext, hfull', show 8 - nbits = bppp by omega, Nat.mod_eq_of_lt (show byte₁ < 2 ^ 8 from hbyte')]
      · rintro rfl byte' rest
        rw [List.length_cons, List.cons_append, unpackRow_byte hbyte']
        exact hcons rest
    · have hnext := hhigh nbits (by omega)
      obtain ⟨bytes, hpack, hle, hsome, -⟩ := ih hrow' hbyte' (Nat.lt_of_not_le hfull) (dvd_add hdvd dvd_rfl)
      obtain ⟨b, bs, rfl, hb, hbits, hunpack⟩ := hsome (by omega)
      rw [if_neg hfull]
      have hindex : b / 2 ^ (8 - (nbits + bppp)) % 2 ^ bppp = k := by
        rw [hbits, Nat.mod_mod_of_dvd _ (Nat.pow_dvd_pow 2 (Nat.le_add_left bppp nbits)), hlow]
      have hcons : ∀ rest, unpackRow palette bppp (row.length + 1) b (8 - nbits) (bs ++ rest) =
          some (cp.kept pix :: row.map cp.kept, rest) := fun rest =>
        unpackRow_cons hbppp (by omega) hindex hpalette (hunpack rest)
      refine ⟨_, hpack, hle.trans (Nat.le_succ _), ?_, ?_⟩
      · intro _
        refine ⟨b, bs, rfl, hb, ?_, hcons⟩
        rw [show 8 - nbits = 8 - (nbits + bppp) + bppp by omega, Nat.pow_add, ← Nat.div_div_eq_div_mul, hbits, hnext]
      · rintro rfl byte' rest
        rw [List.length_cons, List.cons_append, unpackRow_byte hb]
        exact hcons rest

theorem packRows_unpackRows {ph : PaletteHelper bpp} {pixels palette : List (Card bpp)} {bppp : Nat}
    (h : Indexed cp ph pixels palette) (hbppp : bppp = 1 ∨ bppp = 2 ∨ bppp = 4) (hlen : palette.length ≤ 2 ^ bppp)
    {data : List (Card bpp)} (hdata : ∀ pix ∈ data, pix ∈ pixels) {w n : Nat} (hn : data.length = w * n) :
    ∃ bytes, packRows ph bppp w n data = some bytes ∧ bytes.length ≤ (w + 1) * n ∧
      ∀ rest, unpackRows palette bppp w n (bytes ++ rest) = some (data.map cp.kept, rest) := by
  induction n generalizing data with
  | zero =>
    have hnil : data = [] := List.eq_nil_of_length_eq_zero hn
    exact ⟨[], rfl, le_rfl, fun rest => by rw [hnil]; rfl⟩
  | succ n ih =>
    rw [Nat.mul_succ] at hn
    have htake : (data.take w).length = w := by
      rw [List.length_take, hn]
      omega
    obtain ⟨row, hrow, hle, -, hunpack⟩ := packRow_unpackRow h hbppp hlen
      (fun pix hpix => hdata pix (List.mem_of_mem_take hpix)) (show 0 < 256 by decide) (show 0 < 8 by decide)
      (dvd_zero bppp)
    obtain ⟨rows, hrows, hle', hunpack'⟩ := ih (fun pix hpix => hdata pix (List.mem_of_mem_drop hpix))
      (by rw [List.length_drop, hn, Nat.add_sub_cancel])
    rw [packRows, hrow]
    dsimp only [Option.bind_eq_bind, Option.bind_some]
    rw [hrows]
    refine ⟨row ++ rows, rfl, ?_, fun rest => ?_⟩
    · rw [List.length_append, Nat.mul_succ]
      omega
    · have hread := hunpack rfl 0 (rows ++ rest)
      rw [htake] at hread
      rw [unpackRows, List.append_assoc, hread]
      dsimp only [Option.bind_eq_bind, Option.bind_some]
      rw [hunpack']
      dsimp only [Option.bind_some]
      rw [← List.map_append, List.take_append_drop]

theorem packedBits_eq : ∀ size < 17, 1 < size → bitsPerPackedPixel (size - 1) = packedBits size ∧
    (packedBits size = 1 ∨ packedBits size = 2 ∨ packedBits size = 4) ∧ size ≤ 2 ^ packedBits size := by
  decide

theorem length_flatMap_write (hcp : cp.Suits bpp) (pixels : List (Card bpp)) :
    (pixels.flatMap cp.write).length = cp.size bpp * pixels.length := by
  induction pixels with
  | nil => rfl
  | cons pix pixels ih =>
    rw [List.flatMap_cons, List.length_append, ih, CPixel.length_write hcp, List.length_cons, Nat.mul_succ, Nat.add_comm]

/-- The pixels of a tile in each of its forms. The palette of the decoder is empty if there is none. -/
theorem writePixels_spec (hcp : cp.Suits bpp) (ph : PaletteHelper bpp) (useRle usePalette : Bool)
    {data : List (Card bpp)} (palette : List (Card bpp)) {w h : Nat} (hlen : data.length = w * h)
    (hnone : usePalette = false → palette = []) (hindexed : usePalette = true → Indexed cp ph data palette)
    (hsize : usePalette = true → palette.length = ph.size ∧ 1 < ph.size)
    (hpacked : usePalette = true → useRle = false → ph.size < 17) :
    ∃ bytes, writePixels cp ph useRle usePalette data w h = some bytes ∧ bytes.length ≤ 5 * (w * h) + h ∧
      ∀ rest, readForm bpp cp useRle palette w h (bytes ++ rest) = some (data.map cp.kept, rest) := by
  have hone : palette.length ≠ 1 := by
    cases usePalette with
    | true =>
      have hsize' := hsize rfl
      omega
    | false =>
      rw [hnone rfl]
      exact Nat.zero_ne_one
  have hcpsize := (cp.size_le bpp).2
  cases useRle with
  | true =>
    cases data with
    | nil =>
      have hwh : w * h = 0 := hlen.symm
      refine ⟨[], rfl, Nat.zero_le _, fun rest => ?_⟩
      rw [readForm, if_neg hone, if_neg (by decide), hwh]
      split <;> rfl
    | cons pix ptr =>
      cases usePalette with
      | true =>
        have hindexed' := hindexed rfl
        obtain ⟨bytes, hwrite, hreads, hle⟩ := writeRuns_reads (fun pix hpix len => writeRun_palette hindexed' hpix)
          List.mem_cons_self Nat.one_pos fun a ha => List.mem_cons_of_mem pix ha
        refine ⟨bytes, hwrite, ?_, fun rest => ?_⟩
        · rw [← hlen, List.length_cons]
          omega
        · have hread := hreads.readRuns_eq rest
          have hpalette : palette.length ≠ 0 := by
            have hsize' := hsize rfl
            omega
          rw [readForm, if_neg hone, if_neg (by decide), if_neg hpalette, ← hlen]
          rwa [List.length_append, List.length_replicate, List.length_map, Nat.add_comm] at hread
      | false =>
        obtain ⟨bytes, hwrite, hreads, hle⟩ := writeRuns_reads
          (fun a (_ : a ∈ pix :: ptr) len => writeRun_plain hcp ph a) List.mem_cons_self Nat.one_pos
          fun a ha => List.mem_cons_of_mem pix ha
        refine ⟨bytes, hwrite, ?_, fun rest => ?_⟩
        · rw [← hlen, List.length_cons]
          omega
        · have hread := hreads.readRuns_eq rest
          rw [readForm, if_neg hone, if_neg (by decide), if_pos (by rw [hnone rfl]; rfl), ← hlen]
          rwa [List.length_append, List.length_replicate, List.length_map, Nat.add_comm] at hread
  | false =>
    cases usePalette with
    | true =>
      obtain ⟨hpalette, hgt⟩ := hsize rfl
      obtain ⟨hbits, hbppp, hfits⟩ := packedBits_eq ph.size (hpacked rfl rfl) hgt
      obtain ⟨bytes, hwrite, hle, hread⟩ := packRows_unpackRows (hindexed rfl) hbppp (hpalette ▸ hfits)
        (fun pix hpix => hpix) hlen
      refine ⟨bytes, ?_, ?_, fun rest => ?_⟩
      · show packRows ph (bitsPerPackedPixel (ph.size - 1)) w h data = some bytes
        rw [hbits]
        exact hwrite
      · rw [Nat.succ_mul] at hle
        omega
      · rw [readForm, if_neg hone, if_pos Bool.not_false, if_neg (by omega), hpalette]
        exact hread rest
    | false =>
      refine ⟨data.flatMap cp.write, rfl, ?_, fun rest => ?_⟩
      · rw [length_flatMap_write hcp, hlen]
        have hle := Nat.mul_le_mul_right (w * h) hcpsize
        omega
      · rw [readForm, if_neg hone, if_pos Bool.not_false, if_pos (by rw [hnone rfl]; rfl), ← hlen]
        exact readPixels_write hcp data rest

theorem not_ne_self (pix : Card bpp) : ~~~pix ≠ pix := by
  intro h
  have hbit := congrArg (fun x : Card bpp => x.getLsbD 0) h
  have hpos : 0 < 8 * bpp.size := Nat.mul_pos (by decide) bpp.size_pos
  simp only [BitVec.getLsbD_not, hpos, decide_true, Bool.true_and] at hbit
  exact Bool.not_ne_self _ hbit

theorem mode_bits : ∀ size < 128, ∀ useRle : Bool,
    (UInt8.ofNat ((if useRle then 128 else 0) ||| size)).toNat &&& 127 = size ∧
      decide ((UInt8.ofNat ((if useRle then 128 else 0) ||| size)).toNat &&& 128 ≠ 0) = useRle := by
  decide

theorem zrleDecodeTile_cons (hcp : cp.Suits bpp) (useRle : Bool) {palette : List (Card bpp)} {size : Nat}
    (hsize : palette.length = size) (hlt : size < 128) {w h : Nat} (input : List UInt8) :
    zrleDecodeTile bpp cp w h (UInt8.ofNat ((if useRle then 128 else 0) ||| size) ::
      (palette.flatMap cp.write ++ input)) = readForm bpp cp useRle (palette.map cp.kept) w h input := by
  obtain ⟨hpal, hrle⟩ := mode_bits size hlt useRle
  rw [zrleDecodeTile, readU8]
  dsimp only [Option.bind_eq_bind, Option.bind_some]
  rw [hpal, hrle, ← hsize, readPixels_write hcp]
  rfl

/-- A tile comes back with the pixels that its packing keeps. -/
theorem zrleEncodeTile_spec (hcp : cp.Suits bpp) {data : List (Card bpp)} {w h : Nat} (hw : 0 < w ∧ w ≤ 64)
    (hh : 0 < h ∧ h ≤ 64) (hlen : data.length = w * h) :
    ∃ bytes, zrleEncodeTile cp data w h = some bytes ∧ bytes.length ≤ 32768 ∧
      ∀ rest, zrleDecodeTile bpp cp w h (bytes ++ rest) = some (data.map cp.kept, rest) := by
  have harea : w * h ≤ 64 * 64 := Nat.mul_le_mul hw.2 hh.2
  have hcpsize := (cp.size_le bpp).2
  cases data with
  | nil =>
    have hpos := Nat.mul_pos hw.1 hh.1
    rw [← hlen] at hpos
    cases hpos
  | cons first ptr =>
    obtain ⟨ph, runs, singlePixels, hcount, hsound, hpos⟩ := countRuns_sound PaletteHelper.Sound.empty first ptr
      (not_ne_self _) false 0 0
    have hmax : PaletteHelper.MAX_SIZE = 127 := rfl
    have hpalette := hsound.length
    rw [zrleEncodeTile]
    dsimp only [Option.bind_eq_bind]
    rw [hcount, Option.bind_some]
    dsimp only
    by_cases hsolid : ph.size = 1
    · rw [hsolid, hmax] at hpalette
      obtain ⟨pix, hpix⟩ := List.length_eq_one_iff.mp hpalette
      have hall : ∀ a ∈ first :: ptr, a = pix := by
        intro a ha
        have hmem := hsound.all (by omega) a (.inr ha)
        rw [hpix] at hmem
        exact List.mem_singleton.mp hmem
      rw [if_pos hsolid, hpix, List.head?_cons, Option.map_some]
      refine ⟨_, rfl, ?_, fun rest => ?_⟩
      · rw [List.length_cons, CPixel.length_write hcp]
        omega
      · have hread := zrleDecodeTile_cons hcp false (show [pix].length = 1 from rfl) (by decide) (w := w) (h := h) rest
        rw [List.flatMap_singleton] at hread
        refine hread.trans ?_
        rw [readForm, if_pos (show (List.map cp.kept [pix]).length = 1 from rfl), List.eq_replicate_of_mem hall,
          List.map_replicate, hlen]
        simp
    · rw [if_neg hsolid]
      obtain ⟨hmany, hfew⟩ := chooseForm_spec (cp.size bpp) ph.size (w * h) runs singlePixels
      generalize chooseForm (cp.size bpp) ph.size (w * h) runs singlePixels = form at hmany hfew ⊢
      obtain ⟨useRle, usePalette⟩ := form
      dsimp only at hmany ⊢
      have hlt : (if usePalette then ph.size else 0) < 128 := by
        cases usePalette with
        | true => exact hmany rfl
        | false => exact Nat.succ_pos 127
      have htake : (ph.palette.take (if usePalette then ph.size else 0)).length = if usePalette then ph.size else 0 := by
        rw [List.length_take, hpalette]
        cases usePalette with
        | true =>
          have hlt' := hmany rfl
          rw [if_pos rfl]
          omega
        | false => exact Nat.zero_min _
      have hwhole : usePalette = true → ph.palette.take (if usePalette then ph.size else 0) = ph.palette := by
        intro huse
        have hlt' := hmany huse
        rw [if_pos huse]
        exact List.take_of_length_le (by omega)
      have hindexed : usePalette = true → Indexed cp ph (first :: ptr)
          ((ph.palette.take (if usePalette then ph.size else 0)).map cp.kept) := by
        intro huse
        have hlt' := hmany huse
        exact ⟨⟨_, hsound⟩, fun pix hpix => hsound.all (by omega) pix (.inr hpix), by rw [hwhole huse]⟩
      have hsize : usePalette = true →
          ((ph.palette.take (if usePalette then ph.size else 0)).map cp.kept).length = ph.size ∧ 1 < ph.size := by
        intro huse
        rw [List.length_map, htake, if_pos huse]
        exact ⟨rfl, by omega⟩
      obtain ⟨pixels, hwrite, hle, hread⟩ := writePixels_spec hcp ph useRle usePalette
        ((ph.palette.take (if usePalette then ph.size else 0)).map cp.kept) hlen (by rintro rfl; rfl) hindexed hsize
        (by rintro rfl rfl; exact hfew rfl)
      rw [hwrite, Option.bind_some]
      refine ⟨_, rfl, ?_, fun rest => ?_⟩
      · rw [List.length_cons, List.length_append, length_flatMap_write hcp, htake]
        have hle' := Nat.mul_le_mul hcpsize (Nat.le_of_lt_succ hlt)
        omega
      · rw [← hread rest, List.cons_append, List.append_assoc]
        exact zrleDecodeTile_cons hcp useRle htake hlt _

end Colama.Vnc4.Zrle

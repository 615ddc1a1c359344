import Mathlib
import Colama.Spice.Glz.DictionaryRuns

namespace Colama.Spice.Glz

open Lib Lz

/-- The pixels that a chunk of lines is given as a segment. -/
def GlzImage.segmentPixels (image : GlzImage) (c : Chunk) : Nat := image.pixels * c.numLines % 2 ^ 32 / image.height

theorem GlzImage.segmentPixels_eq_iff (image : GlzImage) (c : Chunk) :
    image.segmentPixels c = c.numLines * image.linePixels ↔ image.pixels * c.numLines < 2 ^ 32 := by
  have hheight := image.height_pos
  have hprod : image.pixels * c.numLines = c.numLines * image.linePixels * image.height := by
    rw [image.pixels_eq, Nat.mul_comm, ← Nat.mul_assoc]
  constructor
  · intro heq
    by_contra hover
    have hdiv : image.segmentPixels c * image.height ≤ image.pixels * c.numLines % 2 ^ 32 := Nat.div_mul_le_self ..
    have hlt := Nat.mod_lt (image.pixels * c.numLines) (show 0 < 2 ^ 32 by decide)
    rw [heq, ← hprod] at hdiv
    omega
  · intro hfit
    rw [segmentPixels, Nat.mod_eq_of_lt hfit, hprod, Nat.mul_div_cancel _ hheight]

/-- The loop of `glz_dictionary_window_get_new_head` subtracts no more than there is, and stops before it has passed
the last image. -/
def Subtracts (d : SharedDictionary) (size : Nat) : Nat → Nat → Option Nat → Prop
  | 0, _, _ => False
  | n + 1, curWinSize, curHead => (curWinSize + size) % 2 ^ 32 > d.sizeLimit →
    ∃ p, curHead = some p ∧ (d.images p).size ≤ curWinSize ∧
      Subtracts d size n (curWinSize - (d.images p).size) (d.images p).next

/-- The numbers of pixels of the segments, of the images and of the window agree. -/
structure Accounted (s : DictState) : Prop where
  segments : ∃ parts, s.dict.usedSegs = parts.flatten ∧ List.Forall₂ (fun p l =>
    (∀ i ∈ l, (s.dict.segs i).image = some p) ∧ segPixels s.dict l = (s.dict.images p).size) s.dict.usedImages parts
  window : s.dict.usedImages ≠ [] →
    (s.dict.segs s.dict.usedSegsHead).pixelsSoFar + s.dict.pixels s.dict.usedImages =
        (s.dict.segs s.dict.usedSegsTail).pixelsNum + (s.dict.segs s.dict.usedSegsTail).pixelsSoFar ∧
      s.dict.curWinSize = s.dict.pixels s.dict.usedImages
  newHead : ∀ size < s.dict.sizeLimit, s.dict.pixels s.dict.usedImages + size < 2 ^ 32 →
    (∃ head, s.dict.getNewHead size = .ok head) ∧ (s.dict.usedImages ≠ [] →
      Subtracts s.dict size (s.dict.nRecords + 1) s.dict.curWinSize (s.dict.segs s.dict.usedSegsHead).image)

/-- The new image is the last one, and its segments have the pixels of their lines. -/
def AddsSegments (image : GlzImage) (s' : DictState) : Prop :=
  ∃ images p before ss, s'.dict.usedImages = images ++ [p] ∧ s'.dict.usedSegs = before ++ ss ∧
    ss.map (fun i => (s'.dict.segs i).pixelsNum) = image.chunks.map (fun c => c.numLines * image.linePixels) ∧
    (s'.dict.images p).size = image.pixels ∧ segPixels s'.dict ss = image.pixels

section Account

variable {d : SharedDictionary} {s : DictState} {used : Used} {free spare : List Nat} {size : Nat}

theorem subtracts_of_chain {n : Nat} {ptr : Option Nat} (h : ImageChain d ptr (imagesOf used))
    (hfit : winPixels d used + size < 2 ^ 32) (hsize : size ≤ d.sizeLimit) (hn : used.length < n) :
    Subtracts d size n (winPixels d used) ptr := by
  induction used generalizing ptr n with
  | nil =>
    obtain ⟨n, rfl⟩ : ∃ k, n = k + 1 := ⟨n - 1, by simp at hn; omega⟩
    intro hbig
    simp only [winPixels, List.map_nil, List.sum_nil, Nat.zero_add] at hfit hbig
    omega
  | cons x rest ih =>
    obtain ⟨n, rfl⟩ : ∃ k, n = k + 1 := ⟨n - 1, by simp at hn; omega⟩
    rw [winPixels_cons] at hfit ⊢
    intro _
    refine ⟨x.1, h.1, Nat.le_add_right _ _, ?_⟩
    rw [Nat.add_sub_cancel_left]
    exact ih h.2 (by omega) (by simpa using hn)

theorem DictInv.accounted (h : DictInv s used free spare) (hlt : winPixels s.dict used < 2 ^ 32) : Accounted s := by
  have hw := h.window
  refine ⟨⟨used.map Prod.snd, ?_, ?_⟩, fun hne => ?_, fun size hsize hfit => ?_⟩
  · rw [hw.usedSegs_eq, segsOf, List.flatMap_def]
  · rw [hw.usedImages_eq, imagesOf, List.forall₂_map_left_iff, List.forall₂_map_right_iff, List.forall₂_same]
    exact fun x hx => ⟨(hw.image_segs x hx).image_eq, (hw.image_segs x hx).pixels_eq⟩
  · rw [hw.usedImages_eq] at hne
    have hne' : used ≠ [] := fun hnil => hne (by rw [hnil]; rfl)
    rw [hw.usedImages_eq, pixels_imagesOf]
    exact ⟨(hw.soFar_eq hne').1, (hw.curWinSize_eq hne' hlt).1⟩
  · rw [hw.usedImages_eq, pixels_imagesOf] at hfit
    obtain ⟨-, new, -, hhead, -⟩ := hw.getNewHead hsize hfit
    refine ⟨⟨_, hhead⟩, fun hne => ?_⟩
    rw [hw.usedImages_eq] at hne
    cases used with
    | nil => exact absurd rfl hne
    | cons x rest =>
      obtain ⟨l, hl⟩ := (hw.image_segs x List.mem_cons_self).cons_eq
      have hchain := hw.head
      rw [segsOf_cons, hl] at hchain
      have himage : (s.dict.segs s.dict.usedSegsHead).image = some x.1 := by
        rw [(eq_of_segNode hchain.1).1]
        exact (hw.image_segs x List.mem_cons_self).image_eq _ (by rw [hl]; exact List.mem_cons_self)
      have hlinked := hw.images.linked
      rw [hw.images.head_eq] at hlinked
      rw [(hw.curWinSize_eq (List.cons_ne_nil _ _) (by omega)).1, himage]
      exact subtracts_of_chain hlinked hfit hsize.le (Nat.lt_succ_of_le hw.length_le_nRecords)

theorem DictInv.addsSegments {e : Nat} {image : GlzImage} (h : DictInv s used free spare)
    (ha : Alternates s (.preEncode e image)) (hf : NoOverflow s (.preEncode e image)) :
    ∃ s', s.step (.preEncode e image) = .ok s' ∧ AddsSegments image s' ∧
      ∃ used' free' spare', DictInv s' used' free' spare' ∧ winPixels s'.dict used' < 2 ^ 32 := by
  obtain ⟨he, hidle, hsize⟩ := ha
  have hfits : Fits s.dict used image := by
    obtain ⟨h₁, h₂, h₃, h₄, h₅⟩ := hf
    rw [h.window.usedImages_eq, pixels_imagesOf] at h₂
    rw [h.window.usedSegs_eq] at h₃
    exact ⟨h₁, h₂, h₃, h₄, h₅⟩
  obtain ⟨d, old, kept, new, win, x, p, ss, free', spare', rfl, hpre, hp, hle, hkept, hmin⟩ :=
    h.preEncode hidle hsize hfits
  have hinv := hp.inv h hle hkept hmin he
  refine ⟨_, by rw [DictState.step, hpre]; rfl,
    ⟨imagesOf (kept ++ new), p, segsOf (kept ++ new), ss, ?_, ?_, ?_, ?_, ?_⟩, _, _, _, hinv, ?_⟩
  · exact hinv.window.usedImages_eq.trans (imagesOf_append _ _)
  · refine hinv.window.usedSegs_eq.trans ((segsOf_append _ _).trans ?_)
    rw [segsOf_cons]
    simp [segsOf]
  · refine hp.filled.pixelsNum_eq.trans (List.map_congr_left fun c _ => Nat.mul_comm _ _)
  · exact hp.size_eq
  · have himage := hp.window.image_segs (p, ss) (by simp)
    exact himage.pixels_eq.trans hp.size_eq
  · have hsame : winPixels d (kept ++ new) = winPixels s.dict (kept ++ new) := winPixels_congr hp.images
    have hkept' : winPixels s.dict (kept ++ new) ≤ winPixels s.dict (old ++ new) := by
      obtain rfl | ⟨rfl, -⟩ := hkept
      · exact le_rfl
      · rw [winPixels_append s.dict old]
        exact Nat.le_add_left _ _
    have hnew : winPixels d [(p, ss)] = image.pixels := hp.size_eq
    have hfit := hfits.window
    show winPixels d (kept ++ new ++ [(p, ss)]) < 2 ^ 32
    rw [winPixels_append, hsame, hnew]
    omega

/-- Along a run without overflows the window stays below 2^32 pixels. -/
theorem DictRuns.winPixels_lt {size maxEncoders : Nat}
    (hd : SharedDictionary.glzEncDictionaryCreate size maxEncoders = some d)
    (h : DictRuns d (fun s a => Alternates s a ∧ NoOverflow s a) s) :
    ∃ used free spare, DictInv s used free spare ∧ winPixels s.dict used < 2 ^ 32 := by
  rw [SharedDictionary.glzEncDictionaryCreate] at hd
  split at hd
  · cases hd
  · rename_i hsize
    obtain rfl := Option.some.inj hd
    refine Reachable.invariant (fun s => ∃ used free spare, DictInv s used free spare ∧ winPixels s.dict used < 2 ^ 32) h
      ⟨_, _, _, .init (Nat.not_lt.mp hsize), Nat.two_pow_pos 32⟩ ?_
    rintro s a s' ⟨used, free, spare, hs, hlt⟩ ⟨ha, hf⟩ he
    cases a with
    | preEncode e image =>
      obtain ⟨s₁, he', -, hinv⟩ := hs.addsSegments ha hf
      rw [he] at he'
      cases he'
      exact hinv
    | postEncode e =>
      obtain ⟨enc, henc⟩ := Option.ne_none_iff_exists'.mp ha
      rw [DictState.step, hs.postEncode henc] at he
      cases he
      exact ⟨used, free, spare, hs.post_inv, hlt⟩
    | removeImage p =>
      cases he
      refine ⟨used, free, spare, hs.remove_inv p, ?_⟩
      rw [winPixels_removeImage]
      exact hlt

end Account

/-- In every run without overflows the numbers of pixels agree, each new image is given segments with the pixels of
their lines, and for an image that is accepted this is so exactly if no product overflows. -/
theorem dictRuns_accounted (size maxEncoders : Nat) (d : SharedDictionary)
    (hd : SharedDictionary.glzEncDictionaryCreate size maxEncoders = some d) (s : DictState)
    (h : DictRuns d (fun s a => Alternates s a ∧ NoOverflow s a) s) :
    Accounted s ∧
      (∀ e image, Alternates s (.preEncode e image) → NoOverflow s (.preEncode e image) →
        ∃ s', s.step (.preEncode e image) = .ok s' ∧ AddsSegments image s') ∧
      ∀ image : GlzImage, ∀ c ∈ image.chunks,
        image.segmentPixels c = c.numLines * image.linePixels ↔ image.pixels * c.numLines < 2 ^ 32 := by
  obtain ⟨used, free, spare, hs, hlt⟩ := h.winPixels_lt hd
  refine ⟨hs.accounted hlt, fun e image ha hf => ?_, fun image c _ => image.segmentPixels_eq_iff c⟩
  obtain ⟨s', he, hadds, -⟩ := hs.addsSegments ha hf
  exact ⟨s', he, hadds⟩

theorem dictRuns_accounted_onePixel : ∃ s,
    DictState.step (.init (.create 100 1)) (.preEncode 0 (oneLine 1 Nat.one_pos)) = .ok s ∧
      AddsSegments (oneLine 1 Nat.one_pos) s ∧ Accounted s := by
  have hinit : DictRuns (.create 100 1) (fun s a => Alternates s a ∧ NoOverflow s a)
      (.init (.create 100 1)) := .init
  have ha : Alternates (.init (.create 100 1)) (.preEncode 0 (oneLine 1 Nat.one_pos)) := ⟨by decide, rfl, by decide⟩
  have hf : NoOverflow (.init (.create 100 1)) (.preEncode 0 (oneLine 1 Nat.one_pos)) :=
    ⟨by decide, by decide, by decide, by decide, by decide⟩
  obtain ⟨s, hs, hadds⟩ := (dictRuns_accounted 100 1 _ rfl _ hinit).2.1 _ _ ha hf
  exact ⟨s, hs, hadds, (dictRuns_accounted 100 1 _ rfl _ (.step hinit ⟨ha, hf⟩ hs)).1⟩

/-- An image of 256 lines in one chunk. -/
def tallImage : GlzImage where
  type := .rgb32
  width := 65536
  height := 256
  stride := 65536 * 4
  chunks := [⟨256, List.replicate (256 * (65536 * 4)) 0⟩]
  type_ok := (.inl rfl : true = true ∨ _)
  stride_pos := by decide
  stride_rgb := fun _ => rfl
  stride_plt := fun h => by cases h
  height_pos := by decide
  numLines_pos := fun c hc => by rw [List.mem_singleton.mp hc]; decide
  numLines_sum := rfl
  lines_length := fun c hc => by
    rw [List.mem_singleton.mp hc]
    exact List.length_replicate

/-- The only segment of the image has no pixels. -/
theorem not_accounted_tallImage : ∃ s,
    DictState.step (.init (.create (2 ^ 25) 1)) (.preEncode 0 tallImage) = .ok s ∧ tallImage.pixels < 2 ^ 25 ∧
      ¬Accounted s := by
  have hrun : ((DictState.step (.init (.create (2 ^ 25) 1)) (.preEncode 0 tallImage)).toOption.map fun s =>
      (s.dict.usedImages, s.dict.pixels s.dict.usedImages, s.dict.curWinSize)) = some ([0], 2 ^ 24, 0) := by
    decide
  cases hs : DictState.step (.init (.create (2 ^ 25) 1)) (.preEncode 0 tallImage) with
  | error err =>
    rw [hs] at hrun
    cases hrun
  | ok s =>
    rw [hs] at hrun
    simp only [Except.toOption, Option.map_some, Option.some.injEq, Prod.mk.injEq] at hrun
    obtain ⟨himages, hpixels, hcur⟩ := hrun
    refine ⟨s, rfl, by decide, fun h => ?_⟩
    have heq := (h.window (by rw [himages]; decide)).2
    rw [hcur, hpixels] at heq
    exact absurd heq (by decide)

end Colama.Spice.Glz

import Mathlib.Tactic
import Colama.Lib.Runs
import Colama.Spice.Glz.DictionaryWindow

namespace Colama.Spice.Glz

open Lib Lz

section NewHead

variable {d d' : SharedDictionary} {used : Used} {free spare : List Nat} {size : Nat}

theorem segPixels_eq (h : ∀ x ∈ used, ImageSegs d x) : segPixels d (segsOf used) = winPixels d used := by
  induction used with
  | nil => rfl
  | cons x used ih =>
    have hx := (h x List.mem_cons_self).pixels_eq
    have hrest := ih fun y hy => h y (List.mem_cons_of_mem _ hy)
    rw [segsOf_cons, winPixels_cons, ← hx, ← hrest, segPixels, segPixels, segPixels, List.map_append,
      List.sum_append]

/-- The pixels of the window lie between those before its first segment and those up to its last. -/
theorem Window.soFar_eq (h : Window d used free spare) (hne : used ≠ []) :
    (d.segs d.usedSegsHead).pixelsSoFar + winPixels d used =
        (d.segs d.usedSegsTail).pixelsNum + (d.segs d.usedSegsTail).pixelsSoFar ∧
      d.usedSegsHead ≠ nullImageSegId ∧ d.usedSegsTail ≠ nullImageSegId := by
  obtain ⟨x, rest, rfl⟩ := List.exists_cons_of_ne_nil hne
  obtain ⟨l, hl⟩ := (h.image_segs x List.mem_cons_self).cons_eq
  have hsegs : segsOf (x :: rest) = (d.images x.1).firstSeg :: (l ++ segsOf rest) := by
    rw [segsOf_cons, hl]
    rfl
  obtain ⟨a, ha⟩ := h.segs.offsets
  rw [List.flatten_singleton] at ha
  have hsum := ha.sum_eq
  have hpix : a + winPixels d (x :: rest) = d.pixelsSoFar := by
    rw [← segPixels_eq h.image_segs]
    exact hsum
  obtain hnil | ⟨m, t, hm⟩ := (segsOf (x :: rest)).eq_nil_or_concat'
  · rw [hsegs] at hnil
    cases hnil
  have htail : d.usedSegsTail = t := by
    rw [h.tail, hm, List.getLast?_concat]
    rfl
  have hlt : t < nullImageSegId := h.segs.lt_null (by simp [hm])
  have hhead := h.head
  rw [hsegs] at hhead
  obtain ⟨hfirst, hnull⟩ := eq_of_segNode hhead.1
  have hoff : (d.segs d.usedSegsHead).pixelsSoFar = a := by
    rw [hsegs] at ha
    rw [hfirst]
    exact ha.1
  have hend : (d.segs t).pixelsSoFar + (d.segs t).pixelsNum = d.pixelsSoFar := by
    rw [hm] at ha
    obtain ⟨b, -, hb⟩ := ha.split
    rw [hb.1]
    exact hb.2
  refine ⟨?_, hnull, by rw [htail]; exact hlt.ne⟩
  rw [htail, hoff]
  omega

/-- As long as it fits a `uint32_t`, the size of the window is computed right. -/
theorem Window.curWinSize_eq (h : Window d used free spare) (hne : used ≠ [])
    (hfit : winPixels d used < 2 ^ 32) :
    d.curWinSize = winPixels d used ∧ d.usedSegsHead ≠ nullImageSegId ∧
      d.usedSegsTail ≠ nullImageSegId := by
  obtain ⟨hpix, hhead, htail⟩ := h.soFar_eq hne
  refine ⟨?_, hhead, htail⟩
  rw [SharedDictionary.curWinSize]
  omega

/-- The loop drops the images `old` until the rest and the new image fit into the window. -/
theorem newHeadFrom_spec {n : Nat} {ptr : Option Nat} (h : ImageChain d ptr (imagesOf used))
    (hfit : winPixels d used + size < 2 ^ 32) (hsize : size ≤ d.sizeLimit) (hn : used.length < n) :
    ∃ old new, used = old ++ new ∧
      d.newHeadFrom size n (winPixels d used) ptr = .ok (imagesOf new).head? ∧
      winPixels d new + size ≤ d.sizeLimit ∧
      ∀ l x m, old = l ++ x :: m → d.sizeLimit < winPixels d (x :: m ++ new) + size := by
  induction used generalizing ptr n with
  | nil =>
    obtain ⟨n, rfl⟩ : ∃ k, n = k + 1 := ⟨n - 1, by simp at hn; omega⟩
    cases h
    refine ⟨[], [], rfl, ?_, by simpa [winPixels] using hsize, by simp⟩
    rw [SharedDictionary.newHeadFrom, if_neg]
    · rfl
    · simp only [winPixels, List.map_nil, List.sum_nil, Nat.zero_add] at hfit ⊢
      rw [Nat.mod_eq_of_lt hfit]
      omega
  | cons x rest ih =>
    obtain ⟨n, rfl⟩ : ∃ k, n = k + 1 := ⟨n - 1, by simp at hn; omega⟩
    have hptr : ptr = some x.1 := h.1
    have hmod := Nat.mod_eq_of_lt hfit
    rw [winPixels_cons] at hfit
    by_cases hbig : winPixels d (x :: rest) + size > d.sizeLimit
    · obtain ⟨old, new, hsplit, he, hle, hmin⟩ := ih h.2 (by omega) (by simpa using hn)
      refine ⟨x :: old, new, by rw [hsplit]; rfl, ?_, hle, fun l y m hl => ?_⟩
      · rw [hptr, SharedDictionary.newHeadFrom, hmod, if_pos hbig]
        simp only [winPixels_cons]
        rw [show ((d.images x.1).size + winPixels d rest + 2 ^ 32 - (d.images x.1).size) % 2 ^ 32 =
          winPixels d rest by omega]
        exact he
      · cases l with
        | nil =>
          obtain ⟨rfl, rfl⟩ := List.cons.inj hl
          rw [List.cons_append, ← hsplit]
          exact hbig
        | cons z l => exact hmin l y m (List.cons.inj hl).2
    · refine ⟨[], x :: rest, rfl, ?_, by omega, by simp⟩
      rw [hptr, SharedDictionary.newHeadFrom, hmod, if_neg hbig]
      rfl

theorem Window.getNewHead_cons {x : Nat × List Nat} {rest : Used}
    (h : Window d (x :: rest) free spare) (hsize : size < d.sizeLimit)
    (hfit : winPixels d (x :: rest) < 2 ^ 32) :
    d.getNewHead size =
      d.newHeadFrom size (d.nRecords + 1) (winPixels d (x :: rest)) (some x.1) := by
  obtain ⟨hcur, hhead, htail⟩ := h.curWinSize_eq (List.cons_ne_nil _ _) hfit
  obtain ⟨l, hl⟩ := (h.image_segs x List.mem_cons_self).cons_eq
  have hchain := h.head
  rw [segsOf_cons, hl] at hchain
  have himage : (d.segs d.usedSegsHead).image = some x.1 := by
    rw [(eq_of_segNode hchain.1).1]
    exact (h.image_segs x List.mem_cons_self).image_eq _ (by rw [hl]; exact List.mem_cons_self)
  rw [SharedDictionary.getNewHead, if_neg (by omega), if_neg (by omega), h.images.head_eq]
  simp only [imagesOf_cons, List.head?_cons, hhead, htail, or_self, if_false, hcur, himage]

theorem Window.getNewHead (h : Window d used free spare) (hsize : size < d.sizeLimit)
    (hfit : winPixels d used + size < 2 ^ 32) :
    ∃ old new, used = old ++ new ∧ d.getNewHead size = .ok (imagesOf new).head? ∧
      winPixels d new + size ≤ d.sizeLimit ∧
      ∀ l x m, old = l ++ x :: m → d.sizeLimit < winPixels d (x :: m ++ new) + size := by
  cases used with
  | nil =>
    refine ⟨[], [], rfl, ?_, by simpa [winPixels] using hsize.le, by simp⟩
    rw [SharedDictionary.getNewHead, if_neg (by omega), if_neg (by omega), h.images.head_eq]
    rfl
  | cons x rest =>
    have hlinked := h.images.linked
    rw [h.images.head_eq] at hlinked
    rw [h.getNewHead_cons hsize (by omega)]
    exact newHeadFrom_spec hlinked hfit hsize.le (Nat.lt_succ_of_le h.length_le_nRecords)

/-- The ids count back from the last one. -/
theorem Body.id_eq {old rest : Used} {x : Nat × List Nat} (h : Body d (old ++ x :: rest) free spare) :
    (d.images x.1).id + rest.length + 1 = d.lastImageId := by
  have hget := congrArg (·[old.length]?) h.ids
  have hlen := h.length_le
  simp only [List.length_append, List.length_cons] at hget hlen
  rw [List.map_append, List.map_cons, List.getElem?_append_right (by simp),
    List.getElem?_range' (by omega)] at hget
  simp only [List.length_map, Nat.sub_self, List.getElem?_cons_zero, Option.some.injEq] at hget
  omega

theorem length_le_winPixels (h : ∀ x ∈ used, ImageSegs d x) : used.length ≤ winPixels d used := by
  induction used with
  | nil => exact Nat.zero_le _
  | cons x used ih =>
    have hx := (h x List.mem_cons_self).size_pos
    have := ih fun y hy => h y (List.mem_cons_of_mem _ hy)
    rw [List.length_cons, winPixels_cons]
    omega

end NewHead

theorem rgbBytesPerPixel_bounds {type : LzImageType} (h : type.isRgb) :
    0 < type.rgbBytesPerPixel ∧ type.rgbBytesPerPixel ≤ 4 := by
  revert h
  cases type <;> decide

theorem pltPixelsPerByte_pos {type : LzImageType} (h : type.isPlt) : 0 < type.pltPixelsPerByte := by
  revert h
  cases type <;> decide

/-- The pixels of a line, padding included. -/
def GlzImage.linePixels (image : GlzImage) : Nat :=
  if image.type.isRgb then image.width else image.stride * image.type.pltPixelsPerByte

theorem GlzImage.pixels_eq (image : GlzImage) : image.pixels = image.linePixels * image.height := by
  unfold pixels linePixels
  split
  · exact Nat.mul_comm _ _
  · rw [Nat.mul_assoc, Nat.mul_comm]

theorem GlzImage.linePixels_pos (image : GlzImage) : 0 < image.linePixels := by
  have hpos := image.stride_pos
  unfold linePixels
  split
  · rename_i hrgb
    rw [image.stride_rgb hrgb] at hpos
    exact Nat.pos_of_mul_pos_right hpos
  · rename_i hrgb
    exact Nat.mul_pos hpos (pltPixelsPerByte_pos (image.type_ok.resolve_left hrgb))

theorem GlzImage.getPixelsNum_eq (image : GlzImage) (h : image.pixels < 2 ^ 25) :
    SharedDictionary.getPixelsNum image.type image.height image.stride = image.pixels := by
  unfold pixels at *
  unfold SharedDictionary.getPixelsNum
  split
  · rename_i hrgb
    rw [if_pos hrgb] at h
    obtain ⟨h₁, h₂⟩ := rgbBytesPerPixel_bounds hrgb
    have hle := Nat.mul_le_mul_left (image.height * image.width) h₂
    rw [image.stride_rgb hrgb, ← Nat.mul_assoc, Nat.mod_eq_of_lt (by omega), Nat.mul_div_cancel _ h₁]
  · rename_i hrgb
    rw [if_neg hrgb] at h
    exact Nat.mod_eq_of_lt (by omega)

/-- An encoder that was given `head` as the first segment of its window. -/
def Holds (d : SharedDictionary) (used : Used) (head : Nat) (enc : Encoding) : Prop :=
  ∃ old x win later, used = old ++ x :: win ++ later ∧ head = (d.images x.1).firstSeg ∧
    (d.images x.1).id + enc.headDist = enc.imageId ∧
    enc.imageId + later.length + 1 = d.lastImageId ∧ winPixels d (x :: win) ≤ d.sizeLimit

structure DictInv (s : DictState) (used : Used) (free spare : List Nat) : Prop where
  window : Window s.dict used free spare
  limit : s.dict.sizeLimit ≤ lzMaxWindowSize
  idle : ∀ e, s.encoding e = none → s.dict.encodersHeads e = nullImageSegId
  busy : ∀ e enc, s.encoding e = some enc → e < s.dict.maxEncoders ∧
    s.dict.encodersHeads e ≠ nullImageSegId ∧ Holds s.dict used (s.dict.encodersHeads e) enc
  heads_le : s.heads.Pairwise (· ≥ ·)
  head_lt : ∀ h ∈ s.heads.head?, h < s.dict.lastImageId
  -- what is before the last head does not fit into a window any more
  before_head : ∀ h ∈ s.heads.head?, ∀ old x rest, used = old ++ x :: rest →
    (s.dict.images x.1).id < h → s.dict.sizeLimit < winPixels s.dict (x :: rest)

section Steps

variable {s s' : DictState} {d : SharedDictionary} {used old new : Used} {free spare : List Nat} {e : Nat}

theorem SharedDictionary.isInUse_iff (d : SharedDictionary) :
    d.isInUse = true ↔ ∃ e < d.maxEncoders, d.encodersHeads e ≠ nullImageSegId := by
  simp [isInUse]

/-- The images before the new head are removed, unless an encoder is at work. -/
theorem DictInv.trim (h : DictInv s (old ++ new) free spare) :
    ∃ d kept free' spare',
      (if s.dict.isInUse then .ok s.dict else s.dict.windowRemoveHead (imagesOf new).head?) = .ok d ∧
      Window d (kept ++ new) free' spare' ∧ SameImages s.dict d (imagesOf (kept ++ new)) ∧
      SameSegs s.dict d (segsOf (kept ++ new)) ∧ RemoveFrame s.dict d ∧
      (kept = old ∨ kept = [] ∧ ∀ e, s.encoding e = none) := by
  by_cases huse : s.dict.isInUse
  · exact ⟨s.dict, old, free, spare, if_pos huse, h.window, fun p _ => rfl, fun i _ => rfl,
      by constructor <;> rfl, .inl rfl⟩
  · obtain ⟨d, free', spare', he, hw, hsegs, himgs, hframe⟩ := h.window.windowRemoveHead
    refine ⟨d, [], free', spare', by rw [if_neg huse, he], hw, himgs, hsegs _, hframe,
      .inr ⟨rfl, fun e => ?_⟩⟩
    by_contra hne
    obtain ⟨enc, henc⟩ := Option.ne_none_iff_exists'.mp hne
    obtain ⟨hlt, hnull, -⟩ := h.busy e enc henc
    exact huse ((s.dict.isInUse_iff).mpr ⟨e, hlt, hnull⟩)

/-- What `pre_encode` leaves: the window ends with the new image, and begins for the encoder with
the image `x`. -/
structure PreEncoded (s : DictState) (d : SharedDictionary) (image : GlzImage) (kept new win : Used)
    (x : Nat × List Nat) (p : Nat) (ss free spare : List Nat) : Prop where
  window : Window d (kept ++ new ++ [(p, ss)]) free spare
  images : SameImages s.dict d (imagesOf (kept ++ new))
  segs : SameSegs s.dict d (segsOf (kept ++ new))
  filled : Filled d p image.linePixels ss image.chunks
  win_eq : new ++ [(p, ss)] = x :: win
  id_eq : (d.images p).id = s.dict.lastImageId
  head_id : (d.images x.1).id + win.length = s.dict.lastImageId
  win_le : winPixels d (x :: win) ≤ d.sizeLimit
  size_eq : (d.images p).size = image.pixels
  type_eq : (d.images p).type = image.type
  alive : (d.images p).isAlive = true
  pixelsSoFar : d.pixelsSoFar = s.dict.pixelsSoFar + image.pixels
  lastImageId : d.lastImageId = s.dict.lastImageId + 1
  encodersHeads : d.encodersHeads = s.dict.encodersHeads
  sizeLimit : d.sizeLimit = s.dict.sizeLimit
  maxEncoders : d.maxEncoders = s.dict.maxEncoders

/-- The conditions on an image under which the numbers of `pre_encode` do not overflow. -/
structure Fits (d : SharedDictionary) (used : Used) (image : GlzImage) : Prop where
  chunks : ∀ c ∈ image.chunks, image.pixels * c.numLines < 2 ^ 32
  window : winPixels d used + image.pixels < 2 ^ 32
  segs : (segsOf used).length + image.chunks.length ≤ 1000 * 2 ^ 22
  pixelsSoFar : d.pixelsSoFar + image.pixels < 2 ^ 64
  lastImageId : d.lastImageId + 1 < 2 ^ 64

theorem preEncode_eq {d₁ d₂ : SharedDictionary} {type : LzImageType} {height stride size p : Nat}
    {chunks : List Chunk} {newWinHead : Option Nat} (hidle : d.encodersHeads e = nullImageSegId)
    (hpix : SharedDictionary.getPixelsNum type height stride = size)
    (hnew : d.getNewHead size = .ok newWinHead)
    (htrim : (if d.isInUse then .ok d else d.windowRemoveHead newWinHead) = .ok d₁)
    (hadd : d₁.addImage type size height chunks = .ok (d₂, p)) :
    d.preEncode e type height stride chunks = .ok (d₂.setEncoderHead e p newWinHead) := by
  rw [SharedDictionary.preEncode, if_neg (not_not.mpr hidle), hpix]
  change d.getNewHead size >>= _ = _
  rw [hnew]
  change (if d.isInUse then .ok d else d.windowRemoveHead newWinHead) >>= _ = _
  rw [htrim]
  change d₁.addImage type size height chunks >>= _ = _
  rw [hadd]
  rfl

theorem DictInv.preEncode {image : GlzImage} (h : DictInv s used free spare)
    (hidle : s.encoding e = none) (hsize : image.pixels < s.dict.sizeLimit)
    (hfits : Fits s.dict used image) :
    ∃ d old kept new win x p ss free' spare', used = old ++ new ∧
      s.dict.preEncode e image.type image.height image.stride image.chunks =
        .ok ({ d with encodersHeads :=
          Function.update d.encodersHeads e (d.images x.1).firstSeg }, p, win.length) ∧
      PreEncoded s d image kept new win x p ss free' spare' ∧
      winPixels s.dict new ≤ s.dict.sizeLimit ∧ (kept = old ∨ kept = [] ∧ ∀ e, s.encoding e = none) ∧
      ∀ l y m, old = l ++ y :: m → s.dict.sizeLimit < winPixels s.dict (y :: m ++ new) + image.pixels := by
  have hlim := h.limit
  unfold lzMaxWindowSize at hlim
  obtain ⟨old, new, rfl, hnew, hle, hmin⟩ := h.window.getNewHead hsize hfits.window
  obtain ⟨d₁, kept, free₁, spare₁, htrim, hw₁, himgs₁, hsegs₁, hframe₁, hkept⟩ := h.trim
  have hlen : (segsOf (kept ++ new)).length ≤ (segsOf (old ++ new)).length := by
    obtain rfl | ⟨rfl, -⟩ := hkept
    · exact le_rfl
    · simp
  have hcond : d₁.pixelsSoFar + image.linePixels * image.height < 2 ^ 64 ∧
      d₁.lastImageId + 1 < 2 ^ 64 := by
    rw [← image.pixels_eq, hframe₁.pixelsSoFar, hframe₁.lastImageId]
    exact ⟨hfits.pixelsSoFar, hfits.lastImageId⟩
  obtain ⟨d₂, p, ss, free₂, spare₂, hadd, hw₂, ha⟩ := hw₁.addImage image.type image.height_pos
    image.linePixels_pos image.numLines_sum image.numLines_pos
    (by rw [← image.pixels_eq]; exact hfits.chunks) ((Nat.add_le_add_right hlen _).trans hfits.segs)
    hcond.1 hcond.2
  obtain ⟨x, win, hwin⟩ := List.exists_cons_of_ne_nil
    (List.append_ne_nil_of_right_ne_nil new (List.cons_ne_nil (p, ss) []))
  have hsame : SameImages s.dict d₂ (imagesOf (kept ++ new)) := himgs₁.trans ha.images
  have hlast : d₂.lastImageId = s.dict.lastImageId + 1 := by rw [ha.lastImageId, hframe₁.lastImageId]
  have hheadId : (d₂.images x.1).id + win.length = s.dict.lastImageId := by
    have hbody := hw₂.toBody
    rw [List.append_assoc, hwin] at hbody
    have := hbody.id_eq
    omega
  have hsizes : winPixels d₂ (x :: win) = winPixels s.dict new + image.pixels := by
    rw [← hwin, winPixels_append, image.pixels_eq, ← ha.size_eq]
    congr 1
    refine winPixels_congr (hsame.mono fun q hq => ?_)
    rw [imagesOf_append]
    exact List.mem_append_right _ hq
  have hlimit : d₂.sizeLimit = s.dict.sizeLimit := by rw [ha.sizeLimit, hframe₁.sizeLimit]
  have hwinlen : win.length ≤ 2 ^ 25 := by
    have : (x :: win).length ≤ winPixels d₂ (x :: win) := length_le_winPixels fun y hy =>
      hw₂.image_segs y (by rw [List.append_assoc, hwin]; exact List.mem_append_right _ hy)
    rw [List.length_cons] at this
    omega
  have hid : (d₂.images p).id = s.dict.lastImageId := ha.id_eq.trans hframe₁.lastImageId
  have hdist : ((d₂.images p).id + 2 ^ 64 - (d₂.images x.1).id) % 2 ^ 64 % 2 ^ 32 = win.length := by
    omega
  refine ⟨d₂, old, kept, new, win, x, p, ss, free₂, spare₂, rfl, ?_, ?_, by omega, hkept, hmin⟩
  · rw [← image.pixels_eq] at hadd
    rw [preEncode_eq (h.idle e hidle) (image.getPixelsNum_eq (by omega)) hnew htrim hadd]
    cases new with
    | nil =>
      obtain ⟨rfl, rfl⟩ := List.cons.inj hwin
      rfl
    | cons y new =>
      rw [List.cons_append] at hwin
      obtain ⟨rfl, hwin'⟩ := List.cons.inj hwin
      rw [← hdist]
      rfl
  · exact {
      window := hw₂
      images := hsame
      segs := hsegs₁.trans ha.segs
      filled := ha.filled
      win_eq := hwin
      id_eq := hid
      head_id := hheadId
      win_le := by omega
      size_eq := by rw [ha.size_eq, image.pixels_eq]
      type_eq := ha.type_eq
      alive := ha.alive
      pixelsSoFar := by rw [ha.pixelsSoFar, hframe₁.pixelsSoFar, image.pixels_eq]
      lastImageId := hlast
      encodersHeads := ha.encodersHeads.trans hframe₁.encodersHeads
      sizeLimit := hlimit
      maxEncoders := ha.maxEncoders.trans hframe₁.maxEncoders }

theorem Window.setHeads (h : Window d used free spare) (f : Nat → Nat) :
    Window { d with encodersHeads := f } used free spare :=
  ⟨h.toBody.of_eq rfl rfl rfl rfl rfl rfl rfl rfl rfl, h.head, h.tail, h.imagesTail⟩

/-- An encoder keeps its window when an image is added. -/
theorem Holds.append {d' : SharedDictionary} {head : Nat} {enc : Encoding} {y : Nat × List Nat}
    (h : Holds d used head enc) (himgs : SameImages d d' (imagesOf used))
    (hlast : d'.lastImageId = d.lastImageId + 1) (hlim : d'.sizeLimit = d.sizeLimit) :
    Holds d' (used ++ [y]) head enc := by
  obtain ⟨old, x, win, later, rfl, hhead, hdist, hown, hle⟩ := h
  have hx : d'.images x.1 = { d.images x.1 with next := (d'.images x.1).next } := himgs x.1 (by simp)
  refine ⟨old, x, win, later ++ [y], by simp, ?_, ?_, ?_, ?_⟩
  · rw [hx]
    exact hhead
  · rw [hx]
    exact hdist
  · rw [List.length_append, List.length_singleton]
    omega
  · rw [hlim, winPixels_congr (himgs.mono fun q hq => ?_)]
    · exact hle
    · rw [imagesOf_append, imagesOf_append]
      exact List.mem_append_left _ (List.mem_append_right _ hq)

/-- The part of a window that is split off in front of its end. -/
theorem append_cons_eq {α : Type} {a b l m : List α} {y : α} (h : a ++ b = l ++ y :: m)
    (hlen : b.length < (y :: m).length) : ∃ c, a = l ++ y :: c ∧ m = c ++ b := by
  obtain ⟨c, hc, hb⟩ | ⟨c, hc, hm⟩ := List.append_eq_append_iff.mp h
  · rw [hb, List.length_append] at hlen
    omega
  · cases c with
    | nil =>
      rw [List.nil_append] at hm
      rw [hm] at hlen
      omega
    | cons z c =>
      obtain ⟨rfl, rfl⟩ := List.cons.inj hm
      exact ⟨c, hc, rfl⟩

section PreEncoded

variable {image : GlzImage} {kept win : Used} {x : Nat × List Nat} {p : Nat}
variable {ss free' spare' : List Nat}

/-- The new head does not lie before the last one. -/
theorem PreEncoded.head_le (hp : PreEncoded s d image kept new win x p ss free' spare')
    (h : DictInv s (old ++ new) free spare) (hle : winPixels s.dict new ≤ s.dict.sizeLimit) {i : Nat}
    (hi : i ∈ s.heads.head?) : i ≤ (d.images x.1).id := by
  have hlt := h.head_lt i hi
  cases new with
  | nil =>
    obtain ⟨rfl, rfl⟩ := List.cons.inj hp.win_eq
    rw [hp.id_eq]
    exact hlt.le
  | cons y new =>
    obtain ⟨rfl, -⟩ := List.cons.inj hp.win_eq
    by_contra hcon
    have hx := hp.images y.1 (by simp)
    have := h.before_head i hi old y new rfl (by
      rw [hx] at hcon
      exact Nat.not_le.mp hcon)
    omega

/-- Before the new head nothing fits into a window. -/
theorem PreEncoded.before_head (hp : PreEncoded s d image kept new win x p ss free' spare')
    (hkept : kept = old ∨ kept = [])
    (hmin : ∀ l y m, old = l ++ y :: m →
      s.dict.sizeLimit < winPixels s.dict (y :: m ++ new) + image.pixels)
    {l m : Used} {y : Nat × List Nat} (hsplit : kept ++ new ++ [(p, ss)] = l ++ y :: m)
    (hlt : (d.images y.1).id < (d.images x.1).id) : d.sizeLimit < winPixels d (y :: m) := by
  have hid := hp.head_id
  have hlast := hp.lastImageId
  have hbody := hp.window.toBody
  rw [hsplit] at hbody
  have hidy := hbody.id_eq
  rw [List.append_assoc] at hsplit
  obtain ⟨c, hc, rfl⟩ := append_cons_eq hsplit (by
    rw [hp.win_eq, List.length_cons, List.length_cons]
    omega)
  obtain rfl | rfl := hkept
  · have := hmin l y c hc
    rw [← List.append_assoc, ← List.cons_append, winPixels_append, ← List.cons_append,
      winPixels_congr (hp.images.mono fun q hq => ?_)]
    · rw [hp.sizeLimit]
      have hsize : winPixels d [(p, ss)] = image.pixels := by
        rw [← hp.size_eq]
        simp [winPixels]
      omega
    · rw [hc]
      simp only [imagesOf_append, imagesOf_cons, List.cons_append, List.mem_append, List.mem_cons] at hq ⊢
      tauto
  · cases l <;> cases hc

theorem PreEncoded.inv (hp : PreEncoded s d image kept new win x p ss free' spare')
    (h : DictInv s (old ++ new) free spare) (hle : winPixels s.dict new ≤ s.dict.sizeLimit)
    (hkept : kept = old ∨ kept = [] ∧ ∀ e, s.encoding e = none)
    (hmin : ∀ l y m, old = l ++ y :: m →
      s.dict.sizeLimit < winPixels s.dict (y :: m ++ new) + image.pixels)
    (he : e < s.dict.maxEncoders) :
    DictInv ⟨{ d with encodersHeads := Function.update d.encodersHeads e (d.images x.1).firstSeg },
      Function.update s.encoding e (some ⟨(d.images p).id, win.length⟩),
      ((d.images p).id - win.length) :: s.heads⟩ (kept ++ new ++ [(p, ss)]) free' spare' := by
  have hhead : (d.images p).id - win.length = (d.images x.1).id := by
    have := hp.id_eq
    have := hp.head_id
    omega
  have hused : kept ++ new ++ [(p, ss)] = kept ++ x :: win := by rw [List.append_assoc, hp.win_eq]
  refine ⟨hp.window.setHeads _, ?_, ?_, ?_, ?_, ?_, ?_⟩
  · change d.sizeLimit ≤ _
    rw [hp.sizeLimit]
    exact h.limit
  · intro e' he'
    change Function.update s.encoding e _ e' = none at he'
    change Function.update d.encodersHeads e _ e' = _
    by_cases hee : e' = e
    · subst hee
      simp at he'
    · rw [Function.update_of_ne hee] at he' ⊢
      rw [hp.encodersHeads]
      exact h.idle e' he'
  · intro e' enc he'
    change Function.update s.encoding e _ e' = some enc at he'
    change e' < d.maxEncoders ∧ Function.update d.encodersHeads e _ e' ≠ _ ∧
      Holds _ _ (Function.update d.encodersHeads e _ e') enc
    rw [hp.maxEncoders]
    by_cases hee : e' = e
    · subst hee
      rw [Function.update_self] at he' ⊢
      obtain rfl := Option.some.inj he'
      refine ⟨he, ?_, kept, x, win, [], by rw [hused, List.append_nil], rfl, ?_, ?_, hp.win_le⟩
      · have hx := hp.window.image_segs x (by rw [hused]; simp)
        obtain ⟨l, hl⟩ := hx.cons_eq
        have hmem : (d.images x.1).firstSeg ∈ segsOf (kept ++ new ++ [(p, ss)]) := by
          rw [hused, segsOf_append, segsOf_cons, hl]
          simp
        refine (hp.window.segs.lt_null (List.mem_append_left _ ?_)).ne
        rw [List.flatten_singleton]
        exact hmem
      · change (d.images x.1).id + win.length = (d.images p).id
        rw [hp.head_id, hp.id_eq]
      · change (d.images p).id + 0 + 1 = d.lastImageId
        rw [hp.id_eq, hp.lastImageId]
    · rw [Function.update_of_ne hee] at he' ⊢
      obtain ⟨hlt, hne, hholds⟩ := h.busy e' enc he'
      rw [hp.encodersHeads]
      refine ⟨hlt, hne, ?_⟩
      obtain rfl | ⟨-, hnone⟩ := hkept
      · exact hholds.append hp.images hp.lastImageId hp.sizeLimit
      · rw [hnone e'] at he'
        cases he'
  · rw [hhead]
    refine List.pairwise_cons.mpr ⟨fun i hi => ?_, h.heads_le⟩
    cases hheads : s.heads with
    | nil =>
      rw [hheads] at hi
      cases hi
    | cons j js =>
      have hj : j ≤ (d.images x.1).id := hp.head_le h hle (by rw [hheads]; rfl)
      have hpair := h.heads_le
      rw [hheads] at hi hpair
      obtain rfl | hi := List.mem_cons.mp hi
      · exact hj
      · exact ((List.pairwise_cons.mp hpair).1 i hi).trans hj
  · intro i hi
    obtain rfl := Option.some.inj hi
    change (d.images p).id - win.length < d.lastImageId
    rw [hp.lastImageId, hp.id_eq]
    omega
  · intro i hi l y m hsplit hlt
    obtain rfl := Option.some.inj hi
    rw [hhead] at hlt
    exact hp.before_head (hkept.imp id And.left) hmin hsplit hlt

end PreEncoded

/-- The pixels are counted from the head of the window, so that no segment in it is earlier. -/
theorem Window.head_le {i : Nat} (h : Window d used free spare) (hi : i ∈ segsOf used) :
    d.usedSegsHead ≠ nullImageSegId ∧ (d.segs d.usedSegsHead).pixelsSoFar ≤ (d.segs i).pixelsSoFar := by
  obtain ⟨a, ha⟩ := h.segs.offsets
  rw [List.flatten_singleton] at ha
  have hle := ha.le_of_mem hi
  obtain ⟨j, l, hl⟩ := List.exists_cons_of_ne_nil (List.ne_nil_of_mem hi)
  have hhead := h.head
  rw [hl] at ha hhead
  obtain ⟨hj, hne⟩ := eq_of_segNode hhead.1
  refine ⟨hne, ?_⟩
  rw [hj, ha.1]
  exact hle

theorem Holds.mem {head : Nat} {enc : Encoding} (h : Holds d used head enc)
    (hw : Window d used free spare) : head ∈ segsOf used := by
  obtain ⟨old, x, win, later, rfl, rfl, -⟩ := h
  obtain ⟨l, hl⟩ := (hw.image_segs x (by simp)).cons_eq
  rw [segsOf_append, segsOf_append, segsOf_cons, hl]
  simp

/-- The head of no encoder is earlier than that of the window, so that `post_encode` removes no
image. -/
theorem DictInv.postEncode {enc : Encoding} (h : DictInv s used free spare)
    (henc : s.encoding e = some enc) :
    s.dict.postEncode e =
      .ok { s.dict with encodersHeads := Function.update s.dict.encodersHeads e nullImageSegId } := by
  obtain ⟨-, hne, hholds⟩ := h.busy e enc henc
  obtain ⟨hhead, hle⟩ := h.window.head_le (hholds.mem h.window)
  obtain ⟨early, hearly, hnull, hpix⟩ : ∃ early,
      (if s.dict.imageSegIsEarlier s.dict.usedSegsHead (s.dict.earlyHeadSeg e) then s.dict.usedSegsHead
        else s.dict.earlyHeadSeg e) = early ∧ early ≠ nullImageSegId ∧
      (s.dict.segs early).pixelsSoFar ≤ (s.dict.segs s.dict.usedSegsHead).pixelsSoFar := by
    refine ⟨_, rfl, ?_⟩
    split
    · exact ⟨hhead, le_rfl⟩
    · rename_i hlate
      simp only [SharedDictionary.imageSegIsEarlier, decide_eq_true_eq, not_or, not_and,
        Nat.not_lt] at hlate
      exact ⟨hlate.1, hlate.2 hhead⟩
  have hlate : ¬s.dict.imageSegIsEarlier (s.dict.encodersHeads e) early = true := by
    simp only [SharedDictionary.imageSegIsEarlier, decide_eq_true_eq, not_or, not_and, Nat.not_lt]
    exact ⟨hnull, fun _ => hpix.trans hle⟩
  rw [SharedDictionary.postEncode, if_neg hne]
  simp only [hearly, if_neg hnull, if_neg hlate]
  rfl

theorem DictInv.post_inv (h : DictInv s used free spare) :
    DictInv ⟨{ s.dict with encodersHeads := Function.update s.dict.encodersHeads e nullImageSegId },
      Function.update s.encoding e none, s.heads⟩ used free spare := by
  refine ⟨h.window.setHeads _, h.limit, ?_, ?_, h.heads_le, h.head_lt, h.before_head⟩
  · intro e' he'
    change Function.update s.encoding e _ e' = none at he'
    change Function.update s.dict.encodersHeads e _ e' = _
    by_cases hee : e' = e
    · rw [hee, Function.update_self]
    · rw [Function.update_of_ne hee] at he' ⊢
      exact h.idle e' he'
  · intro e' enc he'
    change Function.update s.encoding e _ e' = some enc at he'
    change e' < s.dict.maxEncoders ∧ Function.update s.dict.encodersHeads e _ e' ≠ _ ∧
      Holds _ _ (Function.update s.dict.encodersHeads e _ e') enc
    by_cases hee : e' = e
    · subst hee
      simp at he'
    · rw [Function.update_of_ne hee] at he' ⊢
      exact h.busy e' enc he'

theorem removeImage_images (d : SharedDictionary) (p q : Nat) :
    (d.removeImage p).images q = { d.images q with isAlive := ((d.removeImage p).images q).isAlive } := by
  by_cases h : q = p
  · subst h
    simp [SharedDictionary.removeImage]
  · rw [SharedDictionary.removeImage, setImage_images_of_ne _ _ h]

theorem Window.removeImage (h : Window d used free spare) (p : Nat) :
    Window (d.removeImage p) used free spare := by
  have himg := removeImage_images d p
  refine ⟨⟨h.segs.of_eq rfl rfl rfl rfl, h.images.of_eq (fun q => by rw [himg q]) rfl rfl rfl,
    fun x hx => ⟨?_, (h.image_segs x hx).image_eq, ?_, ?_⟩, ?_, h.length_le⟩, h.head, h.tail,
    h.imagesTail⟩
  · rw [himg]
    exact (h.image_segs x hx).first
  · rw [himg]
    exact (h.image_segs x hx).pixels_eq
  · rw [himg]
    exact (h.image_segs x hx).size_pos
  · refine Eq.trans (List.map_congr_left fun x _ => ?_) h.ids
    rw [himg]

theorem winPixels_removeImage (d : SharedDictionary) (p : Nat) (used : Used) :
    winPixels (d.removeImage p) used = winPixels d used := by
  unfold winPixels
  congr 1
  exact List.map_congr_left fun x _ => by rw [removeImage_images]

theorem DictInv.remove_inv (h : DictInv s used free spare) (p : Nat) :
    DictInv { s with dict := s.dict.removeImage p } used free spare := by
  refine ⟨h.window.removeImage p, h.limit, h.idle, fun e enc he => ?_, h.heads_le, h.head_lt, ?_⟩
  · obtain ⟨hlt, hne, old, x, win, later, hsplit, hhead, hdist, hown, hle⟩ := h.busy e enc he
    refine ⟨hlt, hne, old, x, win, later, hsplit, ?_, ?_, hown, ?_⟩
    · rw [removeImage_images]
      exact hhead
    · rw [removeImage_images]
      exact hdist
    · rw [winPixels_removeImage]
      exact hle
  · intro i hi old x rest hsplit hlt
    rw [winPixels_removeImage]
    rw [removeImage_images] at hlt
    exact h.before_head i hi old x rest hsplit hlt

end Steps

end Colama.Spice.Glz

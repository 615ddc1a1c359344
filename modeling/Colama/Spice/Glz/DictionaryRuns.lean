import Mathlib.Tactic
import Colama.Spice.Glz.DictionarySafe

namespace Colama.Spice.Glz

open Lib Lz

namespace SharedDictionary

variable (d : SharedDictionary)

/-- The segments from the head of the used ones on. -/
def usedSegs : List Nat := follow segNode (fun i => (d.segs i).next) d.segsQuota d.usedSegsHead

def freeSegs : List Nat := follow segNode (fun i => (d.segs i).next) d.segsQuota d.freeSegsHead

def usedImages : List Nat := follow id (fun p => (d.images p).next) d.nRecords d.usedImagesHead

def freeImageList : List Nat := follow id (fun p => (d.images p).next) d.nRecords d.freeImages

def pixels (l : List Nat) : Nat := (l.map fun p => (d.images p).size).sum

end SharedDictionary

/-- The callers keep to this: an encoder takes its turns, and its images are smaller than the
window. -/
def Alternates (s : DictState) : DictAction → Prop
  | .preEncode e image =>
    e < s.dict.maxEncoders ∧ s.encoding e = none ∧ image.pixels < s.dict.sizeLimit
  | .postEncode e => s.encoding e ≠ none
  | .removeImage _ => True

/-- The products and sums that `pre_encode` computes do not overflow. -/
def NoOverflow (s : DictState) : DictAction → Prop
  | .preEncode _ image =>
    (∀ c ∈ image.chunks, image.pixels * c.numLines < 2 ^ 32) ∧
    s.dict.pixels s.dict.usedImages + image.pixels < 2 ^ 32 ∧
    s.dict.usedSegs.length + image.chunks.length ≤ 1000 * 2 ^ 22 ∧
    s.dict.pixelsSoFar + image.pixels < 2 ^ 64 ∧ s.dict.lastImageId + 1 < 2 ^ 64
  | _ => True

/-- What the encoders and the client rely on. -/
structure DictSafe (s : DictState) : Prop where
  segs_perm : (s.dict.usedSegs ++ s.dict.freeSegs).Perm (List.range s.dict.segsQuota)
  segs_images : ∃ parts, s.dict.usedSegs = parts.flatten ∧ List.Forall₂ (fun p l =>
    l.head? = some (s.dict.images p).firstSeg ∧ ∀ i ∈ l, (s.dict.segs i).image = some p)
    s.dict.usedImages parts
  ids_eq : s.dict.usedImages.map (fun p => (s.dict.images p).id) =
    List.range' (s.dict.lastImageId - s.dict.usedImages.length) s.dict.usedImages.length
  window_le : ∀ e enc, s.encoding e = some enc → ∃ old win later,
    s.dict.usedImages = old ++ win ++ later ∧
    win.head?.map (fun p => (s.dict.images p).id) = some (enc.imageId - enc.headDist) ∧
    win.getLast?.map (fun p => (s.dict.images p).id) = some enc.imageId ∧
    s.dict.pixels win ≤ s.dict.sizeLimit
  heads_le : s.heads.Pairwise (· ≥ ·)

/-- The images from the window head of an encoder at work on are not moved to the free ones. -/
def KeepsImages (s s' : DictState) : Prop :=
  ∀ e enc, s.encoding e = some enc → ∀ p ∈ s.dict.usedImages,
    enc.imageId - enc.headDist ≤ (s.dict.images p).id →
    p ∈ s'.dict.usedImages ∧ p ∉ s'.dict.freeImageList ∧
      (s'.dict.images p).id = (s.dict.images p).id

section Runs

variable {s s' : DictState} {d : SharedDictionary} {used : Used} {free spare : List Nat}

theorem Window.usedImages_eq (h : Window d used free spare) : d.usedImages = imagesOf used :=
  h.images.linked.follow_eq rfl (by simpa [imagesOf] using h.length_le_nRecords)

theorem Window.usedSegs_eq (h : Window d used free spare) : d.usedSegs = segsOf used :=
  h.head.follow_eq segNode_null h.length_le_quota

theorem Window.freeSegs_eq (h : Window d used free spare) : d.freeSegs = free := by
  refine h.segs.free_linked.follow_eq segNode_null ?_
  have := h.segs.perm.length_eq
  simp only [List.length_append, List.length_range] at this
  omega

theorem Window.freeImageList_eq (h : Window d used free spare) : d.freeImageList = spare := by
  refine h.images.spare_linked.follow_eq rfl ?_
  have hlt : spare ⊆ List.range d.nRecords := fun p hp =>
    List.mem_range.mpr (h.images.lt p (List.mem_append_right _ hp))
  have := (List.subperm_of_subset h.images.nodup.of_append_right hlt).length_le
  simpa using this

theorem pixels_imagesOf (d : SharedDictionary) (used : Used) :
    d.pixels (imagesOf used) = winPixels d used := by
  rw [SharedDictionary.pixels, imagesOf, List.map_map]
  rfl

theorem DictInv.safe (h : DictInv s used free spare) : DictSafe s := by
  have hw := h.window
  constructor
  · rw [hw.usedSegs_eq, hw.freeSegs_eq]
    have := hw.segs.perm
    rwa [List.flatten_singleton] at this
  · refine ⟨used.map Prod.snd, ?_, ?_⟩
    · rw [hw.usedSegs_eq, segsOf, List.flatMap_def]
    · rw [hw.usedImages_eq, imagesOf, List.forall₂_map_left_iff, List.forall₂_map_right_iff,
        List.forall₂_same]
      exact fun x hx => ⟨(hw.image_segs x hx).first, (hw.image_segs x hx).image_eq⟩
  · rw [hw.usedImages_eq, imagesOf, List.map_map, List.length_map]
    exact hw.ids
  · intro e enc he
    obtain ⟨-, -, old, x, win, later, rfl, hhead, hdist, hown, hle⟩ := h.busy e enc he
    refine ⟨imagesOf old, imagesOf (x :: win), imagesOf later, ?_, ?_, ?_, ?_⟩
    · rw [hw.usedImages_eq, imagesOf_append, imagesOf_append]
    · simp only [imagesOf_cons, List.head?_cons, Option.map_some, Option.some.injEq]
      omega
    · obtain hnil | ⟨l, y, hl⟩ := (x :: win).eq_nil_or_concat'
      · cases hnil
      · have hbody := hw.toBody
        rw [hl, List.append_assoc, List.append_assoc, List.singleton_append, ← List.append_assoc] at hbody
        have := hbody.id_eq
        rw [hl, imagesOf_append]
        change (imagesOf l ++ [y.1]).getLast?.map _ = _
        rw [List.getLast?_concat, Option.map_some, Option.some.injEq]
        omega
    · rw [pixels_imagesOf]
      exact hle
  · exact h.heads_le

theorem linked_range {n : Nat} (hpos : 0 < n) (hn : n ≤ nullImageSegId) :
    Linked segNode (fun i => if i + 1 = n then nullImageSegId else i + 1) 0 (List.range n)
      nullImageSegId := by
  have := linked_range' (fun i => if i + 1 = n then nullImageSegId else i + 1) (a := 0) (n := n)
    (by rwa [Nat.zero_add]) fun i _ _ => by rw [Nat.zero_add]
  rwa [if_neg hpos.ne', ← List.range_eq_range'] at this

theorem SegTable.fresh {n : Nat} (hq : d.segsQuota = n) (hquota : ∃ k ≤ 22, n = 1000 * 2 ^ k)
    (hn : n ≤ nullImageSegId) (hfree : d.freeSegsHead = 0)
    (hnext : ∀ i, (d.segs i).next = if i + 1 = n then nullImageSegId else i + 1) :
    SegTable d [[]] (List.range n) where
  linked := by
    intro l hl
    rw [List.mem_singleton.mp hl]
    exact ⟨nullImageSegId, rfl⟩
  free_linked := by
    obtain ⟨k, -, hk⟩ := hquota
    have hpos : 0 < 2 ^ k := Nat.pow_pos (by decide)
    rw [hfree]
    exact (linked_range (by omega) hn).congr fun i _ => hnext i
  perm := by rw [List.flatten_singleton, List.nil_append, hq]
  quota := by rwa [hq]
  offsets := ⟨_, rfl⟩

theorem DictInv.init {size maxEncoders : Nat} (hsize : size ≤ lzMaxWindowSize) :
    DictInv (.init (.create size maxEncoders)) [] (List.range initImageSegsNum) [] where
  window := {
    segs := SegTable.fresh rfl ⟨0, by decide, by decide⟩ (by decide) rfl fun i => rfl
    images := ⟨rfl, rfl, List.nodup_nil, fun p hp => by cases hp⟩
    image_segs := fun x hx => by cases hx
    ids := rfl
    length_le := le_rfl
    head := rfl
    tail := rfl
    imagesTail := rfl }
  limit := hsize
  idle := fun e _ => rfl
  busy := fun e enc he => by cases he
  heads_le := List.Pairwise.nil
  head_lt := fun i hi => by cases hi
  before_head := fun i hi => by cases hi

theorem DictInv.step_pre {e : Nat} {image : GlzImage} (h : DictInv s used free spare)
    (ha : Alternates s (.preEncode e image)) (hf : NoOverflow s (.preEncode e image)) :
    ∃ s' used' free' spare', s.step (.preEncode e image) = .ok s' ∧ DictInv s' used' free' spare' ∧
      KeepsImages s s' := by
  obtain ⟨he, hidle, hsize⟩ := ha
  have hfits : Fits s.dict used image := by
    obtain ⟨h₁, h₂, h₃, h₄, h₅⟩ := hf
    rw [h.window.usedImages_eq, pixels_imagesOf] at h₂
    rw [h.window.usedSegs_eq] at h₃
    exact ⟨h₁, h₂, h₃, h₄, h₅⟩
  obtain ⟨d, old, kept, new, win, x, p, ss, free', spare', rfl, hpre, hp, hle, hkept, hmin⟩ :=
    h.preEncode hidle hsize hfits
  have hinv := hp.inv h hle hkept hmin he
  refine ⟨_, _, _, _, ?_, hinv, fun e' enc henc q hq _ => ?_⟩
  · rw [DictState.step, hpre]
    rfl
  · obtain rfl | ⟨-, hnone⟩ := hkept
    · rw [h.window.usedImages_eq] at hq
      have hmem : q ∈ imagesOf (kept ++ new ++ [(p, ss)]) := by
        rw [imagesOf_append]
        exact List.mem_append_left _ hq
      rw [hinv.window.usedImages_eq, hinv.window.freeImageList_eq]
      refine ⟨hmem, fun hc => ?_, ?_⟩
      · exact (List.nodup_append.mp hp.window.images.nodup).2.2 q hmem q hc rfl
      · change (d.images q).id = _
        rw [hp.images q hq]
    · rw [hnone e'] at henc
      cases henc

/-- Steps that leave the window as it is keep every image. -/
theorem DictInv.keepsImages (h : DictInv s used free spare) (h' : DictInv s' used free spare)
    (hid : ∀ p, (s'.dict.images p).id = (s.dict.images p).id) : KeepsImages s s' := by
  intro e enc henc q hq _
  rw [h.window.usedImages_eq] at hq
  rw [h'.window.usedImages_eq, h'.window.freeImageList_eq]
  exact ⟨hq, fun hc => (List.nodup_append.mp h.window.images.nodup).2.2 q hq q hc rfl, hid q⟩

theorem DictInv.step {a : DictAction} (h : DictInv s used free spare) (ha : Alternates s a)
    (hf : NoOverflow s a) :
    ∃ s' used' free' spare', s.step a = .ok s' ∧ DictInv s' used' free' spare' ∧ KeepsImages s s' := by
  cases a with
  | preEncode e image => exact h.step_pre ha hf
  | postEncode e =>
    obtain ⟨enc, henc⟩ := Option.ne_none_iff_exists'.mp ha
    refine ⟨_, used, free, spare, ?_, h.post_inv (e := e), h.keepsImages h.post_inv fun p => rfl⟩
    rw [DictState.step, h.postEncode henc]
    rfl
  | removeImage p =>
    exact ⟨_, used, free, spare, rfl, h.remove_inv p, h.keepsImages (h.remove_inv p) fun q => by
      rw [removeImage_images]⟩

end Runs

/-- The states of the runs from a new dictionary whose steps meet the condition. -/
def DictRuns (d : SharedDictionary) (ok : DictState → DictAction → Prop) : DictState → Prop :=
  Reachable (fun s a s' => s.step a = .ok s') ok (.init d)

theorem DictRuns.dictInv {size maxEncoders : Nat} {d : SharedDictionary} {s : DictState}
    (hd : SharedDictionary.glzEncDictionaryCreate size maxEncoders = some d)
    (h : DictRuns d (fun s a => Alternates s a ∧ NoOverflow s a) s) :
    ∃ used free spare, DictInv s used free spare := by
  rw [SharedDictionary.glzEncDictionaryCreate] at hd
  split at hd
  · cases hd
  · rename_i hsize
    obtain rfl := Option.some.inj hd
    refine Reachable.invariant (fun s => ∃ used free spare, DictInv s used free spare) h
      ⟨_, _, _, .init (Nat.not_lt.mp hsize)⟩ ?_
    rintro s a s' ⟨used, free, spare, hs⟩ ⟨ha, hf⟩ he
    obtain ⟨s₁, used', free', spare', he', hs', -⟩ := hs.step ha hf
    rw [he] at he'
    cases he'
    exact ⟨used', free', spare', hs'⟩

/-- Along a run without overflows the dictionary is safe, and each step that the callers may take
succeeds and keeps the images of the encoders at work. -/
theorem dictRuns_safe (size maxEncoders : Nat) (d : SharedDictionary)
    (hd : SharedDictionary.glzEncDictionaryCreate size maxEncoders = some d) (s : DictState)
    (h : DictRuns d (fun s a => Alternates s a ∧ NoOverflow s a) s) :
    DictSafe s ∧ ∀ a, Alternates s a → NoOverflow s a →
      ∃ s', s.step a = .ok s' ∧ KeepsImages s s' := by
  obtain ⟨used, free, spare, hs⟩ := h.dictInv hd
  refine ⟨hs.safe, fun a ha hf => ?_⟩
  obtain ⟨s', -, -, -, he, -, hkeeps⟩ := hs.step ha hf
  exact ⟨s', he, hkeeps⟩

/-- An image of one line. -/
def oneLine (w : Nat) (hw : 0 < w) : GlzImage where
  type := .rgb32
  width := w
  height := 1
  stride := w * 4
  chunks := [⟨1, List.replicate (w * 4) 0⟩]
  type_ok := by decide
  stride_pos := by omega
  stride_rgb := fun _ => rfl
  stride_plt := fun h => by cases h
  height_pos := Nat.one_pos
  numLines_pos := fun c hc => by rw [List.mem_singleton.mp hc]; exact Nat.one_pos
  numLines_sum := rfl
  lines_length := fun c hc => by
    rw [List.mem_singleton.mp hc, Nat.one_mul]
    exact List.length_replicate

@[simp] theorem oneLine_pixels (w : Nat) (hw : 0 < w) : (oneLine w hw).pixels = w := Nat.one_mul w

theorem dictRuns_safe_onePixel : ∃ s, DictRuns (.create 100 1) (fun s a => Alternates s a ∧ NoOverflow s a) s ∧
    s.heads = [0] ∧ DictSafe s := by
  have hinit : DictRuns (.create 100 1) (fun s a => Alternates s a ∧ NoOverflow s a)
      (.init (.create 100 1)) := .init
  have ha : Alternates (.init (.create 100 1)) (.preEncode 0 (oneLine 1 Nat.one_pos)) := ⟨by decide, rfl, by decide⟩
  have hf : NoOverflow (.init (.create 100 1)) (.preEncode 0 (oneLine 1 Nat.one_pos)) :=
    ⟨by decide, by decide, by decide, by decide, by decide⟩
  obtain ⟨s, hs, -⟩ := (dictRuns_safe 100 1 _ rfl _ hinit).2 _ ha hf
  have hruns : DictRuns (.create 100 1) (fun s a => Alternates s a ∧ NoOverflow s a) s :=
    .step hinit ⟨ha, hf⟩ hs
  refine ⟨s, hruns, ?_, (dictRuns_safe 100 1 _ rfl _ hruns).1⟩
  have hheads : ((DictState.init (.create 100 1)).step (.preEncode 0 (oneLine 1 Nat.one_pos))).toOption.map
      DictState.heads = some [0] := by decide
  rw [hs] at hheads
  exact Option.some.inj hheads

/-- One line of as many pixels as an image may have. -/
def longLine : GlzImage := oneLine (2 ^ 25 - 1) (by decide)

/-- The dictionary holds `n` of these images, because since the first one there was always an
encoder at work. -/
structure Overlapped (n : Nat) (s : DictState) (used : Used) (free spare : List Nat) : Prop
    extends DictInv s used free spare where
  runs : DictRuns (.create (2 ^ 25) 2) Alternates s
  sizes : ∀ x ∈ used, (s.dict.images x.1).size = 2 ^ 25 - 1
  length_eq : used.length = n
  segs_length : (segsOf used).length = n
  lastImageId : s.dict.lastImageId = n
  pixelsSoFar : s.dict.pixelsSoFar = n * (2 ^ 25 - 1)
  sizeLimit : s.dict.sizeLimit = 2 ^ 25
  maxEncoders : s.dict.maxEncoders = 2

theorem Overlapped.winPixels_eq {n : Nat} {s : DictState} {used : Used} {free spare : List Nat}
    (h : Overlapped n s used free spare) : winPixels s.dict used = n * (2 ^ 25 - 1) := by
  have : used.map (fun x => (s.dict.images x.1).size) = List.replicate n (2 ^ 25 - 1) := by
    rw [List.eq_replicate_iff]
    refine ⟨by rw [List.length_map, h.length_eq], fun b hb => ?_⟩
    obtain ⟨x, hx, rfl⟩ := List.mem_map.mp hb
    exact h.sizes x hx
  rw [winPixels, this, List.sum_replicate, smul_eq_mul]

section Overlapped

variable {n e : Nat} {s : DictState} {used : Used} {free spare : List Nat}

/-- The images do not fit into one window, so that each becomes the head of its own. -/
theorem Overlapped.preEncode (h : Overlapped n s used free spare) (hn : n < 128) (he : e < 2)
    (hidle : s.encoding e = none) (hbusy : used = [] ∨ ∃ e', s.encoding e' ≠ none) :
    ∃ s' used' free' spare', Overlapped (n + 1) s' used' free' spare' ∧
      s'.encoding = Function.update s.encoding e (some ⟨n, 0⟩) ∧ s'.heads = n :: s.heads := by
  have hpix : longLine.pixels = 2 ^ 25 - 1 := oneLine_pixels _ _
  have ha : Alternates s (.preEncode e longLine) :=
    ⟨by rw [h.maxEncoders]; exact he, hidle, by rw [h.sizeLimit, hpix]; decide⟩
  have hfits : Fits s.dict used longLine := by
    refine ⟨fun c hc => ?_, ?_, ?_, ?_, ?_⟩
    · rw [hpix, List.mem_singleton.mp hc]
      decide
    · rw [h.winPixels_eq, hpix]
      omega
    · rw [h.segs_length]
      change n + 1 ≤ _
      omega
    · rw [h.pixelsSoFar, hpix]
      omega
    · rw [h.lastImageId]
      omega
  obtain ⟨d, old, kept, new, win, x, p, ss, free', spare', rfl, hpre, hp, hle, hkept, hmin⟩ :=
    h.toDictInv.preEncode hidle ha.2.2 hfits
  have hnew : new = [] := by
    cases new with
    | nil => rfl
    | cons y new =>
      have hwin := hp.win_le
      have hy := h.sizes y (by simp)
      rw [← hp.win_eq, winPixels_append, winPixels_cons, hp.images y.1 (by simp),
        hp.sizeLimit, h.sizeLimit] at hwin
      have hsize : winPixels d [(p, ss)] = 2 ^ 25 - 1 := by
        rw [← hpix, ← hp.size_eq]
        simp [winPixels]
      dsimp only at hwin
      omega
  subst hnew
  have hkept' : kept = old := by
    obtain rfl | ⟨rfl, hnone⟩ := hkept
    · rfl
    · obtain hnil | ⟨e', he'⟩ := hbusy
      · exact (List.append_eq_nil_iff.mp hnil).1.symm
      · exact absurd (hnone e') he'
  subst hkept'
  obtain ⟨rfl, rfl⟩ := List.cons.inj hp.win_eq
  have hinv := hp.inv h.toDictInv hle hkept hmin ha.1
  have hid : (d.images p).id = n := hp.id_eq.trans h.lastImageId
  have hss : ss.length = 1 := by
    have := congrArg List.length hp.filled.lines_eq
    rw [List.length_map, List.length_map] at this
    exact this
  refine ⟨_, _, _, _, ⟨hinv, .step h.runs ha ?_, ?_, ?_, ?_, ?_, ?_, ?_, ?_⟩, ?_, ?_⟩
  · rw [DictState.step, hpre]
    rfl
  · intro y hy
    change (d.images y.1).size = _
    obtain hy | hy := List.mem_append.mp hy
    · rw [hp.images y.1 (List.mem_map_of_mem hy)]
      exact h.sizes y hy
    · rw [List.mem_singleton.mp hy, hp.size_eq, hpix]
  · rw [List.length_append, h.length_eq]
    rfl
  · rw [segsOf_append, List.length_append, h.segs_length, segsOf_cons, List.length_append, hss]
    rfl
  · exact hp.lastImageId.trans (congrArg (· + 1) h.lastImageId)
  · change d.pixelsSoFar = _
    rw [hp.pixelsSoFar, h.pixelsSoFar, hpix, Nat.add_mul, Nat.one_mul]
  · exact hp.sizeLimit.trans h.sizeLimit
  · exact hp.maxEncoders.trans h.maxEncoders
  · change Function.update s.encoding e (some ⟨(d.images p).id, 0⟩) = _
    rw [hid]
  · change ((d.images p).id - 0) :: s.heads = _
    rw [hid, Nat.sub_zero]

theorem Overlapped.postEncode (h : Overlapped n s used free spare) (he : s.encoding e ≠ none) :
    ∃ s', Overlapped n s' used free spare ∧ s'.encoding = Function.update s.encoding e none ∧
      s'.heads = s.heads := by
  obtain ⟨enc, henc⟩ := Option.ne_none_iff_exists'.mp he
  refine ⟨_, ⟨h.toDictInv.post_inv (e := e), .step (a := .postEncode e) h.runs he ?_, h.sizes,
    h.length_eq, h.segs_length, h.lastImageId, h.pixelsSoFar, h.sizeLimit, h.maxEncoders⟩, rfl, rfl⟩
  rw [DictState.step, h.toDictInv.postEncode henc]
  rfl

/-- Two encoders take turns, and each begins before the other one has ended. -/
theorem exists_overlapped (n : Nat) (hn : n < 128) : ∃ s used free spare e,
    Overlapped (n + 1) s used free spare ∧ e < 2 ∧ s.encoding e = none ∧ s.encoding (1 - e) ≠ none ∧
      s.heads.head? = some n := by
  induction n with
  | zero =>
    have hinit : Overlapped 0 (.init (.create (2 ^ 25) 2)) [] (List.range initImageSegsNum) [] :=
      ⟨.init le_rfl, .init, fun x hx => (by cases hx), rfl, rfl, rfl, rfl, rfl, rfl⟩
    obtain ⟨s, used, free, spare, h, henc, hheads⟩ := hinit.preEncode (e := 0) (by decide) (by decide)
      rfl (.inl rfl)
    refine ⟨s, used, free, spare, 1, h, by decide, ?_, ?_, ?_⟩
    · rw [henc]
      rfl
    · rw [henc]
      simp
    · rw [hheads]
      rfl
  | succ n ih =>
    obtain ⟨s, used, free, spare, e, h, he, hidle, hbusy, -⟩ := ih (by omega)
    obtain ⟨s₁, used₁, free₁, spare₁, h₁, henc₁, hheads₁⟩ := h.preEncode (by omega) he hidle
      (.inr ⟨1 - e, hbusy⟩)
    have hne : 1 - e ≠ e := by omega
    obtain ⟨s₂, h₂, henc₂, hheads₂⟩ := h₁.postEncode (e := 1 - e) (by
      rw [henc₁, Function.update_of_ne hne]
      exact hbusy)
    refine ⟨s₂, used₁, free₁, spare₁, 1 - e, h₂, by omega, ?_, ?_, ?_⟩
    · rw [henc₂, Function.update_self]
    · rw [henc₂, show 1 - (1 - e) = e by omega, Function.update_of_ne hne.symm, henc₁]
      simp
    · rw [hheads₂, hheads₁]
      rfl

end Overlapped

/-- After 128 of these images, the size of the window and of one more exceeds 32 bits, and the head
of the first image is handed out again. -/
theorem dictRuns_overflow_not_safe : ¬∀ size maxEncoders d,
    SharedDictionary.glzEncDictionaryCreate size maxEncoders = some d →
    ∀ s, DictRuns d Alternates s → DictSafe s := by
  intro hall
  obtain ⟨s, used, free, spare, e, h, he, hidle, hbusy, hheads⟩ := exists_overlapped 127 (by decide)
  have hpix : longLine.pixels = 2 ^ 25 - 1 := oneLine_pixels _ _
  have ha : Alternates s (.preEncode e longLine) :=
    ⟨by rw [h.maxEncoders]; exact he, hidle, by rw [h.sizeLimit, hpix]; decide⟩
  have hwin : winPixels s.dict used = 2 ^ 32 - 128 := h.winPixels_eq
  obtain ⟨x, rest, rfl⟩ : ∃ x rest, used = x :: rest := by
    cases used with
    | nil => cases h.length_eq
    | cons x rest => exact ⟨x, rest, rfl⟩
  have hnew : s.dict.getNewHead longLine.pixels = .ok (some x.1) := by
    rw [h.window.getNewHead_cons ha.2.2 (by omega), hwin, hpix, SharedDictionary.newHeadFrom,
      if_neg (by rw [h.sizeLimit]; decide)]
  have huse : s.dict.isInUse = true := by
    obtain ⟨enc, henc⟩ := Option.ne_none_iff_exists'.mp hbusy
    obtain ⟨hlt, hnull, -⟩ := h.busy (1 - e) enc henc
    exact (s.dict.isInUse_iff).mpr ⟨1 - e, hlt, hnull⟩
  have hsize : longLine.linePixels * longLine.height = longLine.pixels := longLine.pixels_eq.symm
  obtain ⟨d, p, ss, free', spare', hadd, hw, had⟩ := h.window.addImage longLine.type
    longLine.height_pos longLine.linePixels_pos longLine.numLines_sum longLine.numLines_pos
    (fun c hc => by rw [hsize, hpix, List.mem_singleton.mp hc]; decide)
    (by rw [h.segs_length]; decide)
    (by rw [hsize, hpix, h.pixelsSoFar]; decide) (by rw [h.lastImageId]; decide)
  rw [hsize] at hadd
  have hpre := preEncode_eq (h.idle e hidle) (longLine.getPixelsNum_eq (by rw [hpix]; decide)) hnew
    (if_pos huse) hadd
  have hid : (d.images p).id = 128 := had.id_eq.trans h.lastImageId
  have hhead : (d.images x.1).id = 0 := by
    rw [had.images x.1 (by simp)]
    have hbody : Body s.dict ([] ++ x :: rest) free spare := h.window.toBody
    have := hbody.id_eq
    have hlen := h.length_eq
    rw [List.length_cons] at hlen
    rw [h.lastImageId] at this
    dsimp only
    omega
  obtain ⟨s', hs', hheads'⟩ : ∃ s', s.step (.preEncode e longLine) = .ok s' ∧ s'.heads = 0 :: s.heads := by
    rw [DictState.step, hpre]
    refine ⟨_, rfl, ?_⟩
    change ((d.images p).id - ((d.images p).id + 2 ^ 64 - (d.images x.1).id) % 2 ^ 64 % 2 ^ 32) :: _ = _
    rw [hid, hhead]
    rfl
  have hsafe := hall (2 ^ 25) 2 _ rfl s' (.step h.runs ha hs')
  have hle := hsafe.heads_le
  rw [hheads'] at hle
  obtain ⟨l, hl⟩ := List.head?_eq_some_iff.mp hheads
  have := (List.pairwise_cons.mp hle).1 127 (by rw [hl]; exact List.mem_cons_self)
  omega

end Colama.Spice.Glz

import Mathlib.Tactic
import Colama.Spice.Glz.DictionarySpec

namespace Colama.Spice.Glz

open Lib Lz

/-- The images of a window, oldest first: each is its record and its segments. -/
abbrev Used := List (Nat × List Nat)

def imagesOf (used : Used) : List Nat := used.map Prod.fst

def segsOf (used : Used) : List Nat := used.flatMap Prod.snd

def winPixels (d : SharedDictionary) (used : Used) : Nat :=
  (used.map fun x => (d.images x.1).size).sum

@[simp] theorem imagesOf_cons (x : Nat × List Nat) (used : Used) :
    imagesOf (x :: used) = x.1 :: imagesOf used := rfl

@[simp] theorem imagesOf_append (used used' : Used) :
    imagesOf (used ++ used') = imagesOf used ++ imagesOf used' := List.map_append

@[simp] theorem segsOf_cons (x : Nat × List Nat) (used : Used) :
    segsOf (x :: used) = x.2 ++ segsOf used := rfl

@[simp] theorem segsOf_append (used used' : Used) :
    segsOf (used ++ used') = segsOf used ++ segsOf used' := List.flatMap_append

@[simp] theorem winPixels_cons (d : SharedDictionary) (x : Nat × List Nat) (used : Used) :
    winPixels d (x :: used) = (d.images x.1).size + winPixels d used := rfl

@[simp] theorem winPixels_append (d : SharedDictionary) (used used' : Used) :
    winPixels d (used ++ used') = winPixels d used + winPixels d used' := by
  simp [winPixels]

theorem winPixels_congr {d d' : SharedDictionary} {used : Used}
    (h : SameImages d d' (imagesOf used)) : winPixels d' used = winPixels d used := by
  unfold winPixels
  congr 1
  refine List.map_congr_left fun x hx => ?_
  rw [h x.1 (List.mem_map_of_mem hx)]

structure ImageSegs (d : SharedDictionary) (x : Nat × List Nat) : Prop where
  first : x.2.head? = some (d.images x.1).firstSeg
  image_eq : ∀ s ∈ x.2, (d.segs s).image = some x.1
  pixels_eq : segPixels d x.2 = (d.images x.1).size
  size_pos : 0 < (d.images x.1).size

theorem ImageSegs.congr {d d' : SharedDictionary} {x : Nat × List Nat} (h : ImageSegs d x)
    (hs : SameSegs d d' x.2) (hi : SameImages d d' [x.1]) : ImageSegs d' x := by
  have hx := hi x.1 List.mem_cons_self
  refine ⟨?_, fun s hm => ?_, ?_, ?_⟩
  · rw [hx]
    exact h.first
  · rw [hs s hm]
    exact h.image_eq s hm
  · have hpix : segPixels d' x.2 = segPixels d x.2 := by
      unfold segPixels
      congr 1
      exact List.map_congr_left fun s hm => by rw [hs s hm]
    rw [hx, hpix]
    exact h.pixels_eq
  · rw [hx]
    exact h.size_pos

/-- The images of the window with their segments, apart from the ends of the lists. -/
structure Body (d : SharedDictionary) (used : Used) (free spare : List Nat) : Prop where
  segs : SegTable d [segsOf used] free
  images : ImageTable d (imagesOf used) spare
  image_segs : ∀ x ∈ used, ImageSegs d x
  ids : used.map (fun x => (d.images x.1).id) = List.range' (d.lastImageId - used.length) used.length
  length_le : used.length ≤ d.lastImageId

structure Window (d : SharedDictionary) (used : Used) (free spare : List Nat) : Prop
    extends Body d used free spare where
  head : SegChain d d.usedSegsHead (segsOf used)
  tail : d.usedSegsTail = (segsOf used).getLast?.getD nullImageSegId
  imagesTail : d.usedImagesTail = (imagesOf used).getLast?

section Window

variable {d d' : SharedDictionary} {used rest : Used} {free spare : List Nat} {x : Nat × List Nat}

/-- The loop stops at the last segment of the image. -/
theorem lastSeg_eq {p s b n : Nat} {l : List Nat}
    (h : Linked segNode (fun i => (d.segs i).next) s (s :: l) b) (hl : ∀ t ∈ l, (d.segs t).image = some p)
    (hb : b = nullImageSegId ∨ (d.segs b).image ≠ some p) (hn : l.length < n) :
    ∃ m last, s :: l = m ++ [last] ∧ d.lastSeg p n s = .ok last := by
  induction l generalizing s n with
  | nil =>
    obtain ⟨n, rfl⟩ : ∃ k, n = k + 1 := ⟨n - 1, by simp at hn; omega⟩
    have hnext : (d.segs s).next = b := h.2
    refine ⟨[], s, rfl, ?_⟩
    rw [SharedDictionary.lastSeg, if_neg]
    rw [hnext]
    rintro ⟨hne, himg⟩
    exact hb.elim hne fun h => h himg
  | cons t l ih =>
    obtain ⟨n, rfl⟩ : ∃ k, n = k + 1 := ⟨n - 1, by simp at hn; omega⟩
    obtain ⟨hnext, hne⟩ := eq_of_segNode h.2.1
    have hnext' : (d.segs s).next = t := hnext
    have h' := h.2
    change Linked _ _ (d.segs s).next _ _ at h'
    rw [hnext'] at h'
    obtain ⟨m, last, hm, he⟩ := ih h' (fun u hu => hl u (List.mem_cons_of_mem _ hu))
      (by simpa using hn)
    refine ⟨s :: m, last, by rw [hm]; rfl, ?_⟩
    rw [SharedDictionary.lastSeg, if_pos]
    · rw [hnext']
      exact he
    · exact ⟨hne, by rw [hnext']; exact hl t List.mem_cons_self⟩

theorem Body.length_le_quota (h : Body d used free spare) : (segsOf used).length ≤ d.segsQuota := by
  have := h.segs.perm.length_eq
  simp only [List.flatten_singleton, List.length_append, List.length_range] at this
  omega

theorem ImageSegs.cons_eq (h : ImageSegs d x) : ∃ l, x.2 = (d.images x.1).firstSeg :: l := by
  have hf := h.first
  cases hl : x.2 with
  | nil =>
    rw [hl] at hf
    cases hf
  | cons s l =>
    rw [hl] at hf
    exact ⟨l, by rw [Option.some.inj hf]⟩

/-- What follows the segments of the oldest image is not one of them. -/
theorem Body.next_image (h : Body d (x :: rest) free spare) {b : Nat}
    (hb : SegChain d b (segsOf rest)) : b = nullImageSegId ∨ (d.segs b).image ≠ some x.1 := by
  cases rest with
  | nil => exact .inl hb
  | cons y rest =>
    have hy := h.image_segs y (by simp)
    obtain ⟨l, hl⟩ := hy.cons_eq
    rw [segsOf_cons, hl] at hb
    obtain ⟨rfl, -⟩ := eq_of_segNode hb.1
    refine .inr ?_
    rw [hy.image_eq _ (by rw [hl]; exact List.mem_cons_self)]
    intro he
    have hnodup := h.images.nodup
    simp only [imagesOf_cons, List.cons_append, List.nodup_cons, List.mem_cons, not_or] at hnodup
    exact hnodup.1.1 (Option.some.inj he).symm

/-- The segments of the oldest image become free. -/
theorem Body.freeImageSegs (h : Body d (x :: rest) free spare) :
    ∃ d', d.freeImageSegs x.1 = .ok d' ∧ SegTable d' [segsOf rest] (x.2 ++ free) ∧
      (∀ l, SameSegs d d' l) ∧
      d' = { d with segs := d'.segs, freeSegsHead := d'.freeSegsHead } := by
  have hx := h.image_segs x List.mem_cons_self
  obtain ⟨l, hl⟩ := hx.cons_eq
  obtain ⟨a, ha⟩ := h.segs.linked _ List.mem_cons_self
  obtain ⟨o, ho⟩ := h.segs.offsets
  rw [List.flatten_singleton, segsOf_cons] at ho
  rw [segsOf_cons] at ha
  obtain ⟨b, hchain, hrest⟩ := ha.split
  obtain ⟨o', -, ho'⟩ := ho.split
  have hquota := h.length_le_quota
  have hnodup := h.segs.nodup
  have hperm := h.segs.perm
  simp only [List.flatten_singleton, segsOf_cons] at hnodup hperm hquota
  rw [hl, List.length_append, List.length_cons] at hquota
  obtain ⟨rfl, hne⟩ := eq_of_segNode (show segNode a = some (d.images x.1).firstSeg by
    rw [hl] at hchain
    exact hchain.1)
  obtain ⟨m, last, hm, he⟩ := lastSeg_eq (p := x.1) (n := d.segsQuota) (hl ▸ hchain)
    (fun t ht => hx.image_eq t (by rw [hl]; exact List.mem_cons_of_mem _ ht))
    (h.next_image hrest) (by omega)
  rw [← hl] at hm
  have hlast : last ∉ m ++ (segsOf rest ++ free) := by
    rw [hm, show m ++ [last] ++ segsOf rest ++ free = m ++ last :: (segsOf rest ++ free) by simp]
      at hnodup
    exact (List.nodup_cons.mp (List.nodup_middle.mp hnodup)).1
  simp only [List.mem_append, not_or] at hlast
  obtain ⟨hlast₁, hlast₂, hlast₃⟩ := hlast
  have hother : ∀ i, i ≠ last →
      Function.update (fun j => (d.segs j).next) last d.freeSegsHead i = (d.segs i).next :=
    fun i hi => Function.update_of_ne hi _ _
  refine ⟨{ d.setSegNext last d.freeSegsHead with freeSegsHead := (d.images x.1).firstSeg }, ?_, ?_,
    fun l => sameSegs_setSegNext d last _, rfl⟩
  · rw [SharedDictionary.freeImageSegs, he]
    rfl
  · refine ⟨fun k hk => ?_, ?_, ?_, h.segs.quota, ⟨o', ?_⟩⟩
    · rw [List.mem_singleton.mp hk]
      refine ⟨b, ?_⟩
      dsimp only [SegChain]
      rw [setSegNext_next]
      exact hrest.congr fun i hi => hother i (ne_of_mem_of_not_mem hi hlast₂)
    · dsimp only [SegChain]
      rw [setSegNext_next]
      rw [hm] at hchain ⊢
      exact (hchain.redirect hlast₁).append
        (h.segs.free_linked.congr fun i hi => hother i (ne_of_mem_of_not_mem hi hlast₃))
    · rw [List.flatten_singleton]
      refine List.Perm.trans ?_ hperm
      rw [← List.append_assoc]
      exact List.Perm.append_right _ List.perm_append_comm
    · rw [List.flatten_singleton]
      exact ho'.setSegNext

/-- The parts of the dictionary that removing images leaves alone. -/
structure RemoveFrame (d d' : SharedDictionary) : Prop where
  segsQuota : d'.segsQuota = d.segsQuota
  encodersHeads : d'.encodersHeads = d.encodersHeads
  nRecords : d'.nRecords = d.nRecords
  pixelsSoFar : d'.pixelsSoFar = d.pixelsSoFar
  sizeLimit : d'.sizeLimit = d.sizeLimit
  lastImageId : d'.lastImageId = d.lastImageId
  maxEncoders : d'.maxEncoders = d.maxEncoders

theorem RemoveFrame.trans {d'' : SharedDictionary} (h : RemoveFrame d d') (h' : RemoveFrame d' d'') :
    RemoveFrame d d'' :=
  ⟨h'.1.trans h.1, h'.2.trans h.2, h'.3.trans h.3, h'.4.trans h.4, h'.5.trans h.5, h'.6.trans h.6,
    h'.7.trans h.7⟩

theorem ImageTable.head_eq {records : List Nat} (h : ImageTable d records spare) :
    d.usedImagesHead = records.head? := by
  cases records with
  | nil => exact h.linked
  | cons p records => exact h.linked.1

/-- One iteration of `remove_head`. -/
theorem Body.removeFirst (h : Body d (x :: rest) free spare) :
    ∃ d₁, d.freeImageSegs x.1 = .ok d₁ ∧
      Body ({ d₁ with usedImagesHead := (d₁.images x.1).next }.freeImage x.1) rest (x.2 ++ free)
        (x.1 :: spare) ∧
      (∀ l, SameSegs d ({ d₁ with usedImagesHead := (d₁.images x.1).next }.freeImage x.1) l) ∧
      SameImages d ({ d₁ with usedImagesHead := (d₁.images x.1).next }.freeImage x.1) (imagesOf rest) ∧
      RemoveFrame d ({ d₁ with usedImagesHead := (d₁.images x.1).next }.freeImage x.1) ∧
      d₁.usedSegsTail = d.usedSegsTail ∧ d₁.usedImagesTail = d.usedImagesTail := by
  obtain ⟨d₁, he, hsegs, hsame, hframe⟩ := h.freeImageSegs
  have himg : d₁.images = d.images := by rw [hframe]
  have hhead : (d₁.images x.1).next = (d.images x.1).next := by rw [himg]
  have hfree : d₁.freeImages = d.freeImages := by rw [hframe]
  have hnodup := h.images.nodup
  rw [imagesOf_cons, List.cons_append, List.nodup_cons] at hnodup
  have hx : ∀ q ∈ imagesOf rest ++ spare, q ≠ x.1 := fun q hq => ne_of_mem_of_not_mem hq hnodup.1
  have hsame' : SameImages d ({ d₁ with usedImagesHead := (d₁.images x.1).next }.freeImage x.1)
      (imagesOf rest) := by
    intro q hq
    have : ({ d₁ with usedImagesHead := (d₁.images x.1).next }.freeImage x.1).images q = d.images q := by
      rw [← himg]
      exact Function.update_of_ne (hx q (List.mem_append_left _ hq)) _ _
    rw [this]
  have hother : ∀ q ∈ imagesOf rest ++ spare,
      Function.update (fun q => (d₁.images q).next) x.1 d₁.freeImages q = (d.images q).next := by
    intro q hq
    rw [Function.update_of_ne (hx q hq), himg]
  refine ⟨d₁, he, ⟨?_, ⟨?_, ?_, ?_, ?_⟩, fun y hy => ?_, ?_, ?_⟩, hsame, hsame', ?_,
    by rw [hframe], by rw [hframe]⟩
  · exact ⟨hsegs.linked, hsegs.free_linked, hsegs.perm, hsegs.quota, hsegs.offsets⟩
  · change Linked id (fun q => ((SharedDictionary.setImage _ x.1 _).images q).next)
      (d₁.images x.1).next _ _
    rw [setImage_next, hhead]
    exact h.images.linked.2.congr fun q hq => hother q (List.mem_append_left _ hq)
  · change Linked id (fun q => ((SharedDictionary.setImage _ x.1 _).images q).next) (some x.1) _ _
    rw [setImage_next]
    refine ⟨rfl, ?_⟩
    change Linked _ _ (Function.update (fun q => (d₁.images q).next) x.1 d₁.freeImages x.1) _ _
    rw [Function.update_self]
    have hspare : ImageChain d d₁.freeImages spare := by
      rw [hfree]
      exact h.images.spare_linked
    exact hspare.congr fun q hq => hother q (List.mem_append_right _ hq)
  · exact List.nodup_middle.mpr (List.nodup_cons.mpr hnodup)
  · intro q hq
    have hlt := h.images.lt q (by
      rw [imagesOf_cons, List.cons_append]
      exact List.perm_middle.mem_iff.mp hq)
    rw [hframe]
    exact hlt
  · exact (h.image_segs y (List.mem_cons_of_mem _ hy)).congr (hsame y.2) fun q hq =>
      hsame' q (by rw [List.mem_singleton.mp hq]; exact List.mem_map_of_mem hy)
  · have hids := h.ids
    have hlen := h.length_le
    rw [List.map_cons, List.length_cons, List.range'_succ] at hids
    have hlast : ({ d₁ with usedImagesHead := (d₁.images x.1).next }.freeImage x.1).lastImageId =
        d.lastImageId := by rw [hframe]; rfl
    rw [List.length_cons] at hlen
    rw [hlast, show d.lastImageId - rest.length = d.lastImageId - (rest.length + 1) + 1 by omega,
      ← (List.cons.inj hids).2]
    exact List.map_congr_left fun y hy => by rw [hsame' y.1 (List.mem_map_of_mem hy)]
  · have hlast : ({ d₁ with usedImagesHead := (d₁.images x.1).next }.freeImage x.1).lastImageId =
        d.lastImageId := by rw [hframe]; rfl
    rw [hlast]
    exact (Nat.le_succ _).trans h.length_le
  · constructor <;> rw [hframe] <;> rfl

theorem SameImages.mono {l m : List Nat} (h : SameImages d d' l) (hm : ∀ p ∈ m, p ∈ l) :
    SameImages d d' m :=
  fun p hp => h p (hm p hp)

theorem Body.removeImages {old : Used} {n : Nat} (h : Body d (old ++ used) free spare)
    (hn : old.length ≤ n) :
    ∃ d' free' spare', d.removeImages (imagesOf used).head? n = .ok d' ∧ Body d' used free' spare' ∧
      (∀ l, SameSegs d d' l) ∧ SameImages d d' (imagesOf used) ∧ RemoveFrame d d' ∧
      d'.usedSegsTail = d.usedSegsTail ∧ d'.usedImagesTail = d.usedImagesTail := by
  induction old generalizing d free spare n with
  | nil =>
    have hhead := h.images.head_eq
    refine ⟨d, free, spare, ?_, h, fun l i _ => rfl, fun p _ => rfl, by constructor <;> rfl, rfl, rfl⟩
    cases n <;> exact if_pos hhead
  | cons x old ih =>
    rw [List.cons_append] at h
    obtain ⟨n, rfl⟩ : ∃ k, n = k + 1 := ⟨n - 1, by simp at hn; omega⟩
    obtain ⟨d₁, he, hbody, hsegs, himgs, hframe, htail, hitail⟩ := h.removeFirst
    obtain ⟨d₂, free₂, spare₂, he₂, hbody₂, hsegs₂, himgs₂, hframe₂, htail₂, hitail₂⟩ :=
      ih hbody (by simpa using hn)
    have hhead : d.usedImagesHead = some x.1 := h.images.head_eq
    have hne : some x.1 ≠ (imagesOf used).head? := by
      intro hc
      have hmem : x.1 ∈ imagesOf used := List.mem_of_mem_head? (by rw [← hc]; rfl)
      have hnodup := h.images.nodup
      simp only [imagesOf_cons, imagesOf_append, List.cons_append, List.nodup_cons] at hnodup
      exact hnodup.1 (by simp [hmem])
    refine ⟨d₂, free₂, spare₂, ?_, hbody₂, fun l => (hsegs l).trans (hsegs₂ l),
      (himgs.mono fun p hp => ?_).trans himgs₂, hframe.trans hframe₂, htail₂.trans htail,
      hitail₂.trans hitail⟩
    · rw [SharedDictionary.removeImages, hhead, if_neg hne]
      simp only [he]
      exact he₂
    · rw [imagesOf_append]
      exact List.mem_append_right _ hp

theorem Body.length_le_nRecords (h : Body d used free spare) : used.length ≤ d.nRecords := by
  have hsub : (imagesOf used).Nodup := h.images.nodup.of_append_left
  have hlt : imagesOf used ⊆ List.range d.nRecords := fun p hp =>
    List.mem_range.mpr (h.images.lt p (List.mem_append_left _ hp))
  have := (List.subperm_of_subset hsub hlt).length_le
  simpa [imagesOf] using this

/-- The parts of the dictionary that the window is about. -/
theorem Body.of_eq (h : Body d used free spare) (hsegs : d'.segs = d.segs)
    (hquota : d'.segsQuota = d.segsQuota) (hfree : d'.freeSegsHead = d.freeSegsHead)
    (himgs : d'.images = d.images) (hrec : d'.nRecords = d.nRecords)
    (hhead : d'.usedImagesHead = d.usedImagesHead) (hspare : d'.freeImages = d.freeImages)
    (hpix : d'.pixelsSoFar = d.pixelsSoFar) (hlast : d'.lastImageId = d.lastImageId) :
    Body d' used free spare := by
  obtain ⟨⟨s₁, s₂, s₃, s₄, s₅⟩, ⟨i₁, i₂, i₃, i₄⟩, hi, hids, hlen⟩ := h
  cases d
  cases d'
  dsimp only at *
  subst hsegs hquota hfree himgs hrec hhead hspare hpix hlast
  exact ⟨⟨s₁, s₂, s₃, s₄, s₅⟩, ⟨i₁, i₂, i₃, i₄⟩,
    fun x hx => ⟨(hi x hx).1, (hi x hx).2, (hi x hx).3, (hi x hx).4⟩, hids, hlen⟩

/-- The images before `used` are removed. -/
theorem Window.windowRemoveHead {old : Used} (h : Window d (old ++ used) free spare) :
    ∃ d' free' spare', d.windowRemoveHead (imagesOf used).head? = .ok d' ∧
      Window d' used free' spare' ∧ (∀ l, SameSegs d d' l) ∧ SameImages d d' (imagesOf used) ∧
      RemoveFrame d d' := by
  have hn := h.length_le_nRecords
  rw [List.length_append] at hn
  obtain ⟨d₁, free₁, spare₁, he, hbody, hsegs, himgs, hframe, htail, hitail⟩ :=
    h.toBody.removeImages (n := d.nRecords) (by omega)
  rw [SharedDictionary.windowRemoveHead, he]
  cases used with
  | nil =>
    refine ⟨{ d₁ with
      usedSegsHead := nullImageSegId
      usedSegsTail := nullImageSegId
      usedImagesTail := none }, free₁, spare₁, rfl, ⟨?_, rfl, rfl, rfl⟩, hsegs, himgs, ?_⟩
    · exact hbody.of_eq rfl rfl rfl rfl rfl rfl rfl rfl rfl
    · exact ⟨hframe.1, hframe.2, hframe.3, hframe.4, hframe.5, hframe.6, hframe.7⟩
  | cons x used =>
    obtain ⟨l, hl⟩ := (hbody.image_segs x List.mem_cons_self).cons_eq
    refine ⟨{ d₁ with usedSegsHead := (d₁.images x.1).firstSeg }, free₁, spare₁, rfl,
      ⟨?_, ?_, ?_, ?_⟩, hsegs, himgs, ?_⟩
    · exact hbody.of_eq rfl rfl rfl rfl rfl rfl rfl rfl rfl
    · obtain ⟨a, ha⟩ := hbody.segs.linked _ List.mem_cons_self
      rw [segsOf_cons, hl] at ha ⊢
      obtain ⟨rfl, -⟩ := eq_of_segNode ha.1
      exact ha
    · rw [htail, h.tail, segsOf_append, segsOf_cons, hl, List.cons_append,
        List.getLast?_append_of_ne_nil _ (List.cons_ne_nil _ _)]
    · rw [hitail, h.imagesTail, imagesOf_append, imagesOf_cons,
        List.getLast?_append_of_ne_nil _ (List.cons_ne_nil _ _)]
    · exact ⟨hframe.1, hframe.2, hframe.3, hframe.4, hframe.5, hframe.6, hframe.7⟩

theorem ImageTable.of_eq {records : List Nat} (h : ImageTable d records spare)
    (hnext : ∀ q, (d'.images q).next = (d.images q).next) (hhead : d'.usedImagesHead = d.usedImagesHead)
    (hfree : d'.freeImages = d.freeImages) (hrec : d'.nRecords = d.nRecords) :
    ImageTable d' records spare := by
  refine ⟨?_, ?_, h.nodup, ?_⟩
  · rw [hhead]
    exact h.linked.congr fun q _ => hnext q
  · rw [hfree]
    exact h.spare_linked.congr fun q _ => hnext q
  · rw [hrec]
    exact h.lt

theorem setImage_images_of_ne {p q : Nat} (d : SharedDictionary) (image : WindowImage) (h : q ≠ p) :
    (d.setImage p image).images q = d.images q :=
  Function.update_of_ne h _ _

@[simp] theorem setImage_images_self (d : SharedDictionary) (p : Nat) (image : WindowImage) :
    (d.setImage p image).images p = image :=
  Function.update_self _ _ _

theorem SegTable.of_eq {chains : List (List Nat)} (h : SegTable d chains free)
    (hsegs : d'.segs = d.segs) (hquota : d'.segsQuota = d.segsQuota)
    (hfree : d'.freeSegsHead = d.freeSegsHead) (hpix : d'.pixelsSoFar = d.pixelsSoFar) :
    SegTable d' chains free := by
  obtain ⟨h₁, h₂, h₃, h₄, h₅⟩ := h
  cases d
  cases d'
  dsimp only at *
  subst hsegs hquota hfree hpix
  exact ⟨h₁, h₂, h₃, h₄, h₅⟩

/-- Where a chain begins is known from its segments. -/
theorem chain_start_eq {a a' : Nat} {l : List Nat} (h : SegChain d a l) (h' : SegChain d' a' l) :
    a = a' := by
  cases l with
  | nil => exact Eq.trans h (Eq.symm h')
  | cons s l => exact (eq_of_segNode h.1).1.trans (eq_of_segNode h'.1).1.symm

theorem linkSegs_table {first : Nat} {segs rest : List Nat} (last : Nat)
    (h : SegTable d [segs, first :: rest] free) (hhead : SegChain d d.usedSegsHead segs)
    (htail : d.usedSegsTail = segs.getLast?.getD nullImageSegId) :
    SegTable (d.linkSegs first last) [segs ++ first :: rest] free ∧
      SegChain (d.linkSegs first last) (d.linkSegs first last).usedSegsHead (segs ++ first :: rest) := by
  unfold SharedDictionary.linkSegs
  obtain rfl | ⟨l, t, rfl⟩ := segs.eq_nil_or_concat'
  · rw [htail]
    simp only [List.getLast?_nil, Option.getD_none, if_true]
    obtain ⟨a, ha⟩ := h.linked (first :: rest) (by simp)
    obtain ⟨rfl, -⟩ := eq_of_segNode ha.1
    refine ⟨⟨fun k hk => h.linked k ?_, h.free_linked, h.perm, h.quota, h.offsets⟩, ha⟩
    exact List.mem_cons_of_mem _ hk
  · have hlt := h.lt_null (s := t) (by simp)
    have ht : d.usedSegsTail = t := by rw [htail, List.getLast?_concat]; rfl
    rw [ht, if_neg hlt.ne]
    have hjoin : SegTable (d.setSegNext t first) ([] ++ [l ++ [t] ++ first :: rest]) free :=
      SegTable.join (d := d) h
    refine ⟨⟨hjoin.linked, hjoin.free_linked, hjoin.perm, hjoin.quota, hjoin.offsets⟩, ?_⟩
    obtain ⟨a, ha⟩ := hjoin.linked _ List.mem_cons_self
    have hfirst : a = d.usedSegsHead := by
      cases l with
      | nil => exact (eq_of_segNode ha.1).1.trans (eq_of_segNode hhead.1).1.symm
      | cons y l => exact (eq_of_segNode ha.1).1.trans (eq_of_segNode hhead.1).1.symm
    rw [hfirst] at ha
    exact ha

theorem linkSegs_same (d : SharedDictionary) (first last : Nat) (l : List Nat) :
    SameSegs d (d.linkSegs first last) l := by
  unfold SharedDictionary.linkSegs
  dsimp only
  split
  · exact fun i _ => rfl
  · exact sameSegs_setSegNext d _ _

theorem linkSegs_frame (d : SharedDictionary) (first last : Nat) :
    (d.linkSegs first last).images = d.images ∧
      (d.linkSegs first last).usedImagesHead = d.usedImagesHead ∧
      (d.linkSegs first last).usedImagesTail = d.usedImagesTail ∧
      (d.linkSegs first last).freeImages = d.freeImages ∧
      (d.linkSegs first last).nRecords = d.nRecords ∧
      (d.linkSegs first last).pixelsSoFar = d.pixelsSoFar ∧
      (d.linkSegs first last).lastImageId = d.lastImageId ∧
      (d.linkSegs first last).encodersHeads = d.encodersHeads ∧
      (d.linkSegs first last).sizeLimit = d.sizeLimit ∧
      (d.linkSegs first last).maxEncoders = d.maxEncoders := by
  unfold SharedDictionary.linkSegs
  dsimp only
  split <;> exact ⟨rfl, rfl, rfl, rfl, rfl, rfl, rfl, rfl, rfl, rfl⟩

/-- What is known of the dictionary when an image with the segments `ss` has been added. -/
structure Added (d d' : SharedDictionary) (used : Used) (type : LzImageType) (p w height : Nat)
    (ss : List Nat) (cs : List Chunk) : Prop where
  id_eq : (d'.images p).id = d.lastImageId
  size_eq : (d'.images p).size = w * height
  type_eq : (d'.images p).type = type
  alive : (d'.images p).isAlive = true
  filled : Filled d' p w ss cs
  images : SameImages d d' (imagesOf used)
  segs : SameSegs d d' (segsOf used)
  pixelsSoFar : d'.pixelsSoFar = d.pixelsSoFar + w * height
  lastImageId : d'.lastImageId = d.lastImageId + 1
  encodersHeads : d'.encodersHeads = d.encodersHeads
  sizeLimit : d'.sizeLimit = d.sizeLimit
  maxEncoders : d'.maxEncoders = d.maxEncoders

theorem Window.addImage {w height : Nat} {cs : List Chunk} (type : LzImageType)
    (h : Window d used free spare) (hh : 0 < height) (hw : 0 < w) (hcs : numLines cs = height)
    (hpos : ∀ c ∈ cs, 0 < c.numLines) (hfit : ∀ c ∈ cs, w * height * c.numLines < 2 ^ 32)
    (hroom : (segsOf used).length + cs.length ≤ 1000 * 2 ^ 22)
    (hpix : d.pixelsSoFar + w * height < 2 ^ 64) (hid : d.lastImageId + 1 < 2 ^ 64) :
    ∃ d' p ss free' spare', d.addImage type (w * height) height cs = .ok (d', p) ∧
      Window d' (used ++ [(p, ss)]) free' spare' ∧ Added d d' used type p w height ss cs := by
  obtain ⟨d₁, p, spare₁, he₁, himg₁, hitail₁, hp, hsame₁, hf₁⟩ := h.images.allocImage h.imagesTail
  let d₂ : SharedDictionary := { d₁.setImage p
      { d₁.images p with id := d₁.lastImageId, size := w * height, type := type } with
    lastImageId := (d₁.lastImageId + 1) % 2 ^ 64 }
  have hsegs₂ : SegTable d₂ [segsOf used] free :=
    h.segs.of_eq hf₁.segs hf₁.segsQuota hf₁.freeSegsHead hf₁.pixelsSoFar
  have hpix₂ : d₂.pixelsSoFar = d.pixelsSoFar := hf₁.pixelsSoFar
  obtain ⟨d₃, first, rest, last, free₃, he₃, hsegs₃, hlast₃, hfill₃, himg₃, hpix₃, hsame₃, hf₃⟩ :=
    hsegs₂.addFirst nullImageSegId p w hh hcs hpos hfit hroom
    (by rw [hpix₂, hcs]; exact hpix)
  rw [hcs] at hpix₃
  have hfirst : (d₃.images p).firstSeg = first := by rw [himg₃, Function.update_self]
  have hchain₃ : SegChain d₃ d₃.usedSegsHead (segsOf used) := by
    obtain ⟨a, ha⟩ := hsegs₃.linked (segsOf used) (by simp)
    rw [hf₃.usedSegsHead, show d₂.usedSegsHead = d.usedSegsHead from hf₁.usedSegsHead,
      ← chain_start_eq ha h.head]
    exact ha
  have htail₃ : d₃.usedSegsTail = (segsOf used).getLast?.getD nullImageSegId := by
    rw [hf₃.usedSegsTail, show d₂.usedSegsTail = d.usedSegsTail from hf₁.usedSegsTail, h.tail]
  obtain ⟨hsegs₄, hchain₄⟩ := linkSegs_table last hsegs₃ hchain₃ htail₃
  obtain ⟨himg₄, hhead₄, hitail₄, hfree₄, hrec₄, hpix₄, hid₄, henc₄, hlim₄, hmax₄⟩ :=
    linkSegs_frame d₃ first last
  have hother : ∀ q, q ≠ p → (d₃.linkSegs first last).images q = d₁.images q := by
    intro q hq
    rw [himg₄, himg₃, Function.update_of_ne hq]
    exact Function.update_of_ne hq _ _
  have hself : (d₃.linkSegs first last).images p =
      ⟨d₁.lastImageId, type, w * height, first, (d₁.images p).next, (d₁.images p).isAlive⟩ := by
    rw [himg₄, himg₃, Function.update_self]
    change ({ (Function.update d₁.images p _ p) with firstSeg := _ } : WindowImage) = _
    rw [Function.update_self]
  let d₅ := (d₃.linkSegs first last).setImage p
    { (d₃.linkSegs first last).images p with isAlive := true }
  have hself₅ : d₅.images p = ⟨d₁.lastImageId, type, w * height, first, (d₁.images p).next, true⟩ := by
    rw [setImage_images_self, hself]
  have hother₅ : ∀ q, q ≠ p → d₅.images q = d₁.images q := fun q hq =>
    (setImage_images_of_ne _ _ hq).trans (hother q hq)
  have hnext₅ : ∀ q, (d₅.images q).next = (d₁.images q).next := by
    intro q
    by_cases hq : q = p
    · rw [hq, hself₅]
    · rw [hother₅ q hq]
  have himages : SameImages d d₅ (imagesOf used) := by
    intro q hq
    rw [hother₅ q (ne_of_mem_of_not_mem hq hp)]
    exact hsame₁ q hq
  have hseg : ∀ l, SameSegs d₃ d₅ l := linkSegs_same d₃ first last
  have hsame : SameSegs d d₅ (segsOf used) := by
    have hsame₀ : SameSegs d d₃ (segsOf used) := fun i hi => by
      rw [hsame₃ i hi, show d₂.segs = d.segs from hf₁.segs]
    exact hsame₀.trans (hseg _)
  have hfilled : Filled d₅ p w (first :: rest) cs := hfill₃.congr (hseg _)
  have hlastId : d₅.lastImageId = d.lastImageId + 1 := by
    change (d₃.linkSegs first last).lastImageId = _
    rw [hid₄, hf₃.lastImageId]
    change (d₁.lastImageId + 1) % 2 ^ 64 = _
    rw [hf₁.lastImageId, Nat.mod_eq_of_lt hid]
  refine ⟨d₅, p, first :: rest, free₃, spare₁, ?_, ⟨⟨?_, ?_, ?_, ?_, ?_⟩, ?_, ?_, ?_⟩, ?_⟩
  · rw [SharedDictionary.addImage, he₁]
    change SharedDictionary.addSegs p (w * height) height d₂ 0 nullImageSegId cs >>= _ = _
    rw [he₃]
    change Except.ok (_, p) = _
    rw [hfirst]
  · rw [segsOf_append]
    change SegTable d₅ [segsOf used ++ ((first :: rest) ++ [])] free₃
    rw [List.append_nil]
    exact hsegs₄.of_eq rfl rfl rfl rfl
  · rw [imagesOf_append]
    refine himg₁.of_eq hnext₅ ?_ ?_ ?_
    · exact hhead₄.trans (hf₃.usedImagesHead.trans rfl)
    · exact hfree₄.trans (hf₃.freeImages.trans rfl)
    · exact hrec₄.trans (hf₃.nRecords.trans rfl)
  · intro x hx
    obtain hx | hx := List.mem_append.mp hx
    · exact (h.image_segs x hx).congr (hsame.mono fun i hi => List.mem_flatMap_of_mem hx hi)
        (himages.mono fun q hq => by rw [List.mem_singleton.mp hq]; exact List.mem_map_of_mem hx)
    · rw [List.mem_singleton.mp hx]
      refine ⟨?_, hfilled.image_eq, ?_, ?_⟩
      · rw [hself₅]
        rfl
      · rw [hself₅]
        change segPixels d₅ (first :: rest) = w * height
        rw [segPixels, hfilled.pixelsNum_eq, List.sum_map_mul_left, ← hcs]
        rfl
      · rw [hself₅]
        exact Nat.mul_pos hw hh
  · have hlen := h.length_le
    rw [hlastId, List.map_append, List.length_append, List.length_singleton, List.map_singleton, hself₅]
    have hids : used.map (fun x => (d₅.images x.1).id) = used.map fun x => (d.images x.1).id :=
      List.map_congr_left fun x hx => by rw [himages x.1 (List.mem_map_of_mem hx)]
    rw [hids, h.ids, Nat.add_sub_add_right, List.range'_concat, hf₁.lastImageId]
    congr 2
    dsimp only
    omega
  · rw [hlastId, List.length_append, List.length_singleton]
    exact Nat.succ_le_succ h.length_le
  · rw [segsOf_append]
    change SegChain d₅ _ (segsOf used ++ ((first :: rest) ++ []))
    rw [List.append_nil]
    exact hchain₄
  · rw [segsOf_append]
    change last = (segsOf used ++ ((first :: rest) ++ [])).getLast?.getD _
    rw [List.append_nil, List.getLast?_append_of_ne_nil _ (List.cons_ne_nil _ _), hlast₃]
    rfl
  · rw [imagesOf_append]
    change (d₃.linkSegs first last).usedImagesTail = (imagesOf used ++ [p]).getLast?
    rw [List.getLast?_concat, hitail₄, hf₃.usedImagesTail]
    exact hitail₁
  · exact {
      id_eq := by rw [hself₅]; exact hf₁.lastImageId
      size_eq := by rw [hself₅]
      type_eq := by rw [hself₅]
      alive := by rw [hself₅]
      filled := hfilled
      images := himages
      segs := hsame
      pixelsSoFar := by
        change (d₃.linkSegs first last).pixelsSoFar = _
        rw [hpix₄, hpix₃, hpix₂]
      lastImageId := hlastId
      encodersHeads := henc₄.trans (hf₃.encodersHeads.trans hf₁.encodersHeads)
      sizeLimit := hlim₄.trans (hf₃.sizeLimit.trans hf₁.sizeLimit)
      maxEncoders := hmax₄.trans (hf₃.maxEncoders.trans hf₁.maxEncoders) }

end Window

end Colama.Spice.Glz

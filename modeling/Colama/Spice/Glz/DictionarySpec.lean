import Mathlib.Tactic
import Colama.Spice.Glz.Dictionary

namespace Colama.Spice.Glz

open Lib Lz

def segNode (k : Nat) : Option Nat := if k = nullImageSegId then none else some k

@[simp] theorem segNode_null : segNode nullImageSegId = none := if_pos rfl

theorem segNode_of_lt {k : Nat} (h : k < nullImageSegId) : segNode k = some k := if_neg h.ne

theorem eq_of_segNode {a k : Nat} (h : segNode a = some k) : a = k ∧ a ≠ nullImageSegId := by
  unfold segNode at h
  split at h
  · cases h
  · exact ⟨Option.some.inj h, by assumption⟩

/-- A chain of segments, from its first index to the null index. -/
abbrev SegChain (d : SharedDictionary) (a : Nat) (l : List Nat) : Prop :=
  Linked segNode (fun i => (d.segs i).next) a l nullImageSegId

abbrev ImageChain (d : SharedDictionary) (a : Option Nat) (l : List Nat) : Prop :=
  Linked id (fun p => (d.images p).next) a l none

/-- The pixels are counted through the segments, from `a` before the first to `b` behind the last. -/
def Offsets (segs : Nat → WindowImageSegment) : Nat → List Nat → Nat → Prop
  | a, [], b => a = b
  | a, s :: l, b => (segs s).pixelsSoFar = a ∧ Offsets segs (a + (segs s).pixelsNum) l b

def segPixels (d : SharedDictionary) (l : List Nat) : Nat := (l.map fun s => (d.segs s).pixelsNum).sum

section Offsets

variable {segs segs' : Nat → WindowImageSegment} {a b c : Nat} {l l' : List Nat}

theorem Offsets.append (h : Offsets segs a l b) (h' : Offsets segs b l' c) :
    Offsets segs a (l ++ l') c := by
  induction l generalizing a with
  | nil =>
    cases h
    exact h'
  | cons s l ih => exact ⟨h.1, ih h.2⟩

theorem Offsets.split (h : Offsets segs a (l ++ l') c) :
    ∃ b, Offsets segs a l b ∧ Offsets segs b l' c := by
  induction l generalizing a with
  | nil => exact ⟨a, rfl, h⟩
  | cons s l ih =>
    obtain ⟨b, h₁, h₂⟩ := ih h.2
    exact ⟨b, ⟨h.1, h₁⟩, h₂⟩

theorem Offsets.congr (h : Offsets segs a l b)
    (he : ∀ s ∈ l, (segs' s).pixelsSoFar = (segs s).pixelsSoFar ∧ (segs' s).pixelsNum = (segs s).pixelsNum) :
    Offsets segs' a l b := by
  induction l generalizing a with
  | nil => exact h
  | cons s l ih =>
    obtain ⟨h₁, h₂⟩ := he s List.mem_cons_self
    refine ⟨h₁.trans h.1, ?_⟩
    rw [h₂]
    exact ih h.2 fun t ht => he t (List.mem_cons_of_mem _ ht)

theorem Offsets.sum_eq (h : Offsets segs a l b) : a + (l.map fun s => (segs s).pixelsNum).sum = b := by
  induction l generalizing a with
  | nil => exact h
  | cons s l ih =>
    rw [List.map_cons, List.sum_cons, ← Nat.add_assoc]
    exact ih h.2

theorem Offsets.le_of_mem (h : Offsets segs a l b) {s : Nat} (hs : s ∈ l) : a ≤ (segs s).pixelsSoFar := by
  induction l generalizing a with
  | nil => cases hs
  | cons t l ih =>
    obtain rfl | hs := List.mem_cons.mp hs
    · exact h.1.ge
    · exact (Nat.le_add_right _ _).trans (ih h.2 hs)

end Offsets

/-- The table of the segments: chains of those in use, in the order of their pixels, and the free
ones. -/
structure SegTable (d : SharedDictionary) (chains : List (List Nat)) (free : List Nat) : Prop where
  linked : ∀ l ∈ chains, ∃ a, SegChain d a l
  free_linked : SegChain d d.freeSegsHead free
  perm : (chains.flatten ++ free).Perm (List.range d.segsQuota)
  quota : ∃ k ≤ 22, d.segsQuota = 1000 * 2 ^ k
  offsets : ∃ a, Offsets d.segs a chains.flatten d.pixelsSoFar

/-- The parts of the dictionary that the changes of segments leave alone. -/
structure SegFrame (d d' : SharedDictionary) : Prop where
  usedSegsHead : d'.usedSegsHead = d.usedSegsHead
  usedSegsTail : d'.usedSegsTail = d.usedSegsTail
  encodersHeads : d'.encodersHeads = d.encodersHeads
  nRecords : d'.nRecords = d.nRecords
  usedImagesTail : d'.usedImagesTail = d.usedImagesTail
  usedImagesHead : d'.usedImagesHead = d.usedImagesHead
  freeImages : d'.freeImages = d.freeImages
  sizeLimit : d'.sizeLimit = d.sizeLimit
  lastImageId : d'.lastImageId = d.lastImageId
  maxEncoders : d'.maxEncoders = d.maxEncoders

theorem SegFrame.trans {d d' d'' : SharedDictionary} (h : SegFrame d d') (h' : SegFrame d' d'') :
    SegFrame d d'' :=
  ⟨h'.1.trans h.1, h'.2.trans h.2, h'.3.trans h.3, h'.4.trans h.4, h'.5.trans h.5, h'.6.trans h.6,
    h'.7.trans h.7, h'.8.trans h.8, h'.9.trans h.9, h'.10.trans h.10⟩

section SegTable

variable {d d' : SharedDictionary} {chains : List (List Nat)} {free l m : List Nat} {s x : Nat}

theorem SegTable.nodup (h : SegTable d chains free) : (chains.flatten ++ free).Nodup :=
  h.perm.nodup_iff.mpr List.nodup_range

theorem SegTable.lt_quota (h : SegTable d chains free) (hs : s ∈ chains.flatten) : s < d.segsQuota :=
  List.mem_range.mp (h.perm.mem_iff.mp (List.mem_append_left _ hs))

theorem SegTable.lt_null (h : SegTable d chains free) (hs : s ∈ chains.flatten ++ free) :
    s < nullImageSegId := by
  obtain ⟨k, hk, hq⟩ := h.quota
  have hlt : s < d.segsQuota := List.mem_range.mp (h.perm.mem_iff.mp hs)
  have hpow : 2 ^ k ≤ 2 ^ 22 := Nat.pow_le_pow_right (by decide) hk
  unfold nullImageSegId
  omega

theorem linked_range' (next : Nat → Nat) {a n : Nat} (hn : a + n ≤ nullImageSegId)
    (hnext : ∀ i, a ≤ i → i < a + n → next i = if i + 1 = a + n then nullImageSegId else i + 1) :
    Linked segNode next (if n = 0 then nullImageSegId else a) (List.range' a n) nullImageSegId := by
  induction n generalizing a with
  | zero => exact rfl
  | succ n ih =>
    rw [if_neg (Nat.succ_ne_zero n), List.range'_succ]
    refine ⟨segNode_of_lt (by omega), ?_⟩
    rw [hnext a le_rfl (by omega)]
    have := ih (a := a + 1) (by omega) fun i h₁ h₂ => by
      rw [hnext i (by omega) (by omega), show a + (n + 1) = a + 1 + n by omega]
    simpa using this

theorem SegTable.segsRealloc (h : SegTable d chains []) (hroom : chains.flatten.length < 1000 * 2 ^ 22) :
    ∃ d', d.segsRealloc = .ok d' ∧ SegTable d' chains (List.range' d.segsQuota d.segsQuota) ∧
      (∀ i, i < d.segsQuota → d'.segs i = d.segs i) ∧
      d' = { d with segs := d'.segs, freeSegsHead := d.segsQuota, segsQuota := d'.segsQuota } := by
  obtain ⟨k, hk, hq⟩ := h.quota
  have hlen : chains.flatten.length = d.segsQuota := by simpa using h.perm.length_eq
  have hk' : k < 22 := by
    by_contra hge
    rw [show k = 22 by omega] at hq
    omega
  have hpow : 2 ^ k ≤ 2 ^ 21 := Nat.pow_le_pow_right (by decide) (by omega)
  have hpos : 0 < 2 ^ k := Nat.pow_pos (by decide)
  have hnew : (if nullImageSegId < d.segsQuota * 2 % 2 ^ 32 then nullImageSegId
      else d.segsQuota * 2 % 2 ^ 32) = d.segsQuota * 2 := by
    unfold nullImageSegId
    rw [if_neg (by omega)]
    omega
  have hfree : d.freeSegsHead = nullImageSegId := h.free_linked
  rw [SharedDictionary.segsRealloc]
  simp only [hnew]
  rw [if_neg (by unfold nullImageSegId; omega), if_neg (by omega)]
  refine ⟨_, rfl, ?_, fun i hi => if_pos hi, rfl⟩
  obtain ⟨c, hc⟩ := h.offsets
  refine ⟨fun l hl => ?_, ?_, ?_, ⟨k + 1, hk', ?_⟩, ⟨c, hc.congr fun i hi => ?_⟩⟩
  · obtain ⟨a, ha⟩ := h.linked l hl
    refine ⟨a, ha.congr fun i hi => ?_⟩
    simp only [if_pos (h.lt_quota (List.mem_flatten_of_mem hl hi))]
  · have := linked_range' (fun i => if i < d.segsQuota then (d.segs i).next else
      if i + 1 = d.segsQuota * 2 then d.freeSegsHead else i + 1) (a := d.segsQuota) (n := d.segsQuota)
      (by unfold nullImageSegId; omega) fun i h₁ h₂ => by
        rw [if_neg (by omega), hfree, Nat.mul_two]
    rw [if_neg (by omega)] at this
    refine this.congr fun i hi => ?_
    dsimp only
    split <;> rfl
  · have hperm := h.perm
    rw [List.append_nil] at hperm
    refine (hperm.append_right (List.range' d.segsQuota d.segsQuota)).trans (List.Perm.of_eq ?_)
    rw [List.range_eq_range', List.range_eq_range', Nat.mul_two]
    simpa using List.range'_append_1 (s := 0) (m := d.segsQuota) (n := d.segsQuota)
  · simp only [hq, Nat.pow_succ]
    ring
  · simp only [if_pos (h.lt_quota hi), and_self]

theorem SegTable.allocSegId (h : SegTable d chains free)
    (hroom : chains.flatten.length < 1000 * 2 ^ 22) :
    ∃ d' seg free', d.allocSegId = .ok (d', seg) ∧
      SegTable { d' with freeSegsHead := seg } chains (seg :: free') ∧
      SegChain d' d'.freeSegsHead free' ∧ d'.pixelsSoFar = d.pixelsSoFar ∧ d'.images = d.images ∧
      (∀ i ∈ chains.flatten, d'.segs i = d.segs i) ∧ SegFrame d d' := by
  rw [SharedDictionary.allocSegId]
  cases free with
  | nil =>
    obtain ⟨d', he, ht, hsegs, hframe⟩ := h.segsRealloc hroom
    obtain ⟨k, hk, hq⟩ := h.quota
    have hpos : 0 < 2 ^ k := Nat.pow_pos (by decide)
    have hhead : d'.freeSegsHead = d.segsQuota := by rw [hframe]
    obtain ⟨n, hn⟩ : ∃ n, d.segsQuota = n + 1 := ⟨d.segsQuota - 1, by omega⟩
    have hlist : List.range' d.segsQuota d.segsQuota =
        d.segsQuota :: List.range' (d.segsQuota + 1) n := by
      conv_lhs => rw [show List.range' d.segsQuota d.segsQuota = List.range' d.segsQuota (n + 1) by
        rw [← hn], List.range'_succ]
    rw [hlist] at ht
    have hlt := ht.lt_null (List.mem_append_right _ List.mem_cons_self)
    have hfree : d.freeSegsHead = nullImageSegId := h.free_linked
    refine ⟨{ d' with freeSegsHead := (d'.segs d.segsQuota).next }, d.segsQuota,
      List.range' (d.segsQuota + 1) n, ?_, ?_, ht.free_linked.2, by rw [hframe], by rw [hframe],
      fun i hi => hsegs i (h.lt_quota hi), ?_⟩
    · rw [if_pos hfree, he]
      change (if d'.freeSegsHead = nullImageSegId then _ else _) = _
      rw [hhead, if_neg hlt.ne]
    · rw [← hhead] at ht ⊢
      exact ht
    · constructor <;> rw [hframe]
  | cons seg free' =>
    obtain ⟨hhead, hne⟩ := eq_of_segNode h.free_linked.1
    refine ⟨{ d with freeSegsHead := (d.segs seg).next }, seg, free', ?_, ?_, h.free_linked.2, rfl,
      rfl, fun i _ => rfl, by constructor <;> rfl⟩
    · rw [if_neg hne]
      change (if d.freeSegsHead = nullImageSegId then _ else _) = _
      rw [if_neg hne, hhead]
    · rw [← hhead]
      exact ⟨h.linked, hhead ▸ h.free_linked, hhead ▸ h.perm, h.quota, h.offsets⟩

/-- A new segment is a chain of its own. -/
theorem SegTable.allocImageSeg (h : SegTable d chains free)
    (hroom : chains.flatten.length < 1000 * 2 ^ 22) (p size : Nat) (lines : List UInt8)
    (hsize : d.pixelsSoFar + size < 2 ^ 64) :
    ∃ d' seg free', d.allocImageSeg p size lines = .ok (d', seg) ∧
      SegTable d' (chains ++ [[seg]]) free' ∧ d'.pixelsSoFar = d.pixelsSoFar + size ∧
      d'.images = d.images ∧ d'.segs seg = ⟨some p, lines, size, d.pixelsSoFar, nullImageSegId⟩ ∧
      (∀ i ∈ chains.flatten, d'.segs i = d.segs i) ∧ SegFrame d d' := by
  obtain ⟨d₁, seg, free', he, ht, hfree, hpix, himg, hsegs, hframe⟩ := h.allocSegId hroom
  have hnodup := ht.nodup
  have hlt := ht.lt_null (List.mem_append_right _ List.mem_cons_self)
  have hseg : seg ∉ chains.flatten := fun hmem =>
    (List.nodup_append.mp hnodup).2.2 seg hmem seg List.mem_cons_self rfl
  have hseg' : seg ∉ free' := (List.nodup_cons.mp (List.nodup_append.mp hnodup).2.1).1
  have hother : ∀ i, i ≠ seg → Function.update d₁.segs seg
      ⟨some p, lines, size, d₁.pixelsSoFar, nullImageSegId⟩ i = d₁.segs i :=
    fun i hi => Function.update_of_ne hi _ _
  refine ⟨{ d₁.setSeg seg ⟨some p, lines, size, d₁.pixelsSoFar, nullImageSegId⟩ with
    pixelsSoFar := (d₁.pixelsSoFar + size) % 2 ^ 64 }, seg, free', ?_, ?_, ?_, himg, ?_, ?_, ?_⟩
  · rw [SharedDictionary.allocImageSeg, he]
    rfl
  · have hflat : (chains ++ [[seg]]).flatten = chains.flatten ++ [seg] := by simp
    obtain ⟨a, ha⟩ := ht.offsets
    refine ⟨fun l hl => ?_, hfree.congr fun i hi => ?_, ?_, ht.quota, ⟨a, ?_⟩⟩
    · obtain hl | hl := List.mem_append.mp hl
      · obtain ⟨b, hb⟩ := ht.linked l hl
        refine ⟨b, hb.congr fun i hi => ?_⟩
        rw [SharedDictionary.setSeg]
        dsimp only
        rw [hother i (ne_of_mem_of_not_mem (List.mem_flatten_of_mem hl hi) hseg)]
      · rw [List.mem_singleton.mp hl]
        refine ⟨seg, segNode_of_lt hlt, ?_⟩
        simp [SharedDictionary.setSeg, Linked]
    · rw [SharedDictionary.setSeg]
      dsimp only
      rw [hother i (ne_of_mem_of_not_mem hi hseg')]
    · rw [hflat, List.append_assoc]
      exact ht.perm
    · rw [hflat]
      change Offsets (Function.update d₁.segs seg _) a _ ((d₁.pixelsSoFar + size) % 2 ^ 64)
      refine Offsets.append (ha.congr fun i hi => ?_) ⟨?_, ?_⟩
      · rw [hother i (ne_of_mem_of_not_mem hi hseg)]
        exact ⟨rfl, rfl⟩
      · rw [Function.update_self]
      · rw [Function.update_self, hpix, Nat.mod_eq_of_lt hsize]
        rfl
  · dsimp only
    rw [hpix, Nat.mod_eq_of_lt hsize]
  · rw [← hpix]
    exact Function.update_self _ _ _
  · intro i hi
    rw [← hsegs i hi]
    exact hother i (ne_of_mem_of_not_mem hi hseg)
  · exact hframe.trans (by constructor <;> rfl)

@[simp] theorem setSegNext_next (d : SharedDictionary) (i n : Nat) :
    (fun j => ((d.setSegNext i n).segs j).next) = Function.update (fun j => (d.segs j).next) i n := by
  funext j
  by_cases h : j = i
  · subst h
    simp [SharedDictionary.setSegNext, SharedDictionary.setSeg]
  · simp [SharedDictionary.setSegNext, SharedDictionary.setSeg, h]

/-- Setting a link changes nothing else of a segment. -/
theorem setSegNext_segs (d : SharedDictionary) (i n j : Nat) :
    (d.setSegNext i n).segs j = { d.segs j with next := ((d.setSegNext i n).segs j).next } := by
  by_cases h : j = i
  · subst h
    simp [SharedDictionary.setSegNext, SharedDictionary.setSeg]
  · simp [SharedDictionary.setSegNext, SharedDictionary.setSeg, h]

theorem Offsets.setSegNext {a b i n : Nat} (h : Offsets d.segs a l b) :
    Offsets (d.setSegNext i n).segs a l b := by
  refine h.congr fun j _ => ?_
  rw [setSegNext_segs]
  exact ⟨rfl, rfl⟩

/-- Two neighbouring chains become one. -/
theorem SegTable.join (h : SegTable d (chains ++ [l ++ [x], s :: m]) free) :
    SegTable (d.setSegNext x s) (chains ++ [l ++ [x] ++ s :: m]) free := by
  have hflat : (chains ++ [l ++ [x] ++ s :: m]).flatten = (chains ++ [l ++ [x], s :: m]).flatten := by
    simp
  have hlist : (chains ++ [l ++ [x], s :: m]).flatten ++ free =
      chains.flatten ++ l ++ x :: (s :: m ++ free) := by simp
  have hx : x ∉ chains.flatten ++ l ++ (s :: m ++ free) := by
    have hnodup := h.nodup
    rw [hlist] at hnodup
    exact (List.nodup_cons.mp (List.nodup_middle.mp hnodup)).1
  simp only [List.mem_append, not_or] at hx
  obtain ⟨⟨hx₁, hx₂⟩, hx₃, hx₄⟩ := hx
  have hother : ∀ i, i ≠ x → Function.update (fun j => (d.segs j).next) x s i = (d.segs i).next :=
    fun i hi => Function.update_of_ne hi _ _
  obtain ⟨o, ho⟩ := h.offsets
  refine ⟨fun k hk => ?_, ?_, ?_, h.quota, ⟨o, ?_⟩⟩
  · unfold SegChain
    rw [setSegNext_next]
    obtain hk | hk := List.mem_append.mp hk
    · obtain ⟨a, ha⟩ := h.linked k (List.mem_append_left _ hk)
      exact ⟨a, ha.congr fun i hi =>
        hother i (ne_of_mem_of_not_mem (List.mem_flatten_of_mem hk hi) hx₁)⟩
    · obtain rfl := List.mem_singleton.mp hk
      obtain ⟨a, ha⟩ := h.linked (l ++ [x]) (by simp)
      obtain ⟨b, hb⟩ := h.linked (s :: m) (by simp)
      obtain ⟨rfl, -⟩ := eq_of_segNode hb.1
      exact ⟨a, (ha.redirect hx₂).append (hb.congr fun i hi => hother i (ne_of_mem_of_not_mem hi hx₃))⟩
  · unfold SegChain
    rw [setSegNext_next]
    exact h.free_linked.congr fun i hi => hother i (ne_of_mem_of_not_mem hi hx₄)
  · rw [hflat]
    exact h.perm
  · rw [hflat]
    exact ho.setSegNext

/-- Only the links of the segments may differ. -/
def SameSegs (d d' : SharedDictionary) (l : List Nat) : Prop :=
  ∀ i ∈ l, d'.segs i = { d.segs i with next := (d'.segs i).next }

theorem SameSegs.trans {d'' : SharedDictionary} (h : SameSegs d d' l) (h' : SameSegs d' d'' l) :
    SameSegs d d'' l := by
  intro i hi
  rw [h' i hi, h i hi]

theorem sameSegs_of_eq (h : ∀ i ∈ l, d'.segs i = d.segs i) : SameSegs d d' l := by
  intro i hi
  rw [h i hi]

theorem sameSegs_setSegNext (d : SharedDictionary) (i n : Nat) : SameSegs d (d.setSegNext i n) l :=
  fun j _ => setSegNext_segs d i n j

theorem SameSegs.mono (h : SameSegs d d' l) (hm : ∀ i ∈ m, i ∈ l) : SameSegs d d' m :=
  fun i hi => h i (hm i hi)

/-- The segments `ss` were filled with the pixels of the chunks, `w` to a line. -/
structure Filled (d : SharedDictionary) (p w : Nat) (ss : List Nat) (cs : List Chunk) : Prop where
  image_eq : ∀ s ∈ ss, (d.segs s).image = some p
  lines_eq : ss.map (fun s => (d.segs s).lines) = cs.map Chunk.lines
  pixelsNum_eq : ss.map (fun s => (d.segs s).pixelsNum) = cs.map fun c => w * c.numLines

theorem Filled.congr {p w : Nat} {ss : List Nat} {cs : List Chunk} (h : Filled d p w ss cs)
    (hs : SameSegs d d' ss) : Filled d' p w ss cs := by
  refine ⟨fun s hm => ?_, ?_, ?_⟩
  · rw [hs s hm]
    exact h.image_eq s hm
  · rw [← h.lines_eq]
    exact List.map_congr_left fun s hm => by rw [hs s hm]
  · rw [← h.pixelsNum_eq]
    exact List.map_congr_left fun s hm => by rw [hs s hm]

theorem Filled.append {p w : Nat} {ss ss' : List Nat} {cs cs' : List Chunk} (h : Filled d p w ss cs)
    (h' : Filled d p w ss' cs') : Filled d p w (ss ++ ss') (cs ++ cs') := by
  refine ⟨fun s hm => ?_, ?_, ?_⟩
  · obtain hm | hm := List.mem_append.mp hm
    · exact h.image_eq s hm
    · exact h'.image_eq s hm
  · rw [List.map_append, List.map_append, h.lines_eq, h'.lines_eq]
  · rw [List.map_append, List.map_append, h.pixelsNum_eq, h'.pixelsNum_eq]

def numLines (cs : List Chunk) : Nat := (cs.map Chunk.numLines).sum

/-- The pixels of a chunk, when the product does not overflow. -/
theorem chunkPixels_eq {w height n : Nat} (hh : 0 < height) (hn : w * height * n < 2 ^ 32) :
    w * height * n % 2 ^ 32 / height = w * n := by
  rw [Nat.mod_eq_of_lt hn, Nat.mul_right_comm, Nat.mul_div_cancel _ hh]

theorem addSegs_cons {p size height row prev seg : Nat} {c : Chunk} {cs : List Chunk}
    (hc : c.numLines ≠ 0)
    (he : d.allocImageSeg p (size * c.numLines % 2 ^ 32 / height) c.lines = .ok (d', seg)) :
    SharedDictionary.addSegs p size height d row prev (c :: cs) =
      let d' := if row = 0 then d'.setImage p { d'.images p with firstSeg := seg }
        else d'.setSegNext prev seg
      if row + c.numLines < height then
        SharedDictionary.addSegs p size height d' (row + c.numLines) seg cs
      else .ok (d', seg) := by
  rw [SharedDictionary.addSegs, if_neg hc, he]
  rfl

/-- The later iterations of `add_image`: the new segment is linked behind the one before. -/
theorem SegTable.addSegs {used new : List Nat} {prev p w height row : Nat} {cs : List Chunk}
    (h : SegTable d [used, new ++ [prev]] free) (hrow : row ≠ 0) (hh : 0 < height)
    (hcs : row + numLines cs = height) (hlt : row < height) (hpos : ∀ c ∈ cs, 0 < c.numLines)
    (hfit : ∀ c ∈ cs, w * height * c.numLines < 2 ^ 32)
    (hroom : (used ++ (new ++ [prev])).length + cs.length ≤ 1000 * 2 ^ 22)
    (hpix : d.pixelsSoFar + w * numLines cs < 2 ^ 64) :
    ∃ d' ss last free', SharedDictionary.addSegs p (w * height) height d row prev cs = .ok (d', last) ∧
      SegTable d' [used, new ++ [prev] ++ (ss ++ [last])] free' ∧
      Filled d' p w (ss ++ [last]) cs ∧ d'.images = d.images ∧
      d'.pixelsSoFar = d.pixelsSoFar + w * numLines cs ∧
      SameSegs d d' (used ++ (new ++ [prev])) ∧ SegFrame d d' := by
  induction cs generalizing d new prev row free with
  | nil =>
    simp only [numLines, List.map_nil, List.sum_nil] at hcs
    omega
  | cons c cs ih =>
    have hc := hpos c List.mem_cons_self
    have hsum : numLines (c :: cs) = c.numLines + numLines cs := by simp [numLines]
    rw [hsum] at hcs hpix
    rw [Nat.mul_add] at hpix
    have hflat : [used, new ++ [prev]].flatten = used ++ (new ++ [prev]) := by simp
    obtain ⟨d₁, seg, free₁, he, ht, hpix₁, himg₁, hseg₁, hsame₁, hframe₁⟩ := h.allocImageSeg
      (by rw [hflat]; simp only [List.length_cons] at hroom; omega) p (w * c.numLines) c.lines (by omega)
    change SegTable d₁ ([used] ++ [new ++ [prev], [seg]]) free₁ at ht
    have hjoin : SegTable (d₁.setSegNext prev seg) [used, new ++ [prev] ++ [seg]] free₁ := ht.join
    have hsame : SameSegs d (d₁.setSegNext prev seg) (used ++ (new ++ [prev])) :=
      (sameSegs_of_eq (hflat ▸ hsame₁)).trans (sameSegs_setSegNext _ _ _)
    have hframe : SegFrame d (d₁.setSegNext prev seg) := hframe₁.trans (by constructor <;> rfl)
    have hfill : Filled (d₁.setSegNext prev seg) p w [seg] [c] := by
      refine Filled.congr ?_ (sameSegs_setSegNext d₁ prev seg)
      constructor <;> simp [hseg₁]
    rw [← chunkPixels_eq hh (hfit c List.mem_cons_self)] at he
    rw [addSegs_cons hc.ne' he, if_neg hrow]
    by_cases hmore : row + c.numLines < height
    · obtain ⟨d₂, ss, last, free₂, he₂, ht₂, hfill₂, himg₂, hpix₂, hsame₂, hframe₂⟩ := ih hjoin
        (by omega) (by omega) hmore (fun c hc => hpos c (List.mem_cons_of_mem _ hc))
        (fun c hc => hfit c (List.mem_cons_of_mem _ hc))
        (by simp only [List.length_append, List.length_cons, List.length_nil] at hroom ⊢; omega)
        (by change d₁.pixelsSoFar + _ < _; omega)
      refine ⟨d₂, seg :: ss, last, free₂, ?_, ?_, ?_, himg₂.trans himg₁, ?_, ?_, hframe.trans hframe₂⟩
      · rw [if_pos hmore, he₂]
      · simpa using ht₂
      · exact (hfill.congr (hsame₂.mono (by simp))).append hfill₂
      · rw [hpix₂, hsum, Nat.mul_add]
        change d₁.pixelsSoFar + _ = _
        omega
      · exact hsame.trans (hsame₂.mono fun i hi => by
          rw [← List.append_assoc]
          exact List.mem_append_left _ hi)
    · have hnil : cs = [] := by
        cases cs with
        | nil => rfl
        | cons c' cs =>
          have := hpos c' (by simp)
          simp only [numLines, List.map_cons, List.sum_cons] at hcs
          omega
      subst hnil
      refine ⟨_, [], seg, free₁, if_neg hmore, hjoin, hfill, himg₁, ?_, hsame, hframe⟩
      rw [hsum]
      exact hpix₁

/-- The segments of a new image, before they are linked to the window. -/
theorem SegTable.addFirst {used : List Nat} {height : Nat} {cs : List Chunk}
    (h : SegTable d [used] free) (prev p w : Nat) (hh : 0 < height) (hcs : numLines cs = height)
    (hpos : ∀ c ∈ cs, 0 < c.numLines) (hfit : ∀ c ∈ cs, w * height * c.numLines < 2 ^ 32)
    (hroom : used.length + cs.length ≤ 1000 * 2 ^ 22)
    (hpix : d.pixelsSoFar + w * numLines cs < 2 ^ 64) :
    ∃ d' first rest last free',
      SharedDictionary.addSegs p (w * height) height d 0 prev cs = .ok (d', last) ∧
      SegTable d' [used, first :: rest] free' ∧ (first :: rest).getLast? = some last ∧
      Filled d' p w (first :: rest) cs ∧
      d'.images = Function.update d.images p { d.images p with firstSeg := first } ∧
      d'.pixelsSoFar = d.pixelsSoFar + w * numLines cs ∧ SameSegs d d' used ∧ SegFrame d d' := by
  cases cs with
  | nil =>
    simp only [numLines, List.map_nil, List.sum_nil] at hcs
    omega
  | cons c cs =>
    have hc := hpos c List.mem_cons_self
    have hsum : numLines (c :: cs) = c.numLines + numLines cs := by simp [numLines]
    rw [hsum] at hcs hpix
    rw [Nat.mul_add] at hpix
    obtain ⟨d₁, seg, free₁, he, ht, hpix₁, himg₁, hseg₁, hsame₁, hframe₁⟩ := h.allocImageSeg
      (by simp only [List.flatten_singleton, List.length_cons] at hroom ⊢; omega)
      p (w * c.numLines) c.lines (by omega)
    rw [List.flatten_singleton] at hsame₁
    rw [← chunkPixels_eq hh (hfit c List.mem_cons_self)] at he
    rw [addSegs_cons hc.ne' he, if_pos rfl]
    have ht' : SegTable (d₁.setImage p { d₁.images p with firstSeg := seg }) [used, [] ++ [seg]] free₁ :=
      ⟨ht.linked, ht.free_linked, ht.perm, ht.quota, ht.offsets⟩
    have hframe : SegFrame d (d₁.setImage p { d₁.images p with firstSeg := seg }) :=
      hframe₁.trans (by constructor <;> rfl)
    have hfill : Filled (d₁.setImage p { d₁.images p with firstSeg := seg }) p w [seg] [c] := by
      constructor <;> simp [SharedDictionary.setImage, hseg₁]
    have himg : (d₁.setImage p { d₁.images p with firstSeg := seg }).images =
        Function.update d.images p { d.images p with firstSeg := seg } := by
      rw [SharedDictionary.setImage, himg₁]
    by_cases hmore : 0 + c.numLines < height
    · obtain ⟨d₂, ss, last, free₂, he₂, ht₂, hfill₂, himg₂, hpix₂, hsame₂, hframe₂⟩ :=
        SegTable.addSegs (p := p) (w := w) ht' (by omega) hh (by omega) hmore
        (fun c hc => hpos c (List.mem_cons_of_mem _ hc))
        (fun c hc => hfit c (List.mem_cons_of_mem _ hc))
        (by simp only [List.length_append, List.length_cons, List.length_nil] at hroom ⊢; omega)
        (by change d₁.pixelsSoFar + _ < _; omega)
      refine ⟨d₂, seg, ss ++ [last], last, free₂, ?_, ht₂, ?_, ?_, himg₂.trans himg, ?_, ?_,
        hframe.trans hframe₂⟩
      · rw [if_pos hmore, he₂]
      · rw [← List.cons_append, List.getLast?_concat]
      · exact (hfill.congr (hsame₂.mono (by simp))).append hfill₂
      · rw [hpix₂, hsum, Nat.mul_add]
        change d₁.pixelsSoFar + _ = _
        omega
      · exact (sameSegs_of_eq hsame₁).trans (hsame₂.mono fun i hi => List.mem_append_left _ hi)
    · have hnil : cs = [] := by
        cases cs with
        | nil => rfl
        | cons c' cs =>
          have := hpos c' (by simp)
          simp only [numLines, List.map_cons, List.sum_cons] at hcs
          omega
      subst hnil
      refine ⟨_, seg, [], seg, free₁, if_neg hmore, ht', rfl, hfill, himg, ?_,
        sameSegs_of_eq hsame₁, hframe⟩
      rw [hsum]
      exact hpix₁

end SegTable

/-- The image records: those of the window and the free ones. -/
structure ImageTable (d : SharedDictionary) (records spare : List Nat) : Prop where
  linked : ImageChain d d.usedImagesHead records
  spare_linked : ImageChain d d.freeImages spare
  nodup : (records ++ spare).Nodup
  lt : ∀ p ∈ records ++ spare, p < d.nRecords

/-- Only the links of the images may differ. -/
def SameImages (d d' : SharedDictionary) (l : List Nat) : Prop :=
  ∀ p ∈ l, d'.images p = { d.images p with next := (d'.images p).next }

section ImageTable

variable {d d' : SharedDictionary} {records spare : List Nat} {p : Nat}

@[simp] theorem setImage_next (d : SharedDictionary) (p : Nat) (image : WindowImage) :
    (fun q => ((d.setImage p image).images q).next) =
      Function.update (fun q => (d.images q).next) p image.next := by
  funext q
  by_cases h : q = p
  · subst h
    simp [SharedDictionary.setImage]
  · simp [SharedDictionary.setImage, h]

/-- A record that is neither in the window nor free is entered at the tail of the window. -/
theorem ImageTable.appendImage (h : ImageTable d records spare)
    (htail : d.usedImagesTail = records.getLast?) (hp : p ∉ records ++ spare) (hlt : p < d.nRecords) :
    ImageTable (d.appendImage p) (records ++ [p]) spare := by
  have hnodup : (records ++ [p] ++ spare).Nodup := by
    rw [List.append_assoc]
    exact List.nodup_middle.mpr (List.nodup_cons.mpr ⟨hp, h.nodup⟩)
  have hlt' : ∀ q ∈ records ++ [p] ++ spare, q < d.nRecords := by
    intro q hq
    rw [List.append_assoc] at hq
    obtain rfl | hq := List.mem_cons.mp (List.perm_middle.mem_iff.mp hq)
    · exact hlt
    · exact h.lt q hq
  simp only [List.mem_append, not_or] at hp
  have hother : ∀ q ∈ records ++ spare, Function.update (fun q => (d.images q).next) p none q =
      (d.images q).next := by
    rintro q hq
    refine Function.update_of_ne ?_ _ _
    rintro rfl
    exact (List.mem_append.mp hq).elim hp.1 hp.2
  have hlinked := h.linked.congr fun q hq => hother q (List.mem_append_left _ hq)
  have hspare := h.spare_linked.congr fun q hq => hother q (List.mem_append_right _ hq)
  have htail' : (d.setImage p { d.images p with next := none }).usedImagesTail = records.getLast? := htail
  unfold SharedDictionary.appendImage
  simp only [htail']
  obtain rfl | ⟨l, t, rfl⟩ := records.eq_nil_or_concat'
  · simp only [List.getLast?_nil]
    have hhead : d.usedImagesHead = none := h.linked
    refine ⟨?_, ?_, hnodup, hlt'⟩
    · dsimp only [ImageChain]
      rw [setImage_next]
      change Linked id _ (d.usedImagesHead.or (some p)) _ _
      rw [hhead]
      exact ⟨rfl, Function.update_self _ _ _⟩
    · dsimp only [ImageChain]
      rw [setImage_next]
      exact hspare
  · simp only [List.getLast?_concat]
    have hnot : t ∉ l ++ (p :: spare) := by
      rw [show l ++ [t] ++ [p] ++ spare = l ++ t :: (p :: spare) by simp] at hnodup
      exact (List.nodup_cons.mp (List.nodup_middle.mp hnodup)).1
    simp only [List.mem_append, List.mem_cons, not_or] at hnot
    obtain ⟨ht₁, ht₂, ht₃⟩ := hnot
    obtain ⟨x, hx⟩ : ∃ x, d.usedImagesHead = some x := by
      cases l with
      | nil => exact ⟨_, h.linked.1⟩
      | cons y l => exact ⟨_, h.linked.1⟩
    refine ⟨?_, ?_, hnodup, hlt'⟩
    · dsimp only [ImageChain]
      rw [setImage_next, setImage_next]
      change Linked id _ (d.usedImagesHead.or (some p)) _ _
      rw [hx, Option.some_or, ← hx]
      refine (hlinked.redirect ht₁).append ⟨rfl, ?_⟩
      rw [Function.update_of_ne (Ne.symm ht₂)]
      exact Function.update_self _ _ _
    · dsimp only [ImageChain]
      rw [setImage_next, setImage_next]
      exact hspare.congr fun q hq => Function.update_of_ne (ne_of_mem_of_not_mem hq ht₃) _ _

/-- The parts of the dictionary that the changes of image records leave alone. -/
structure ImageFrame (d d' : SharedDictionary) : Prop where
  segs : d'.segs = d.segs
  segsQuota : d'.segsQuota = d.segsQuota
  usedSegsHead : d'.usedSegsHead = d.usedSegsHead
  usedSegsTail : d'.usedSegsTail = d.usedSegsTail
  freeSegsHead : d'.freeSegsHead = d.freeSegsHead
  encodersHeads : d'.encodersHeads = d.encodersHeads
  pixelsSoFar : d'.pixelsSoFar = d.pixelsSoFar
  sizeLimit : d'.sizeLimit = d.sizeLimit
  lastImageId : d'.lastImageId = d.lastImageId
  maxEncoders : d'.maxEncoders = d.maxEncoders

theorem appendImage_frame (d : SharedDictionary) (p : Nat) : ImageFrame d (d.appendImage p) := by
  unfold SharedDictionary.appendImage
  constructor <;> dsimp only <;> split <;> rfl

theorem setImage_same (d : SharedDictionary) (p : Nat) (next : Option Nat) (l : List Nat) :
    SameImages d (d.setImage p { d.images p with next := next }) l := by
  intro q _
  by_cases h : q = p
  · subst h
    simp [SharedDictionary.setImage]
  · simp [SharedDictionary.setImage, h]

theorem SameImages.trans {d'' : SharedDictionary} {l : List Nat} (h : SameImages d d' l)
    (h' : SameImages d' d'' l) : SameImages d d'' l := by
  intro q hq
  rw [h' q hq, h q hq]

theorem appendImage_same (d : SharedDictionary) (p : Nat) (l : List Nat) :
    SameImages d (d.appendImage p) l := by
  have h := setImage_same d p none l
  unfold SharedDictionary.appendImage
  dsimp only
  split
  · exact h.trans (setImage_same _ _ _ l)
  · exact h

theorem ImageTable.allocImage (h : ImageTable d records spare)
    (htail : d.usedImagesTail = records.getLast?) :
    ∃ d' p spare', d.allocImage = (d', p) ∧ ImageTable d' (records ++ [p]) spare' ∧
      d'.usedImagesTail = some p ∧ p ∉ records ∧ SameImages d d' records ∧ ImageFrame d d' := by
  cases spare with
  | nil =>
    have he : d.allocImage =
        ({ d with nRecords := d.nRecords + 1 }.appendImage d.nRecords, d.nRecords) := by
      have hfree : d.freeImages = none := h.spare_linked
      rw [SharedDictionary.allocImage]
      split
      · simp_all
      · rfl
    have hnew : d.nRecords ∉ records ++ [] := fun hm => (h.lt _ hm).false
    have h' : ImageTable { d with nRecords := d.nRecords + 1 } records [] :=
      ⟨h.linked, h.spare_linked, h.nodup, fun p hp => (h.lt p hp).trans (Nat.lt_succ_self _)⟩
    have hf := appendImage_frame { d with nRecords := d.nRecords + 1 } d.nRecords
    refine ⟨_, d.nRecords, [], he, h'.appendImage htail hnew (Nat.lt_succ_self _), rfl, ?_,
      appendImage_same _ _ _, ⟨hf.1, hf.2, hf.3, hf.4, hf.5, hf.6, hf.7, hf.8, hf.9, hf.10⟩⟩
    simpa using hnew
  | cons p spare =>
    have he : d.allocImage = ({ d with freeImages := (d.images p).next }.appendImage p, p) := by
      have hfree : d.freeImages = some p := h.spare_linked.1
      rw [SharedDictionary.allocImage]
      split
      · simp_all
      · simp_all
    have hnot : p ∉ records ++ spare := (List.nodup_cons.mp (List.nodup_middle.mp h.nodup)).1
    have h' : ImageTable { d with freeImages := (d.images p).next } records spare :=
      ⟨h.linked, h.spare_linked.2, (List.nodup_cons.mp (List.nodup_middle.mp h.nodup)).2,
        fun q hq => h.lt q (List.perm_middle.mem_iff.mpr (List.mem_cons_of_mem _ hq))⟩
    have hf := appendImage_frame { d with freeImages := (d.images p).next } p
    exact ⟨_, p, spare, he, h'.appendImage htail hnot (h.lt p (by simp)), rfl,
      fun hm => hnot (List.mem_append_left _ hm), appendImage_same _ _ _,
      ⟨hf.1, hf.2, hf.3, hf.4, hf.5, hf.6, hf.7, hf.8, hf.9, hf.10⟩⟩

end ImageTable

end Colama.Spice.Glz

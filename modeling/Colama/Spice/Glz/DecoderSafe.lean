import Mathlib.Tactic
import Colama.Lib.Runs
import Colama.Spice.Glz.DecoderWindow

namespace Colama.Spice.Glz

open Lib GlzDecoderWindow

/-- The id of the first image of the window. -/
def GlzDecoderWindow.headId (w : GlzDecoderWindow) : Nat := w.tailImageId + 1 - w.nImages

/-- Each image that is done is found in the place that its id has in the window, and every other
place is empty. -/
structure Slots (head : Nat → Nat) (done : Nat → Prop) (w : GlzDecoderWindow) : Prop where
  n_pos : 1 ≤ w.nImages
  n_le : w.nImages ≤ w.tailImageId + 1
  n_lt : w.nImages < w.imagesCapacity
  headIdx_lt : w.headIdx < w.imagesCapacity
  done_le : ∀ id, done id → id ≤ w.tailImageId
  image_done : ∀ k, k < w.imagesCapacity → done (w.headId + k) →
    w.images (slot w.imagesCapacity w.headIdx k) = some ⟨w.headId + k, head (w.headId + k)⟩
  image_none : ∀ k, k < w.imagesCapacity → ¬done (w.headId + k) →
    w.images (slot w.imagesCapacity w.headIdx k) = none

/-- All images before `front` have arrived, and the missing list goes on from there. -/
structure WindowInv (head : Nat → Nat) (done : Nat → Prop) (w : GlzDecoderWindow) (front : Nat) :
    Prop extends Slots head done w where
  missing_eq : w.missingList = List.range' front (w.tailImageId + 1 - front)
  front_le : front ≤ w.tailImageId + 1
  headId_le : w.headId ≤ front
  headId_le_head : w.headId ≤ head front
  done_lt : ∀ id, id < front → done id
  not_done : ¬done front

section Window

variable {head : Nat → Nat} {done done' : Nat → Prop} {w w' : GlzDecoderWindow} {front i : Nat}

theorem Slots.calc_eq (h : Slots head done w) (h₁ : w.headId ≤ i) (h₂ : i ≤ w.tailImageId) :
    w.calcImageWinIdx i = slot w.imagesCapacity w.headIdx (i - w.headId) := by
  have := h.n_pos
  have := h.n_le
  rw [calcImageWinIdx, slot]
  unfold headId at *
  congr 1
  omega

theorem Slots.offset_lt (h : Slots head done w) (h₁ : w.headId ≤ i) (h₂ : i ≤ w.tailImageId) :
    i - w.headId < w.imagesCapacity := by
  have := h.n_le
  have := h.n_lt
  unfold headId at *
  omega

theorem Slots.image_of_done (h : Slots head done w) (h₁ : w.headId ≤ i) (hd : done i) :
    w.images (w.calcImageWinIdx i) = some ⟨i, head i⟩ := by
  have h₂ := h.done_le i hd
  have hk := h.image_done (i - w.headId) (h.offset_lt h₁ h₂)
  rw [Nat.add_sub_cancel' h₁] at hk
  rw [h.calc_eq h₁ h₂, hk hd]

theorem Slots.image_of_not_done (h : Slots head done w) (h₁ : w.headId ≤ i) (h₂ : i ≤ w.tailImageId)
    (hd : ¬done i) : w.images (w.calcImageWinIdx i) = none := by
  have hk := h.image_none (i - w.headId) (h.offset_lt h₁ h₂)
  rw [Nat.add_sub_cancel' h₁] at hk
  rw [h.calc_eq h₁ h₂, hk hd]

theorem Slots.realloc {size : Nat} (h : Slots head done w) (hs : w.nImages < size) :
    Slots head done (w.realloc size) where
  n_pos := h.n_pos
  n_le := h.n_le
  n_lt := hs
  headIdx_lt := Nat.zero_lt_of_lt hs
  done_le := h.done_le
  image_done := by
    intro k hk hd
    have hkn : k < w.nImages := by
      have hle := h.done_le _ hd
      have hn := h.n_le
      unfold headId at hle
      simp only [GlzDecoderWindow.realloc] at hle
      omega
    have := h.image_done k (hkn.trans h.n_lt) hd
    simp only [GlzDecoderWindow.realloc] at hk ⊢
    rw [slot_zero_left hk, if_pos hkn, Nat.add_comm]
    exact this
  image_none := by
    intro k hk hd
    simp only [GlzDecoderWindow.realloc] at hk ⊢
    rw [slot_zero_left hk]
    split
    · rename_i hkn
      rw [Nat.add_comm]
      exact h.image_none k (hkn.trans h.n_lt) hd
    · rfl

theorem WindowInv.realloc {size : Nat} (h : WindowInv head done w front) (hs : w.nImages < size) :
    WindowInv head done (w.realloc size) front :=
  ⟨h.toSlots.realloc hs, h.missing_eq, h.front_le, h.headId_le, h.headId_le_head, h.done_lt, h.not_done⟩

theorem WindowInv.addPreDecodedImage (h : WindowInv head done w front) (hi : w.tailImageId < i)
    (hc : i - w.tailImageId + w.nImages < w.imagesCapacity) :
    ∃ w', w.addPreDecodedImage i = .ok w' ∧ WindowInv head done w' front ∧ w'.headId = w.headId ∧
      w'.tailImageId = i ∧ w'.headIdx = w.headIdx ∧ w'.imagesCapacity = w.imagesCapacity ∧
      w'.images = w.images := by
  have hn := h.n_le
  have hhead : i + 1 - (w.nImages + (i - w.tailImageId)) = w.tailImageId + 1 - w.nImages := by omega
  refine ⟨_, if_pos ⟨hi, hc⟩, ?_, ?_, rfl, rfl, rfl, rfl⟩
  · have hf := h.front_le
    exact {
      n_pos := by have := h.n_pos; simp only; omega
      n_le := by simp only; omega
      n_lt := by simp only; omega
      headIdx_lt := h.headIdx_lt
      done_le := fun id hd => (h.done_le id hd).trans hi.le
      image_done := by
        simp only [headId, hhead]
        exact h.image_done
      image_none := by
        simp only [headId, hhead]
        exact h.image_none
      missing_eq := by
        simp only [h.missing_eq]
        have happ := List.range'_append_1 (s := front) (m := w.tailImageId + 1 - front)
          (n := i - w.tailImageId)
        rw [show front + (w.tailImageId + 1 - front) = w.tailImageId + 1 by omega] at happ
        rw [happ]
        congr 1
        omega
      front_le := by simp only; omega
      headId_le := by simp only [headId, hhead]; exact h.headId_le
      headId_le_head := by simp only [headId, hhead]; exact h.headId_le_head
      done_lt := h.done_lt
      not_done := h.not_done }
  · simp only [headId, hhead]

/-- The slots after the image `i` has been stored. -/
theorem Slots.addDecodedImage (h : Slots head done w) (h₁ : w.headId ≤ i) (h₂ : i ≤ w.tailImageId)
    (hd : ∀ id, done' id ↔ done id ∨ id = i) :
    ∃ w', w.addDecodedImage ⟨i, head i⟩ = .ok w' ∧ Slots head done' w' ∧
      w'.headId = w.headId ∧ w'.tailImageId = w.tailImageId ∧ w'.headIdx = w.headIdx ∧
      w'.imagesCapacity = w.imagesCapacity ∧ w'.missingList = w.missingList := by
  refine ⟨_, if_pos h₂, ?_, rfl, rfl, rfl, rfl, rfl⟩
  have hoff := h.offset_lt h₁ h₂
  have hcalc := h.calc_eq h₁ h₂
  exact {
    n_pos := h.n_pos
    n_le := h.n_le
    n_lt := h.n_lt
    headIdx_lt := h.headIdx_lt
    done_le := by
      intro id hid
      obtain hid | rfl := (hd id).mp hid
      · exact h.done_le id hid
      · exact h₂
    image_done := by
      intro k hk hdk
      change Function.update w.images _ _ _ = _
      rw [hcalc]
      by_cases he : k = i - w.headId
      · rw [he, Function.update_self]
        change _ = some (GlzDecodedImage.mk (w.headId + _) (head (w.headId + _)))
        rw [Nat.add_sub_cancel' h₁]
      · rw [Function.update_of_ne fun hs => he (slot_inj hk hoff hs)]
        refine h.image_done k hk (((hd _).mp hdk).resolve_right fun hi => he ?_)
        change w.headId + k = i at hi
        omega
    image_none := by
      intro k hk hdk
      change Function.update w.images _ _ _ = _
      rw [hcalc]
      have hne : k ≠ i - w.headId := by
        rintro rfl
        refine hdk ((hd _).mpr (.inr ?_))
        change w.headId + (i - w.headId) = i
        omega
      rw [Function.update_of_ne fun hs => hne (slot_inj hk hoff hs)]
      exact h.image_none k hk fun hc => hdk ((hd _).mpr (.inl hc)) }

/-- Popping the images that have arrived stops at the first one that has not. -/
theorem Slots.dropWhile_missing (h : Slots head done w) {a : Nat} (ha : w.headId ≤ a)
    (hle : a ≤ w.tailImageId + 1) :
    ∃ f, (List.range' a (w.tailImageId + 1 - a)).dropWhile
        (fun id => (w.images (w.calcImageWinIdx id)).isSome) =
        List.range' f (w.tailImageId + 1 - f) ∧
      a ≤ f ∧ f ≤ w.tailImageId + 1 ∧ (∀ id, a ≤ id → id < f → done id) ∧ ¬done f := by
  obtain ⟨m, hm⟩ : ∃ m, m = w.tailImageId + 1 - a := ⟨_, rfl⟩
  induction m generalizing a with
  | zero =>
    refine ⟨a, ?_, le_rfl, hle, fun id h₁ h₂ => by omega, fun hd => ?_⟩
    · rw [← hm]
      rfl
    · have := h.done_le a hd
      omega
  | succ m ih =>
    rw [← hm, List.range'_succ]
    by_cases hd : done a
    · have himg := h.image_of_done ha hd
      rw [List.dropWhile_cons_of_pos (by rw [himg]; rfl)]
      obtain ⟨f, he, hf₁, hf₂, hdone, hnot⟩ := ih (a := a + 1) (by omega) (by omega) (by omega)
      rw [show m = w.tailImageId + 1 - (a + 1) by omega]
      refine ⟨f, he, by omega, hf₂, fun id h₁ h₂ => ?_, hnot⟩
      obtain rfl | hlt := Nat.eq_or_lt_of_le h₁
      · exact hd
      · exact hdone id hlt h₂
    · have himg := h.image_of_not_done ha (by omega) hd
      rw [List.dropWhile_cons_of_neg (by rw [himg]; simp)]
      refine ⟨a, ?_, le_rfl, hle, fun id h₁ h₂ => by omega, hd⟩
      rw [← hm, List.range'_succ]

theorem deleteImages_of_lt {n k : Nat} (w : GlzDecoderWindow) (hk : k < n) :
    w.deleteImages n (slot w.imagesCapacity w.headIdx k) = none := by
  induction n with
  | zero => omega
  | succ n ih =>
    rw [deleteImages, Function.update_apply]
    split
    · rfl
    · rename_i hne
      refine ih ?_
      by_contra hge
      obtain rfl : k = n := by omega
      exact hne rfl

theorem deleteImages_of_ge {n k : Nat} (w : GlzDecoderWindow) (hn : n ≤ k) (hk : k < w.imagesCapacity) :
    w.deleteImages n (slot w.imagesCapacity w.headIdx k) =
      w.images (slot w.imagesCapacity w.headIdx k) := by
  induction n with
  | zero => rfl
  | succ n ih =>
    have hne : slot w.imagesCapacity w.headIdx k ≠ (w.headIdx + n) % w.imagesCapacity := by
      intro hs
      have : k = n := slot_inj hk (by omega) hs
      omega
    rw [deleteImages, Function.update_of_ne hne, ih (by omega)]

/-- The slots after the images before `h'` have been deleted and the window starts there. -/
theorem Slots.shift {h' : Nat} (h : Slots head done w) (h₁ : w.headId ≤ h') (h₂ : h' ≤ w.tailImageId)
    (htail : w'.tailImageId = w.tailImageId) (hcap : w'.imagesCapacity = w.imagesCapacity)
    (hidx : w'.headIdx = slot w.imagesCapacity w.headIdx (h' - w.headId))
    (himg : w'.images = w.deleteImages (h' - w.headId))
    (hnum : w'.nImages = w.nImages - (h' - w.headId)) (hhead : w'.headId = h') :
    Slots head done w' := by
  have hn := h.n_le
  have hpos := h.n_pos
  have hlt := h.n_lt
  have hw : w.headId + w.nImages = w.tailImageId + 1 := by
    unfold headId
    omega
  have hsum : ∀ k, h' + k = w.headId + (h' - w.headId + k) := fun k => by omega
  exact {
    n_pos := by omega
    n_le := by omega
    n_lt := by omega
    headIdx_lt := by
      rw [hidx, hcap]
      exact slot_lt _ _ (by omega)
    done_le := by
      rw [htail]
      exact h.done_le
    image_done := by
      intro k hk hdk
      rw [hhead] at hdk ⊢
      have hin : h' - w.headId + k < w.imagesCapacity := by
        have := h.done_le _ hdk
        omega
      rw [hcap, hidx, slot_slot, himg, deleteImages_of_ge w (by omega) hin]
      rw [hsum] at hdk ⊢
      exact h.image_done _ hin hdk
    image_none := by
      intro k hk hdk
      rw [hhead] at hdk
      rw [hcap] at hk
      rw [hcap, hidx, slot_slot, himg]
      by_cases hin : h' - w.headId + k < w.imagesCapacity
      · rw [deleteImages_of_ge w (by omega) hin]
        rw [hsum] at hdk
        exact h.image_none _ hin hdk
      · obtain ⟨j, hj⟩ : ∃ j, h' - w.headId + k = j + w.imagesCapacity :=
          ⟨_, (Nat.sub_add_cancel (Nat.not_lt.mp hin)).symm⟩
        rw [hj, slot_add_self, deleteImages_of_lt w (by omega)] }

theorem Slots.removeHead {h' : Nat} (h : Slots head done w) (hd : done w.headId) (h₁ : w.headId ≤ h')
    (h₂ : h' ≤ w.tailImageId) :
    ∃ w', w.removeHead h' = .ok w' ∧ Slots head done w' ∧ w'.headId = h' ∧
      w'.tailImageId = w.tailImageId ∧ w'.imagesCapacity = w.imagesCapacity ∧
      w'.headIdx = slot w.imagesCapacity w.headIdx (h' - w.headId) ∧
      w'.missingList = w.missingList := by
  have hn := h.n_le
  have hlt := h.n_lt
  have hidx : slot w.imagesCapacity w.headIdx 0 = w.headIdx := by
    rw [slot, Nat.add_zero, Nat.mod_eq_of_lt h.headIdx_lt]
  have himg : w.images w.headIdx = some ⟨w.headId, head w.headId⟩ := by
    have := h.image_done 0 (by omega) hd
    rwa [hidx] at this
  have hhead : w.tailImageId + 1 - (w.nImages - (h' - w.headId)) = h' := by
    unfold headId at *
    omega
  refine ⟨⟨w.deleteImages (h' - w.headId), (w.headIdx + (h' - w.headId)) % w.imagesCapacity,
    w.tailImageId, w.imagesCapacity, w.nImages - (h' - w.headId), w.missingList⟩, ?_,
    h.shift h₁ h₂ rfl rfl rfl rfl rfl hhead, hhead, rfl, rfl, rfl, rfl⟩
  rw [GlzDecoderWindow.removeHead, himg]
  simp only [if_neg (Nat.not_lt.mpr h₁)]

/-- The image that decides about the new head is there: it is the last one before the first that
is missing. -/
theorem Slots.newHeadImageId {f : Nat} (h : Slots head done w) (hf : w.headId < f)
    (hle : f ≤ w.tailImageId + 1) (hd : done (f - 1))
    (hm : w.missingList = List.range' f (w.tailImageId + 1 - f)) :
    w.newHeadImageId = .ok (head (f - 1)) := by
  have himg := h.image_of_done (show w.headId ≤ f - 1 by omega) hd
  rw [GlzDecoderWindow.newHeadImageId, hm]
  obtain heq | hlt := Nat.eq_or_lt_of_le hle
  · rw [show w.tailImageId + 1 - f = 0 by omega, List.range'_zero]
    rw [show f - 1 = w.tailImageId by omega] at himg ⊢
    simp only [himg]
  · obtain ⟨m, hm⟩ : ∃ m, w.tailImageId + 1 - f = m + 1 := ⟨w.tailImageId - f, by omega⟩
    rw [hm, List.range'_succ]
    simp only [himg]

/-- `post_decode_update_window` for an image that is not yet done. -/
theorem WindowInv.post (hmono : Monotone head) (hle : ∀ i, head i ≤ i)
    (h : WindowInv head done w front) (hi : i ≤ w.tailImageId) (hn : ¬done i)
    (hd : ∀ id, done' id ↔ done id ∨ id = i) :
    ∃ w₁ w', w.addDecodedImage ⟨i, head i⟩ = .ok w₁ ∧ w₁.narrowWindow ⟨i, head i⟩ = .ok w' ∧
      (∃ front', WindowInv head done' w' front' ∧ front ≤ front') ∧
      w.headId ≤ w'.headId ∧ w'.tailImageId = w.tailImageId ∧
      w'.imagesCapacity = w.imagesCapacity ∧
      w'.headIdx = slot w.imagesCapacity w.headIdx (w'.headId - w.headId) := by
  have hfront : front ≤ i := by
    by_contra hlt
    exact hn (h.done_lt i (by omega))
  have hhead := h.headId_le
  obtain ⟨w₁, he₁, hs₁, hid₁, htail₁, hidx₁, hcap₁, hmiss₁⟩ :=
    h.toSlots.addDecodedImage (by omega) hi hd
  obtain ⟨m, hm⟩ : ∃ m, w.tailImageId + 1 - front = m + 1 := ⟨w.tailImageId - front, by omega⟩
  have hlist : w₁.missingList = front :: List.range' (front + 1) m := by
    rw [hmiss₁, h.missing_eq, hm, List.range'_succ]
  have hsame : slot w.imagesCapacity w.headIdx (w₁.headId - w.headId) = w.headIdx := by
    rw [hid₁, Nat.sub_self, slot, Nat.add_zero, Nat.mod_eq_of_lt h.headIdx_lt]
  by_cases hne : front = i
  · subst hne
    obtain ⟨f, hdrop, hf₁, hf₂, hdone, hnot⟩ := hs₁.dropWhile_missing
      (show w₁.headId ≤ front + 1 by omega) (show front + 1 ≤ w₁.tailImageId + 1 by omega)
    rw [show w₁.tailImageId + 1 - (front + 1) = m by omega] at hdrop
    have hdone' : ∀ id, id < f → done' id := by
      intro id hlt
      rw [hd]
      by_cases h₁ : id < front
      · exact .inl (h.done_lt id h₁)
      · by_cases h₂ : id = front
        · exact .inr h₂
        · exact (hd id).mp (hdone id (by omega) hlt)
    let w₂ : GlzDecoderWindow := { w₁ with
      missingList := (List.range' (front + 1) m).dropWhile
        fun id => (w₁.images (w₁.calcImageWinIdx id)).isSome }
    have hs₂ : Slots head done' w₂ :=
      ⟨hs₁.n_pos, hs₁.n_le, hs₁.n_lt, hs₁.headIdx_lt, hs₁.done_le, hs₁.image_done, hs₁.image_none⟩
    have hid₂ : w₂.headId = w.headId := hid₁
    have htail₂ : w₂.tailImageId = w.tailImageId := htail₁
    have hnew : w₂.newHeadImageId = .ok (head (f - 1)) :=
      hs₂.newHeadImageId (by omega) (by omega) (hdone' _ (by omega)) hdrop
    have hge : w.headId ≤ head (f - 1) := h.headId_le_head.trans (hmono (by omega))
    have hlef := hle (f - 1)
    obtain ⟨w', he', hs', hid', htail', hcap', hidx', hmiss'⟩ := hs₂.removeHead
      (hdone' _ (by omega)) (show w₂.headId ≤ head (f - 1) by omega) (by omega)
    refine ⟨w₁, w', he₁, ?_, ⟨f, ?_, by omega⟩, by omega, by omega, hcap'.trans hcap₁, ?_⟩
    · rw [narrowWindow, hlist]
      simp only [ne_eq, not_true_eq_false, if_false]
      change (do w₂.removeHead (← w₂.newHeadImageId)) = _
      rw [hnew]
      exact he'
    · exact {
        toSlots := hs'
        missing_eq := by
          rw [hmiss', htail']
          exact hdrop
        front_le := by omega
        headId_le := by omega
        headId_le_head := by
          rw [hid']
          exact hmono (Nat.sub_le _ _)
        done_lt := hdone'
        not_done := hnot }
    · rw [hidx', hid', hid₂]
      change slot w₁.imagesCapacity w₁.headIdx _ = _
      rw [hcap₁, hidx₁]
  · refine ⟨w₁, w₁, he₁, ?_, ⟨front, ?_, le_rfl⟩, hid₁.ge, htail₁, hcap₁, hidx₁.trans hsame.symm⟩
    · rw [narrowWindow, hlist]
      simp only [if_pos hne]
    · exact {
        toSlots := hs₁
        missing_eq := by rw [hmiss₁, h.missing_eq, htail₁]
        front_le := by rw [htail₁]; exact h.front_le
        headId_le := by rw [hid₁]; exact h.headId_le
        headId_le_head := by rw [hid₁]; exact h.headId_le_head
        done_lt := fun id hlt => (hd id).mpr (.inl (h.done_lt id hlt))
        not_done := fun hc => h.not_done (((hd _).mp hc).resolve_right hne) }

/-- The array has room for the new tail, as it is or after a reallocation. -/
theorem calcReallocSize_spec (hn : 1 ≤ w.nImages) (hi : w.tailImageId < i) :
    (w.calcReallocSize i = 0 → i - w.tailImageId + w.nImages < w.imagesCapacity) ∧
      (w.calcReallocSize i ≠ 0 → i - w.tailImageId + w.nImages < w.calcReallocSize i) := by
  rw [calcReallocSize, if_neg (Nat.not_le.mpr hi)]
  dsimp only
  split
  · constructor <;> omega
  · constructor <;> omega

end Window

/-- No array is reallocated while a decoder is between the two halves of `pre_decode`, and none
outgrows the indices. -/
def NoReallocInGap (s : DecoderState) : DecoderAction → Prop
  | .update i => s.window.calcReallocSize i ≤ 2 ^ 30 ∧
    (s.window.calcReallocSize i ≠ 0 → ∀ j k, s.phase j ≠ .updated k)
  | _ => True

structure DecoderInv (head : Nat → Nat) (s : DecoderState) : Prop where
  window : ∃ front, WindowInv head (fun id => s.phase id = .done) s.window front
  winId : ∀ i k, s.phase i = .updated k ∨ s.phase i = .decoding k → i ≤ s.window.tailImageId ∧
    k = slot s.window.imagesCapacity s.window.headIdx (i - s.window.headId)
  unlocked_le : ∀ i, s.phase i = .unlocked → i ≤ s.window.tailImageId
  mem_readers : ∀ i k, s.phase i = .decoding k → i ∈ s.readers

section Decoder

variable {head : Nat → Nat} {s s' : DecoderState} {i : Nat}

theorem new_decoderInv (hle : ∀ i, head i ≤ i) : DecoderInv head .new where
  window := by
    have h0 : head 0 = 0 := Nat.le_zero.mp (hle 0)
    refine ⟨0, ⟨?_, ?_, ?_, ?_, ?_, ?_, ?_⟩, ?_, ?_, ?_, ?_, ?_, ?_⟩ <;>
      simp [DecoderState.new, GlzDecoderWindow.new, initImagesCapacity, headId]
  winId := by simp [DecoderState.new]
  unlocked_le := by simp [DecoderState.new]
  mem_readers := by simp [DecoderState.new]

/-- Only the phase of a decoder changes, and it is not done either before or after. -/
theorem DecoderInv.setPhase {p : Phase} (h : DecoderInv head s) (hw : s'.window = s.window)
    (hp : s'.phase = Function.update s.phase i p) (hold : s.phase i ≠ .done) (hnew : p ≠ .done)
    (hid : ∀ k, p = .updated k ∨ p = .decoding k → s.phase i = .updated k)
    (hun : p = .unlocked → i ≤ s.window.tailImageId)
    (hr : ∀ j k, s'.phase j = .decoding k → j ∈ s'.readers) : DecoderInv head s' where
  window := by
    have hdone : (fun id => s'.phase id = .done) = fun id => s.phase id = .done := by
      funext id
      rw [hp, Function.update_apply]
      split
      · rename_i he
        subst he
        simp [hold, hnew]
      · rfl
    rw [hw, hdone]
    exact h.window
  winId := by
    intro j k hj
    rw [hp, Function.update_apply] at hj
    rw [hw]
    split at hj
    · rename_i he
      subst he
      exact h.winId j k (.inl (hid k hj))
    · exact h.winId j k hj
  unlocked_le := by
    intro j hj
    rw [hp, Function.update_apply] at hj
    rw [hw]
    split at hj
    · rename_i he
      subst he
      exact hun hj
    · exact h.unlocked_le j hj
  mem_readers := hr

/-- The window only moves on, and what is done stays done. -/
structure Advances (s s' : DecoderState) : Prop where
  headId_le : s.window.headId ≤ s'.window.headId
  tail_le : s.window.tailImageId ≤ s'.window.tailImageId
  done : ∀ id, s.phase id = .done → s'.phase id = .done

/-- What a step may come to: a wait or a new state. -/
def StepOk (head : Nat → Nat) (s : DecoderState) (run : Except Stop DecoderState) : Prop :=
  run = .error .blocked ∨ ∃ s', run = .ok s' ∧ DecoderInv head s' ∧ Advances s s'

theorem DecoderInv.headId_le_of_not_done (h : DecoderInv head s) (hi : s.phase i ≠ .done) :
    s.window.headId ≤ i := by
  obtain ⟨front, hw⟩ := h.window
  have := hw.headId_le
  by_contra hlt
  exact hi (hw.done_lt i (by omega))

/-- The windows that differ from the one of `s` in their capacity and in the place of the head, and
in which the decoders find their images. -/
structure Replaces (head : Nat → Nat) (s : DecoderState) (w : GlzDecoderWindow) : Prop where
  inv : ∃ front, WindowInv head (fun id => s.phase id = .done) w front
  headId_eq : w.headId = s.window.headId
  tail_le : s.window.tailImageId ≤ w.tailImageId
  winId : ∀ i k, s.phase i = .updated k ∨ s.phase i = .decoding k →
    k = slot w.imagesCapacity w.headIdx (i - w.headId)

theorem DecoderInv.replaces_realloc (h : DecoderInv head s) (hgap : NoReallocInGap s (.update i))
    (hblock : ¬(s.window.calcReallocSize i ≠ 0 ∧ s.readers ≠ [])) :
    Replaces head s (if s.window.calcReallocSize i ≠ 0 then
      s.window.realloc (s.window.calcReallocSize i) else s.window) := by
  obtain ⟨front, hw⟩ := h.window
  split
  · rename_i hs
    have hi : s.window.tailImageId < i := by
      by_contra hle
      exact hs (if_pos (Nat.not_lt.mp hle))
    have hroom := (calcReallocSize_spec hw.n_pos hi).2 hs
    refine ⟨⟨front, hw.realloc (by omega)⟩, rfl, le_rfl, fun j k hj => ?_⟩
    obtain hj | hj := hj
    · exact absurd hj (hgap.2 hs j k)
    · have hmem := h.mem_readers j k hj
      rw [not_not.mp fun hne => hblock ⟨hs, hne⟩] at hmem
      cases hmem
  · exact ⟨⟨front, hw⟩, rfl, le_rfl, fun j k hj => (h.winId j k hj).2⟩

theorem Replaces.add {w : GlzDecoderWindow} (h : Replaces head s w)
    (hroom : w.tailImageId < i → i - w.tailImageId + w.nImages < w.imagesCapacity) :
    ∃ w', (if i > w.tailImageId then w.addPreDecodedImage i else .ok w) = .ok w' ∧
      Replaces head s w' ∧ i ≤ w'.tailImageId := by
  obtain ⟨front, hw⟩ := h.inv
  split
  · rename_i hi
    obtain ⟨w', he, hw', hid, htail, hidx, hcap, -⟩ := hw.addPreDecodedImage hi (hroom hi)
    have htl := h.tail_le
    refine ⟨w', he, ⟨⟨front, hw'⟩, hid.trans h.headId_eq, by omega, fun j k hj => ?_⟩, by omega⟩
    rw [hcap, hidx, hid]
    exact h.winId j k hj
  · exact ⟨w, rfl, h, by omega⟩

theorem Replaces.advances {w : GlzDecoderWindow} {p : Phase} (h : Replaces head s w)
    (hp : s.phase i = .entered) : Advances s (({ s with window := w } : DecoderState).setPhase i p) where
  headId_le := h.headId_eq.ge
  tail_le := h.tail_le
  done := by
    intro id hd
    have hne : id ≠ i := by
      rintro rfl
      rw [hp] at hd
      cases hd
    exact (Function.update_of_ne hne _ _).trans hd

theorem Replaces.inv_setPhase {w : GlzDecoderWindow} (h : Replaces head s w) (hinv : DecoderInv head s)
    (hp : s.phase i = .entered) (hi : i ≤ w.tailImageId) :
    DecoderInv head (({ s with window := w } : DecoderState).setPhase i (.updated (w.calcImageWinIdx i))) := by
  obtain ⟨front, hw⟩ := h.inv
  have hid : w.headId ≤ i := by
    rw [h.headId_eq]
    exact hinv.headId_le_of_not_done (by rw [hp]; simp)
  have hother : ∀ j, j ≠ i → Function.update s.phase i (.updated (w.calcImageWinIdx i)) j = s.phase j :=
    fun j hj => Function.update_of_ne hj _ _
  constructor
  · refine ⟨front, ?_⟩
    have hdone : (fun id => Function.update s.phase i (.updated (w.calcImageWinIdx i)) id = .done) =
        fun id => s.phase id = .done := by
      funext id
      by_cases hj : id = i
      · subst hj
        simp [hp]
      · rw [hother id hj]
    change WindowInv head (fun id => Function.update s.phase i _ id = .done) w front
    rw [hdone]
    exact hw
  · intro j k hj
    change Function.update s.phase i _ j = _ ∨ Function.update s.phase i _ j = _ at hj
    change j ≤ w.tailImageId ∧ k = slot w.imagesCapacity w.headIdx (j - w.headId)
    by_cases he : j = i
    · subst he
      simp only [Function.update_self, Phase.updated.injEq, reduceCtorEq, or_false] at hj
      exact ⟨hi, by rw [← hj, hw.calc_eq hid hi]⟩
    · rw [hother j he] at hj
      exact ⟨(hinv.winId j k hj).1.trans h.tail_le, h.winId j k hj⟩
  · intro j hj
    change Function.update s.phase i _ j = _ at hj
    by_cases he : j = i
    · subst he
      simp at hj
    · rw [hother j he] at hj
      exact (hinv.unlocked_le j hj).trans h.tail_le
  · intro j k hj
    change Function.update s.phase i _ j = _ at hj
    by_cases he : j = i
    · subst he
      simp at hj
    · rw [hother j he] at hj
      exact hinv.mem_readers j k hj

theorem DecoderInv.update (h : DecoderInv head s) (hp : s.phase i = .entered)
    (hgap : NoReallocInGap s (.update i)) : StepOk head s (s.preDecodeUpdateWindow i) := by
  unfold DecoderState.preDecodeUpdateWindow
  have hlarge : ¬s.window.calcReallocSize i > 2 ^ 30 := Nat.not_lt.mpr hgap.1
  by_cases hblock : s.window.calcReallocSize i ≠ 0 ∧ s.readers ≠ []
  · exact .inl (by simp only [if_neg hlarge, if_pos hblock]; rfl)
  simp only [if_neg hlarge, if_neg hblock]
  have hr := h.replaces_realloc hgap hblock
  have hroom : ∀ w, w = (if s.window.calcReallocSize i ≠ 0 then
      s.window.realloc (s.window.calcReallocSize i) else s.window) → w.tailImageId < i →
      i - w.tailImageId + w.nImages < w.imagesCapacity := by
    rintro w rfl hi
    obtain ⟨front, hw⟩ := h.window
    split at hi
    · rename_i hs
      rw [if_pos hs]
      exact (calcReallocSize_spec hw.n_pos hi).2 hs
    · rename_i hs
      rw [if_neg hs]
      exact (calcReallocSize_spec hw.n_pos hi).1 (not_not.mp hs)
  obtain ⟨w', he, hr', hi⟩ := hr.add (hroom _ rfl)
  refine .inr ⟨({ s with window := w' } : DecoderState).setPhase i
    (.updated (w'.calcImageWinIdx i)), ?_, hr'.inv_setPhase h hp hi, hr'.advances hp⟩
  rw [he]
  rfl

theorem Advances.setPhase {p : Phase} (hw : s'.window = s.window)
    (hp : s'.phase = Function.update s.phase i p) (hold : s.phase i ≠ .done) : Advances s s' where
  headId_le := by rw [hw]
  tail_le := by rw [hw]
  done := by
    intro id hd
    have hne : id ≠ i := by
      rintro rfl
      exact hold hd
    rw [hp, Function.update_of_ne hne, hd]

theorem DecoderInv.enter (h : DecoderInv head s) : StepOk head s (s.step head (.enter i)) := by
  rw [DecoderState.step]
  split
  · rename_i hp
    split
    · exact .inl rfl
    · refine .inr ⟨_, rfl, ?_, ?_⟩
      · refine h.setPhase rfl rfl (by rw [hp]; simp) (by simp) (by simp) (by simp) fun j k hj => ?_
        change Function.update s.phase i _ j = _ at hj
        rw [Function.update_apply] at hj
        split at hj
        · cases hj
        · exact h.mem_readers j k hj
      · exact Advances.setPhase rfl rfl (by rw [hp]; simp)
  · exact .inl rfl

theorem DecoderInv.finalize (h : DecoderInv head s) : StepOk head s (s.step head (.finalize i)) := by
  rw [DecoderState.step]
  split
  · rename_i k hp
    refine .inr ⟨_, rfl, ?_, ?_⟩
    · refine h.setPhase rfl rfl (by rw [hp]; simp) (by simp) ?_ (by simp) fun j k' hj => ?_
      · intro k' hk
        simpa [hp] using hk
      · change Function.update s.phase i _ j = _ at hj
        rw [Function.update_apply] at hj
        split at hj
        · rename_i he
          exact List.mem_cons.mpr (.inl he)
        · exact List.mem_cons_of_mem _ (h.mem_readers j k' hj)
    · exact Advances.setPhase rfl rfl (by rw [hp]; simp)
  · exact .inl rfl

theorem DecoderInv.unlock (h : DecoderInv head s) : StepOk head s (s.step head (.unlock i)) := by
  rw [DecoderState.step]
  split
  · rename_i k hp
    refine .inr ⟨_, rfl, ?_, ?_⟩
    · refine h.setPhase rfl rfl (by rw [hp]; simp) (by simp) (by simp) ?_ fun j k' hj => ?_
      · exact fun _ => (h.winId i k (.inr hp)).1
      · change Function.update s.phase i _ j = _ at hj
        rw [Function.update_apply] at hj
        split at hj
        · cases hj
        · rename_i he
          exact (List.mem_erase_of_ne he).mpr (h.mem_readers j k' hj)
    · exact Advances.setPhase rfl rfl (by rw [hp]; simp)
  · exact .inl rfl

theorem DecoderInv.post (hmono : Monotone head) (hle : ∀ i, head i ≤ i) (h : DecoderInv head s)
    (hp : s.phase i = .unlocked) : StepOk head s (s.postDecodeUpdateWindow ⟨i, head i⟩) := by
  obtain ⟨front, hw⟩ := h.window
  have hother : ∀ j, j ≠ i → Function.update s.phase i .done j = s.phase j :=
    fun j hj => Function.update_of_ne hj _ _
  have hdone : ∀ id, Function.update s.phase i .done id = .done ↔ s.phase id = .done ∨ id = i := by
    intro id
    by_cases he : id = i
    · subst he
      simp
    · simp [he]
  obtain ⟨w₁, w', he₁, he', ⟨front', hw', hfront⟩, hhead, htail, hcap, hidx⟩ :=
    hw.post hmono hle (h.unlocked_le i hp) (by rw [hp]; simp) hdone
  refine .inr ⟨({ s with window := w' } : DecoderState).setPhase i .done, ?_, ?_, ?_⟩
  · rw [DecoderState.postDecodeUpdateWindow, he₁]
    change (do
      let w ← w₁.narrowWindow ⟨i, head i⟩
      pure (DecoderState.setPhase { s with window := w } i .done)) = _
    rw [he']
    rfl
  · constructor
    · exact ⟨front', hw'⟩
    · intro j k hj
      change Function.update s.phase i _ j = _ ∨ Function.update s.phase i _ j = _ at hj
      change j ≤ w'.tailImageId ∧ k = slot w'.imagesCapacity w'.headIdx (j - w'.headId)
      have hne : j ≠ i := by
        rintro rfl
        simp at hj
      rw [hother j hne] at hj
      obtain ⟨hj₁, hj₂⟩ := h.winId j k hj
      -- a decoder that is not done keeps its image behind the head
      have hjhead : w'.headId ≤ j := by
        have hnd : s.phase j ≠ .done := by rcases hj with hj | hj <;> simp [hj]
        have := hw'.headId_le
        by_contra hlt
        have := hw'.done_lt j (by omega)
        rw [hother j hne] at this
        exact hnd this
      refine ⟨by omega, ?_⟩
      rw [hcap, hidx, slot_slot, hj₂]
      congr 1
      omega
    · intro j hj
      change Function.update s.phase i _ j = _ at hj
      have hne : j ≠ i := by
        rintro rfl
        simp at hj
      rw [hother j hne] at hj
      change j ≤ w'.tailImageId
      rw [htail]
      exact h.unlocked_le j hj
    · intro j k hj
      change Function.update s.phase i _ j = _ at hj
      have hne : j ≠ i := by
        rintro rfl
        simp at hj
      rw [hother j hne] at hj
      exact h.mem_readers j k hj
  · exact ⟨hhead, htail.ge, fun id hd => (hdone id).mpr (.inl hd)⟩

theorem DecoderInv.step (hmono : Monotone head) (hle : ∀ i, head i ≤ i) (h : DecoderInv head s)
    {a : DecoderAction} (ha : NoReallocInGap s a) : StepOk head s (s.step head a) := by
  cases a with
  | enter i => exact h.enter
  | update i =>
    rw [DecoderState.step]
    split
    · rename_i hp
      exact h.update hp ha
    · exact .inl rfl
  | finalize i => exact h.finalize
  | unlock i => exact h.unlock
  | post i =>
    rw [DecoderState.step]
    split
    · rename_i hp
      exact h.post hmono hle hp
    · exact .inl rfl

/-- What the decoders rely on: the list of missing images, the places of the images and of those
that a decoder refers to, the room in the array, and the images that are still needed. -/
structure Safe (head : Nat → Nat) (s : DecoderState) : Prop where
  missing_lt : s.window.missingList.Pairwise (· < ·)
  front_missing : ∀ front, s.window.missingList.head? = some front →
    s.phase front ≠ .done ∧ s.window.images (s.window.calcImageWinIdx front) = none
  own_slot : ∀ id id', s.window.headId ≤ id → id ≤ s.window.tailImageId → s.window.headId ≤ id' →
    id' ≤ s.window.tailImageId → s.window.calcImageWinIdx id = s.window.calcImageWinIdx id' → id = id'
  image_eq : ∀ id, s.window.headId ≤ id → id ≤ s.window.tailImageId →
    s.window.images (s.window.calcImageWinIdx id) =
      if s.phase id = .done then some ⟨id, head id⟩ else none
  ref_eq : ∀ i k d, s.phase i = .decoding k → 0 < d → d ≤ i → head i ≤ i - d →
    s.window.headId ≤ i - d ∧ i - d ≤ s.window.tailImageId ∧
      s.window.refImageIndex k d = s.window.calcImageWinIdx (i - d)
  nImages_le : s.window.nImages ≤ s.window.imagesCapacity
  headId_le_head : ∀ id, id ∈ s.window.missingList ∨ s.phase id ≠ .done → s.window.headId ≤ head id

/-- The head and the tail never go back, and an image that is still in the window is found again. -/
structure Keeps (s s' : DecoderState) : Prop where
  headId_le : s.window.headId ≤ s'.window.headId
  tail_le : s.window.tailImageId ≤ s'.window.tailImageId
  image_eq : ∀ id image, s'.window.headId ≤ id → id ≤ s.window.tailImageId →
    s.window.images (s.window.calcImageWinIdx id) = some image →
    s'.window.images (s'.window.calcImageWinIdx id) = some image

theorem DecoderInv.safe (hmono : Monotone head) (h : DecoderInv head s) : Safe head s := by
  obtain ⟨front, hw⟩ := h.window
  have hhead : ∀ id, front ≤ id → s.window.headId ≤ head id :=
    fun id hid => hw.headId_le_head.trans (hmono hid)
  have hfront : ∀ id, s.phase id ≠ .done → front ≤ id := by
    intro id hid
    by_contra hlt
    exact hid (hw.done_lt id (by omega))
  constructor
  · rw [hw.missing_eq]
    exact List.pairwise_lt_range'
  · intro f hf
    rw [hw.missing_eq, List.head?_range'] at hf
    split at hf
    · cases hf
    · obtain rfl := Option.some.inj hf
      exact ⟨hw.not_done, hw.image_of_not_done hw.headId_le (by omega) hw.not_done⟩
  · intro id id' h₁ h₂ h₁' h₂' he
    rw [hw.calc_eq h₁ h₂, hw.calc_eq h₁' h₂'] at he
    have := slot_inj (hw.offset_lt h₁ h₂) (hw.offset_lt h₁' h₂') he
    omega
  · intro id h₁ h₂
    split
    · rename_i hd
      exact hw.image_of_done h₁ hd
    · rename_i hd
      exact hw.image_of_not_done h₁ h₂ hd
  · intro i k d hp hd hdi hle
    obtain ⟨hi, rfl⟩ := h.winId i k (.inr hp)
    have hlow := (hhead i (hfront i (by rw [hp]; simp))).trans hle
    refine ⟨hlow, by omega, ?_⟩
    have hoff := hw.offset_lt (show s.window.headId ≤ i by omega) hi
    rw [refImageIndex, slot_sub (Nat.zero_lt_of_lt hoff) (by omega) hoff, hw.calc_eq hlow (by omega)]
    congr 1
    omega
  · exact hw.n_lt.le
  · rintro id (hm | hd)
    · rw [hw.missing_eq, List.mem_range'_1] at hm
      exact hhead id hm.1
    · exact hhead id (hfront id hd)

theorem DecoderInv.keeps (hmono : Monotone head) (h : DecoderInv head s) (h' : DecoderInv head s')
    (ha : Advances s s') : Keeps s s' where
  headId_le := ha.headId_le
  tail_le := ha.tail_le
  image_eq := by
    intro id image h₁ h₂ he
    rw [(h.safe hmono).image_eq id (ha.headId_le.trans h₁) h₂] at he
    split at he
    · rename_i hd
      rw [(h'.safe hmono).image_eq id h₁ (h₂.trans ha.tail_le), if_pos (ha.done id hd), he]
    · cases he

/-- The states of the runs whose steps meet the condition. -/
def Runs (head : Nat → Nat) (ok : DecoderState → DecoderAction → Prop) : DecoderState → Prop :=
  Reachable (fun s a s' => s.step head a = .ok s') ok .new

theorem Runs.decoderInv (hmono : Monotone head) (hle : ∀ i, head i ≤ i)
    (h : Runs head NoReallocInGap s) : DecoderInv head s := by
  refine Reachable.invariant (DecoderInv head) h (new_decoderInv hle) fun s a s' hs ha he => ?_
  obtain hb | ⟨s₁, he₁, hs₁, -⟩ := hs.step hmono hle ha
  · rw [hb] at he
    cases he
  · rw [he] at he₁
    cases he₁
    exact hs₁

end Decoder

/-- In a run in which no array is reallocated between the two halves of a `pre_decode` the window is
safe, and a step waits or keeps the images that are still in the window. -/
theorem runs_safe (head : Nat → Nat) (hmono : Monotone head) (hle : ∀ i, head i ≤ i)
    (s : DecoderState) (h : Runs head NoReallocInGap s) :
    Safe head s ∧ ∀ a, NoReallocInGap s a →
      s.step head a = .error .blocked ∨ ∃ s', s.step head a = .ok s' ∧ Keeps s s' := by
  have hinv := h.decoderInv hmono hle
  refine ⟨hinv.safe hmono, fun a ha => ?_⟩
  obtain hb | ⟨s', he, hs', hadv⟩ := hinv.step hmono hle ha
  · exact .inl hb
  · exact .inr ⟨s', he, hinv.keeps hmono hs' hadv⟩

/-- A run of given actions, as far as its steps pass the check. -/
def checkedRun (head : Nat → Nat) (check : DecoderState → DecoderAction → Bool) :
    List DecoderAction → Except Stop DecoderState :=
  List.foldlM (fun s a => if check s a then s.step head a else .error .blocked) DecoderState.new

theorem runs_of_checkedRun {head : Nat → Nat} {ok : DecoderState → DecoderAction → Prop}
    {check : DecoderState → DecoderAction → Bool} {as : List DecoderAction} {s : DecoderState}
    (hck : ∀ s a, check s a → ok s a) (he : checkedRun head check as = .ok s) : Runs head ok s := by
  rw [checkedRun] at he
  have hinit : Runs head ok DecoderState.new := .init
  revert he hinit
  generalize DecoderState.new = s₀
  induction as generalizing s₀ with
  | nil =>
    intro he h
    cases he
    exact h
  | cons a as ih =>
    intro he h
    rw [List.foldlM_cons] at he
    split at he
    · rename_i hc
      cases hs : s₀.step head a with
      | error e =>
        rw [hs] at he
        cases he
      | ok s₁ =>
        rw [hs] at he
        exact ih s₁ he (.step h (hck s₀ a hc) hs)
    · cases he

def noRealloc (s : DecoderState) : DecoderAction → Bool
  | .update i => s.window.calcReallocSize i == 0
  | _ => true

theorem noReallocInGap_of_noRealloc (s : DecoderState) (a : DecoderAction) (h : noRealloc s a) :
    NoReallocInGap s a := by
  cases a with
  | update i =>
    have h0 : s.window.calcReallocSize i = 0 := by simpa [noRealloc] using h
    exact ⟨by omega, fun hne => absurd h0 hne⟩
  | _ => trivial

/-- Image 1 is decoded while image 0, which it refers to, is still missing. -/
theorem runs_safe_one : ∃ s, Runs (fun _ => 0) NoReallocInGap s ∧ s.phase 1 = .decoding 1 ∧
    s.window.refImageIndex 1 1 = s.window.calcImageWinIdx 0 ∧
    s.window.images (s.window.calcImageWinIdx 0) = none := by
  have hrun : (match checkedRun (fun _ => 0) noRealloc [.enter 1, .update 1, .enter 0, .update 0,
      .finalize 1] with
    | .ok s => decide (s.phase 1 = .decoding 1 ∧ s.phase 0 ≠ .done ∧ s.window.headId = 0)
    | .error _ => false) = true := by decide +kernel
  split at hrun
  · rename_i s hs
    obtain ⟨hp, hd, hid⟩ := of_decide_eq_true hrun
    have h := runs_of_checkedRun noReallocInGap_of_noRealloc hs
    obtain ⟨hsafe, -⟩ := runs_safe _ monotone_const (fun i => Nat.zero_le i) s h
    obtain ⟨hle, htail, href⟩ := hsafe.ref_eq 1 1 1 hp Nat.one_pos le_rfl le_rfl
    exact ⟨s, h, hp, href, by rw [hsafe.image_eq 0 hle htail, if_neg hd]⟩
  · cases hrun

/-- Images 0 and 1 are decoded, and image 1 moves the head. The decoder of image 2 has its place in
the array when that of image 70 reallocates it, and it then looks for image 1 in its own place. -/
theorem realloc_in_gap_not_safe : ¬∀ head : Nat → Nat, Monotone head → (∀ i, head i ≤ i) →
    ∀ s, Runs head (fun _ _ => True) s → Safe head s := by
  intro hall
  have hmono : Monotone fun i : Nat => min i 1 := fun i j hij => min_le_min_right 1 hij
  have hrun : (match checkedRun (fun i => min i 1) (fun _ _ => true) [.enter 0, .update 0,
      .finalize 0, .unlock 0, .post 0, .enter 1, .update 1, .finalize 1, .unlock 1, .post 1,
      .enter 2, .update 2, .enter 70, .update 70, .finalize 2] with
    | .ok s => decide (s.phase 2 = .decoding 2 ∧ s.window.refImageIndex 2 1 = 1 ∧
        s.window.calcImageWinIdx 1 = 0)
    | .error _ => false) = true := by decide +kernel
  split at hrun
  · rename_i s hs
    obtain ⟨hp, href, hcalc⟩ := of_decide_eq_true hrun
    have hsafe := hall _ hmono (fun i => min_le_left i 1) s
      (runs_of_checkedRun (fun _ _ _ => trivial) hs)
    have := (hsafe.ref_eq 2 2 1 hp (by decide) (by decide) (by decide)).2.2
    rw [href, hcalc] at this
    cases this
  · cases hrun

end Colama.Spice.Glz

import Mathlib.Tactic

namespace Colama.Lib

variable {α : Type*}

/-- A stream of frames, each a head of fixed length that says how long the body behind it is. -/
structure FrameFormat (α : Type*) where
  headLen : Nat
  size : List α → Nat
  headLen_pos : 0 < headLen

namespace FrameFormat

variable (F : FrameFormat α)

/-- The length of the first frame. -/
def frameLen (s : List α) : Nat := F.headLen + F.size (s.take F.headLen)

/-- The first frame is there to its end. -/
def Complete (s : List α) : Prop := F.headLen ≤ s.length ∧ F.frameLen s ≤ s.length

instance (s : List α) : Decidable (F.Complete s) := inferInstanceAs (Decidable (_ ∧ _))

def frames (s : List α) : List (List α × List α) :=
  if F.Complete s then
    (s.take F.headLen, (s.drop F.headLen).take (F.size (s.take F.headLen))) ::
      frames (s.drop (F.frameLen s))
  else []
termination_by s.length
decreasing_by
  rename_i h
  have := F.headLen_pos
  obtain ⟨h₁, -⟩ := h
  rw [List.length_drop, frameLen]
  omega

/-- What is left of a stream behind its complete frames. -/
def leftover (s : List α) : List α :=
  if F.Complete s then leftover (s.drop (F.frameLen s)) else s
termination_by s.length
decreasing_by
  rename_i h
  have := F.headLen_pos
  obtain ⟨h₁, -⟩ := h
  rw [List.length_drop, frameLen]
  omega

variable {F} {s t head body : List α}

theorem frames_of_not_complete (h : ¬ F.Complete s) : F.frames s = [] := by
  rw [frames, if_neg h]

theorem leftover_of_not_complete (h : ¬ F.Complete s) : F.leftover s = s := by
  rw [leftover, if_neg h]

theorem frameLen_append (hhead : head.length = F.headLen) (t : List α) :
    F.frameLen (head ++ t) = F.headLen + F.size head := by
  rw [frameLen, ← hhead, List.take_left]

theorem complete_frame (hhead : head.length = F.headLen) (hbody : body.length = F.size head)
    (t : List α) : F.Complete (head ++ (body ++ t)) := by
  refine ⟨?_, ?_⟩
  · rw [List.length_append]
    omega
  · rw [frameLen_append hhead, List.length_append, List.length_append]
    omega

theorem drop_frame (hhead : head.length = F.headLen) (hbody : body.length = F.size head)
    (t : List α) : (head ++ (body ++ t)).drop (F.frameLen (head ++ (body ++ t))) = t := by
  rw [frameLen_append hhead, ← hhead, ← hbody, ← List.drop_drop, List.drop_left, List.drop_left]

theorem frames_frame (hhead : head.length = F.headLen) (hbody : body.length = F.size head)
    (t : List α) : F.frames (head ++ (body ++ t)) = (head, body) :: F.frames t := by
  rw [frames, if_pos (complete_frame hhead hbody t), drop_frame hhead hbody, ← hhead, List.take_left,
    List.drop_left, ← hbody, List.take_left]

theorem leftover_frame (hhead : head.length = F.headLen) (hbody : body.length = F.size head)
    (t : List α) : F.leftover (head ++ (body ++ t)) = F.leftover t := by
  rw [leftover, if_pos (complete_frame hhead hbody t), drop_frame hhead hbody]

/-- A complete stream is a frame and what comes behind it. -/
theorem Complete.split (h : F.Complete s) : ∃ head body t, s = head ++ (body ++ t) ∧
    head.length = F.headLen ∧ body.length = F.size head := by
  obtain ⟨h₁, h₂⟩ := h
  rw [frameLen] at h₂
  refine ⟨s.take F.headLen, (s.drop F.headLen).take (F.size (s.take F.headLen)),
    (s.drop F.headLen).drop (F.size (s.take F.headLen)), ?_, ?_, ?_⟩
  · rw [List.take_append_drop, List.take_append_drop]
  · rw [List.length_take]
    omega
  · rw [List.length_take, List.length_drop]
    omega

/-- Reading a stream in two parts, the second behind what the first left over. -/
theorem frames_append (F : FrameFormat α) (s t : List α) :
    F.frames (s ++ t) = F.frames s ++ F.frames (F.leftover s ++ t) ∧
      F.leftover (s ++ t) = F.leftover (F.leftover s ++ t) := by
  induction h : s.length using Nat.strong_induction_on generalizing s with
  | _ n ih =>
    by_cases hc : F.Complete s
    · obtain ⟨head, body, u, rfl, hhead, hbody⟩ := hc.split
      have hpos := F.headLen_pos
      have hlt : u.length < n := by
        rw [← h, List.length_append, List.length_append]
        omega
      obtain ⟨h₁, h₂⟩ := ih u.length hlt u rfl
      rw [List.append_assoc, List.append_assoc, frames_frame hhead hbody, frames_frame hhead hbody,
        leftover_frame hhead hbody, leftover_frame hhead hbody, h₁, h₂]
      exact ⟨rfl, rfl⟩
    · rw [frames_of_not_complete hc, leftover_of_not_complete hc]
      exact ⟨rfl, rfl⟩

end FrameFormat

end Colama.Lib

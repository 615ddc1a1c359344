import Mathlib.Data.List.TakeWhile
import Mathlib.Tactic

namespace Colama.Xvnc

variable {β : Type*} (top : β → Int)

/-- The loop of `rfbSendCopyRegion` over the bands of rectangles with the same top, each of them gone
through in the direction of the bands if `along` and against it otherwise. -/
def copyOrder (along : Bool) : List β → List β
  | [] => []
  | box :: boxes =>
    let band := box :: boxes.takeWhile fun b => top b = top box
    (if along then band else band.reverse) ++ copyOrder along (boxes.dropWhile fun b => top b = top box)
termination_by boxes => boxes.length
decreasing_by
  exact Nat.lt_succ_of_le (List.dropWhile_suffix _).length_le

/-- The rectangles of the region in the order in which they are copied by `dx`, `dy`. -/
def rfbSendCopyRegion (boxes : List β) (dx dy : Int) : List β :=
  copyOrder top (decide (dx ≤ 0) == decide (dy ≤ 0)) (if dy ≤ 0 then boxes else boxes.reverse)

theorem copyOrder_perm (along : Bool) (boxes : List β) : (copyOrder top along boxes).Perm boxes := by
  fun_induction copyOrder top along boxes with
  | case1 => exact List.Perm.refl _
  | case2 box boxes band ih =>
    have hband : (if along then band else band.reverse).Perm band := by
      split
      · exact List.Perm.refl _
      · exact List.reverse_perm band
    refine (hband.append ih).trans ?_
    rw [List.cons_append, List.takeWhile_append_dropWhile]

theorem rfbSendCopyRegion_perm (boxes : List β) (dx dy : Int) :
    (rfbSendCopyRegion top boxes dx dy).Perm boxes := by
  unfold rfbSendCopyRegion
  split
  · exact copyOrder_perm top _ boxes
  · exact (copyOrder_perm top _ _).trans (List.reverse_perm boxes)

/-- Between bands the order is kept, and within one it is kept or turned around. -/
theorem copyOrder_pairwise {R : β → β → Prop} (along : Bool) (σ : Int) (hσ : σ ≠ 0) {boxes : List β}
    (hmono : boxes.Pairwise fun b c => σ * top b ≤ σ * top c)
    (hbetween : boxes.Pairwise fun b c => top b ≠ top c → R b c)
    (hwithin : boxes.Pairwise fun b c => top b = top c → if along then R b c else R c b) :
    (copyOrder top along boxes).Pairwise R := by
  fun_induction copyOrder top along boxes with
  | case1 => exact List.Pairwise.nil
  | case2 box boxes band ih =>
    have hsplit : band ++ boxes.dropWhile (fun b => top b = top box) = box :: boxes := by
      rw [List.cons_append, List.takeWhile_append_dropWhile]
    rw [← hsplit] at hmono hbetween hwithin
    have hmono' := List.pairwise_append.mp hmono
    have hbetween' := List.pairwise_append.mp hbetween
    have hwithin' := List.pairwise_append.mp hwithin
    have htop : ∀ b ∈ band, top b = top box := by
      intro b hb
      rcases List.mem_cons.mp hb with rfl | hb
      · rfl
      · simpa using List.mem_takeWhile_imp hb
    have hrest : ∀ c ∈ boxes.dropWhile (fun b => top b = top box), top c ≠ top box := by
      intro c hc heq
      cases hdrop : boxes.dropWhile (fun b => top b = top box) with
      | nil => simp [hdrop] at hc
      | cons d ds =>
        have hd : top d ≠ top box := by
          have hnot := List.head_dropWhile_not (fun b => decide (top b = top box)) (by simp [hdrop] :
            boxes.dropWhile (fun b => decide (top b = top box)) ≠ [])
          simpa [hdrop] using hnot
        rw [hdrop] at hc hmono'
        have hle := hmono'.2.2 box List.mem_cons_self d List.mem_cons_self
        rcases List.mem_cons.mp hc with rfl | hc
        · exact hd heq
        · have hle' := (List.pairwise_cons.mp hmono'.2.1).1 c hc
          rw [heq] at hle'
          exact hd (Int.eq_of_mul_eq_mul_left hσ (le_antisymm hle' hle))
    rw [List.pairwise_append]
    refine ⟨?_, ih hmono'.2.1 hbetween'.2.1 hwithin'.2.1, ?_⟩
    · have hin : band.Pairwise fun b c => if along then R b c else R c b :=
        hwithin'.1.imp_of_mem fun hb hc h => h ((htop _ hb).trans (htop _ hc).symm)
      cases along with
      | true => exact hin
      | false => exact List.pairwise_reverse.mpr hin
    · intro b hb c hc
      have hb' : b ∈ band := by
        split at hb
        · exact hb
        · exact List.mem_reverse.mp hb
      have hc' := (copyOrder_perm top along _).mem_iff.mp hc
      apply hbetween'.2.2 b hb' c hc'
      rw [htop b hb']
      exact (hrest c hc').symm

end Colama.Xvnc

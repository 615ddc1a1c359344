import Colama.Xvnc.ViewSpec

namespace Colama.Xvnc

/-- A CopyRect rectangle as it is sent. -/
structure CopyRectMsg where
  x : Int
  y : Int
  w : Int
  h : Int
  srcX : Int
  srcY : Int

/-- `REGION_RECTS(reg)[i]`. There is no result outside of the array. -/
def regionRect (rects : List BoxRec) (i : Int) : Option BoxRec := if i < 0 then none else rects[i.toNat]?

/-- The first inner loop: `firstInNextBand`, `nrects` and `nrectsInBand` after it. -/
def findBand (rects : List BoxRec) (yInc thisRect : Int) : (nrects : Nat) → (firstInNextBand : Int) →
    (nrectsInBand : Nat) → Option (Int × Nat × Nat)
  | 0, firstInNextBand, nrectsInBand => some (firstInNextBand, 0, nrectsInBand)
  | nrects + 1, firstInNextBand, nrectsInBand => do
    let next ← regionRect rects firstInNextBand
    let this ← regionRect rects thisRect
    if next.y1 = this.y1 then findBand rects yInc thisRect nrects (firstInNextBand + yInc) (nrectsInBand + 1)
    else some (firstInNextBand, nrects + 1, nrectsInBand)

/-- The second inner loop. -/
def sendBand (rects : List BoxRec) (xInc dx dy : Int) : (nrectsInBand : Nat) → (thisRect : Int) →
    Option (List CopyRectMsg)
  | 0, _ => some []
  | nrectsInBand + 1, thisRect => do
    let rect ← regionRect rects thisRect
    let rest ← sendBand rects xInc dx dy nrectsInBand (thisRect + xInc)
    some ({ x := rect.x1, y := rect.y1, w := rect.x2 - rect.x1, h := rect.y2 - rect.y1
            srcX := rect.x1 - dx, srcY := rect.y1 - dy } :: rest)

/-- The outer loop, for at most `fuel` bands. -/
def sendBands (rects : List BoxRec) (xInc yInc dx dy : Int) : (fuel nrects : Nat) → (thisRect : Int) →
    Option (List CopyRectMsg)
  | _, 0, _ => some []
  | 0, _ + 1, _ => none
  | fuel + 1, nrects + 1, thisRect => do
    let (firstInNextBand, left, nrectsInBand) ← findBand rects yInc thisRect (nrects + 1) thisRect 0
    let thisRect := if xInc ≠ yInc then firstInNextBand - yInc else thisRect
    let band ← sendBand rects xInc dx dy nrectsInBand thisRect
    let rest ← sendBands rects xInc yInc dx dy fuel left firstInNextBand
    some (band ++ rest)

/-- The rectangles that `rfbSendCopyRegion` sends, without what `updateBuf` does with them. -/
def copyRegionMsgs (rects : List BoxRec) (dx dy : Int) : Option (List CopyRectMsg) :=
  let xInc : Int := if dx ≤ 0 then 1 else -1
  let yInc : Int := if dy ≤ 0 then 1 else -1
  sendBands rects xInc yInc dx dy rects.length rects.length (if dy ≤ 0 then 0 else rects.length - 1)

variable {α : Type*} {rects : List BoxRec} {dx dy : Int}

/-- A correct copy of a rectangle. -/
def CopyRectMsg.apply (picture : Pixel → α) (msg : CopyRectMsg) : Pixel → α := fun p =>
  if (msg.x ≤ p.1 ∧ p.1 < msg.x + msg.w) ∧ (msg.y ≤ p.2 ∧ p.2 < msg.y + msg.h) then
    picture (p.1 - msg.x + msg.srcX, p.2 - msg.y + msg.srcY)
  else picture p

/-- The copy of the whole region at once. -/
def copyWhole (picture : Pixel → α) (rects : List BoxRec) (dx dy : Int) : Pixel → α := fun p =>
  if ∃ rect ∈ rects, rect.Has p then picture (p.1 - dx, p.2 - dy) else picture p

def BoxRec.copyMsg (rect : BoxRec) (dx dy : Int) : CopyRectMsg where
  x := rect.x1
  y := rect.y1
  w := rect.x2 - rect.x1
  h := rect.y2 - rect.y1
  srcX := rect.x1 - dx
  srcY := rect.y1 - dy

/-- The rectangles as they are walked, and the index of one of them. -/
def walk (rects : List BoxRec) (dy : Int) : List BoxRec := if dy ≤ 0 then rects else rects.reverse

def walkIndex (rects : List BoxRec) (dy : Int) (k : Nat) : Int := if dy ≤ 0 then k else rects.length - 1 - k

def incOf (d : Int) : Int := if d ≤ 0 then 1 else -1

theorem walkIndex_succ (rects : List BoxRec) (dy : Int) (k : Nat) :
    walkIndex rects dy (k + 1) = walkIndex rects dy k + incOf dy := by
  unfold walkIndex incOf
  split <;> omega

theorem length_walk (rects : List BoxRec) (dy : Int) : (walk rects dy).length = rects.length := by
  unfold walk
  split
  · rfl
  · exact List.length_reverse

theorem regionRect_walkIndex (rects : List BoxRec) (dy : Int) (k : Nat) :
    regionRect rects (walkIndex rects dy k) = (walk rects dy)[k]? := by
  unfold regionRect walkIndex walk
  by_cases hdy : dy ≤ 0
  · rw [if_pos hdy, if_pos hdy, if_neg (by omega), Int.toNat_natCast]
  · rw [if_neg hdy, if_neg hdy]
    rcases Nat.lt_or_ge k rects.length with hk | hk
    · have hindex : (rects.length - 1 - k : Int).toNat = rects.length - 1 - k := by omega
      rw [if_neg (by omega), hindex, List.getElem?_reverse hk]
    · rw [if_pos (by omega), List.getElem?_eq_none (by rw [List.length_reverse]; exact hk)]

theorem drop_cons {k : Nat} {next : BoxRec} {rest : List BoxRec} (h : (walk rects dy).drop k = next :: rest) :
    (walk rects dy)[k]? = some next ∧ (walk rects dy).drop (k + 1) = rest := by
  constructor
  · rw [← List.head?_drop, h, List.head?_cons]
  · rw [← List.tail_drop, h, List.tail_cons]

/-- The band is found, as far as the rectangles have its top. -/
theorem findBand_eq {this : BoxRec} {k : Nat} (hthis : (walk rects dy)[k]? = some this) {rest : List BoxRec}
    {j : Nat} (hrest : (walk rects dy).drop j = rest) (n : Nat) :
    findBand rects (incOf dy) (walkIndex rects dy k) rest.length (walkIndex rects dy j) n =
      some (walkIndex rects dy (j + (rest.takeWhile fun b => b.y1 = this.y1).length),
        (rest.dropWhile fun b => b.y1 = this.y1).length, n + (rest.takeWhile fun b => b.y1 = this.y1).length) := by
  induction rest generalizing j n with
  | nil => rfl
  | cons next rest ih =>
    obtain ⟨hnext, hdrop⟩ := drop_cons hrest
    rw [List.length_cons, findBand, regionRect_walkIndex, regionRect_walkIndex, hnext, hthis]
    simp only [Option.bind_eq_bind, Option.bind_some]
    by_cases htop : next.y1 = this.y1
    · have htake : (next :: rest).takeWhile (fun b => b.y1 = this.y1) = next :: rest.takeWhile fun b => b.y1 = this.y1 :=
        List.takeWhile_cons_of_pos (decide_eq_true htop)
      have hdrop' : (next :: rest).dropWhile (fun b => b.y1 = this.y1) = rest.dropWhile fun b => b.y1 = this.y1 :=
        List.dropWhile_cons_of_pos (decide_eq_true htop)
      rw [if_pos htop, ← walkIndex_succ, ih hdrop, htake, hdrop', List.length_cons, Nat.add_right_comm, Nat.add_assoc,
        Nat.add_right_comm n, Nat.add_assoc n]
    · have hnot : ¬ (decide (next.y1 = this.y1)) = true := by simpa using htop
      have htake : (next :: rest).takeWhile (fun b => b.y1 = this.y1) = [] := List.takeWhile_cons_of_neg hnot
      have hdrop' : (next :: rest).dropWhile (fun b => b.y1 = this.y1) = next :: rest :=
        List.dropWhile_cons_of_neg hnot
      rw [if_neg htop, htake, hdrop']
      rfl

theorem sendBand_along {n k : Nat} (hn : k + n ≤ (walk rects dy).length) (dx : Int) :
    sendBand rects (incOf dy) dx dy n (walkIndex rects dy k) =
      some ((((walk rects dy).drop k).take n).map fun rect => rect.copyMsg dx dy) := by
  induction n generalizing k with
  | zero => simp [sendBand]
  | succ n ih =>
    have hk : k < (walk rects dy).length := by omega
    rw [sendBand, regionRect_walkIndex, List.getElem?_eq_getElem hk, ← walkIndex_succ, ih (by omega),
      List.drop_eq_getElem_cons hk, List.take_succ_cons, List.map_cons]
    rfl

theorem sendBand_against {n k : Nat} (hn : k + n ≤ (walk rects dy).length) (dx : Int) :
    sendBand rects (-incOf dy) dx dy n (walkIndex rects dy (k + n) - incOf dy) =
      some ((((walk rects dy).drop k).take n).reverse.map fun rect => rect.copyMsg dx dy) := by
  induction n with
  | zero => simp [sendBand]
  | succ n ih =>
    have hlast : k + n < (walk rects dy).length := by omega
    have htake : ((walk rects dy).drop k).take (n + 1) =
        ((walk rects dy).drop k).take n ++ [(walk rects dy)[k + n]] := by
      rw [List.take_add_one, List.getElem?_drop, List.getElem?_eq_getElem hlast]
      rfl
    have hindex : walkIndex rects dy (k + (n + 1)) - incOf dy = walkIndex rects dy (k + n) := by
      rw [← Nat.add_assoc, walkIndex_succ, Int.add_sub_cancel]
    rw [sendBand, hindex, regionRect_walkIndex, List.getElem?_eq_getElem hlast, ← sub_eq_add_neg, ih (by omega),
      htake, List.reverse_append, List.reverse_singleton, List.singleton_append, List.map_cons]
    rfl

/-- The two inner loops take a band, in the direction of the bands or against it. -/
theorem sendBand_eq {n k : Nat} (hn : k + n ≤ (walk rects dy).length) (dx : Int) :
    sendBand rects (incOf dx) dx dy n
        (if incOf dx ≠ incOf dy then walkIndex rects dy (k + n) - incOf dy else walkIndex rects dy k) =
      some ((if decide (dx ≤ 0) == decide (dy ≤ 0) then ((walk rects dy).drop k).take n
        else (((walk rects dy).drop k).take n).reverse).map fun rect => rect.copyMsg dx dy) := by
  by_cases heq : (decide (dx ≤ 0)) = decide (dy ≤ 0)
  · have hinc : incOf dx = incOf dy := by
      unfold incOf
      simp only [decide_eq_decide.mp heq]
    rw [hinc, if_neg (not_not_intro rfl), if_pos (beq_iff_eq.mpr heq)]
    exact sendBand_along hn dx
  · have hinc : incOf dx = -incOf dy := by
      rw [decide_eq_decide] at heq
      unfold incOf
      split <;> split
      · exact absurd ⟨fun _ => ‹_›, fun _ => ‹_›⟩ heq
      · rfl
      · rfl
      · exact absurd ⟨fun h => absurd h ‹_›, fun h => absurd h ‹_›⟩ heq
    have hne : incOf dx ≠ incOf dy := by
      rw [hinc]
      unfold incOf
      split <;> decide
    rw [if_pos hne, if_neg (mt beq_iff_eq.mp heq), hinc]
    exact sendBand_against hn dx

theorem sendBands_eq {fuel k : Nat} (dx : Int) {rest : List BoxRec} (hrest : (walk rects dy).drop k = rest)
    (hfuel : rest.length ≤ fuel) :
    sendBands rects (incOf dx) (incOf dy) dx dy fuel rest.length (walkIndex rects dy k) =
      some ((copyOrder BoxRec.y1 (decide (dx ≤ 0) == decide (dy ≤ 0)) rest).map fun rect => rect.copyMsg dx dy) := by
  fun_induction copyOrder BoxRec.y1 (decide (dx ≤ 0) == decide (dy ≤ 0)) rest generalizing fuel k with
  | case1 => cases fuel <;> rfl
  | case2 this boxes band =>
    rename_i ih
    obtain ⟨fuel, rfl⟩ : ∃ f, fuel = f + 1 := ⟨fuel - 1, by rw [List.length_cons] at hfuel; omega⟩
    obtain ⟨hthis, -⟩ := drop_cons hrest
    have hself : (decide (this.y1 = this.y1)) = true := decide_eq_true rfl
    have hband : (this :: boxes).takeWhile (fun b => b.y1 = this.y1) = band := List.takeWhile_cons_of_pos hself
    have hleft : (this :: boxes).dropWhile (fun b => b.y1 = this.y1) = boxes.dropWhile fun b => b.y1 = this.y1 :=
      List.dropWhile_cons_of_pos hself
    have hsplit : (this :: boxes) = band ++ boxes.dropWhile fun b => b.y1 = this.y1 := by
      rw [← hband, ← hleft, List.takeWhile_append_dropWhile]
    have hlen : k + band.length ≤ (walk rects dy).length := by
      have hdrop := congrArg List.length hrest
      have hall := congrArg List.length hsplit
      rw [List.length_append] at hall
      rw [List.length_drop] at hdrop
      have hpos : 0 < band.length := Nat.succ_pos _
      omega
    have hnext : (walk rects dy).drop (k + band.length) = boxes.dropWhile fun b => b.y1 = this.y1 := by
      rw [← List.drop_drop, hrest, hsplit, List.drop_left]
    have htake : ((walk rects dy).drop k).take band.length = band := by
      rw [hrest, hsplit, List.take_left]
    have hdone : (boxes.dropWhile fun b => b.y1 = this.y1).length ≤ fuel := by
      have hle := (List.dropWhile_suffix (l := boxes) fun b => decide (b.y1 = this.y1)).length_le
      rw [List.length_cons] at hfuel
      omega
    have hfind := findBand_eq hthis hrest 0
    rw [hband, hleft, Nat.zero_add] at hfind
    rw [List.length_cons] at hfind ⊢
    rw [sendBands, hfind]
    simp only [Option.bind_eq_bind, Option.bind_some]
    rw [sendBand_eq hlen dx, htake, ih hnext hdone]
    simp only [Option.bind_some, List.map_append]

/-- No index is out of range, and the rectangles are sent in that order. -/
theorem copyRegionMsgs_eq (rects : List BoxRec) (dx dy : Int) :
    copyRegionMsgs rects dx dy =
      some ((rfbSendCopyRegion BoxRec.y1 rects dx dy).map fun rect => rect.copyMsg dx dy) := by
  have hstart : (if dy ≤ 0 then 0 else (rects.length : Int) - 1) = walkIndex rects dy 0 := by
    unfold walkIndex
    split <;> simp
  have hlen := length_walk rects dy
  unfold copyRegionMsgs
  rw [hstart]
  have hsend := @sendBands_eq rects dy rects.length _ dx _ rfl (by rw [List.drop_zero, hlen])
  rw [List.drop_zero, hlen] at hsend
  exact hsend

theorem BoxRec.copyMsg_apply (picture : Pixel → α) (rect : BoxRec) (dx dy : Int) :
    (rect.copyMsg dx dy).apply picture = copyRect picture rect dx dy := by
  funext p
  unfold CopyRectMsg.apply copyRect BoxRec.copyMsg
  have hiff : (rect.x1 ≤ p.1 ∧ p.1 < rect.x1 + (rect.x2 - rect.x1)) ∧
      (rect.y1 ≤ p.2 ∧ p.2 < rect.y1 + (rect.y2 - rect.y1)) ↔ rect.Has p := by
    unfold BoxRec.Has
    omega
  have hmove : (p.1 - rect.x1 + (rect.x1 - dx), p.2 - rect.y1 + (rect.y1 - dy)) = p.move (-dx) (-dy) := by
    unfold Pixel.move
    ext <;> simp <;> omega
  simp only [hiff, hmove]

/-- The rectangles of the region are sent once each, and in an order in which copying them one after the other is
the same as copying the region at once. -/
theorem copyRegionMsgs_copyWhole (rects : List BoxRec) (hband : Banded rects) (dx dy : Int) :
    ∃ msgs, copyRegionMsgs rects dx dy = some msgs ∧
      msgs.Perm (rects.map fun rect => rect.copyMsg dx dy) ∧
        ∀ picture : Pixel → α, msgs.foldl CopyRectMsg.apply picture = copyWhole picture rects dx dy := by
  refine ⟨_, copyRegionMsgs_eq rects dx dy, (rfbSendCopyRegion_perm _ _ _ _).map _, ?_⟩
  intro picture
  funext p
  simp only [List.foldl_map, BoxRec.copyMsg_apply]
  rw [foldl_copyRect picture _ dx dy (rfbSendCopyRegion_untouched hband dx dy)]
  simp only [(rfbSendCopyRegion_perm BoxRec.y1 rects dx dy).mem_iff]
  rfl

/-- A band of two rectangles above one of one. -/
def twoBands : List BoxRec := [⟨0, 0, 2, 1⟩, ⟨3, 0, 4, 1⟩, ⟨1, 1, 4, 3⟩]

theorem copyRegionMsgs_twoBands :
    ∃ msgs, copyRegionMsgs twoBands 1 1 = some msgs ∧ msgs.Perm (twoBands.map fun rect => rect.copyMsg 1 1) ∧
      ∀ picture : Pixel → Nat, msgs.foldl CopyRectMsg.apply picture = copyWhole picture twoBands 1 1 :=
  copyRegionMsgs_copyWhole twoBands (by unfold Banded twoBands; decide) 1 1

end Colama.Xvnc

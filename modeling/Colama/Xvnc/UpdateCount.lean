import Colama.Xvnc.Update
import Colama.Xvnc.TightSpec

namespace Colama.Xvnc

/-- If all goes well `n` rectangles have been sent, none of them a marker. -/
structure Sends (n : Nat) (sent : Sent) : Prop where
  notRefused : sent.status ≠ .refused
  length : sent.status = .sent → sent.headers.length = n
  noMarker : ∀ hdr ∈ sent.headers, hdr.encoding ≠ .lastRect

variable {n m : Nat} {a b : Sent}

theorem Sends.nothing : Sends 0 {} :=
  ⟨by decide, fun _ => rfl, fun _ h => absurd h List.not_mem_nil⟩

theorem Sends.one {hdr : RectHeader} (h : hdr.encoding ≠ .lastRect) : Sends 1 { headers := [hdr] } := by
  refine ⟨nofun, fun _ => rfl, fun hdr' hmem => ?_⟩
  rwa [List.mem_singleton.mp hmem]

theorem Sends.andThen (ha : Sends n a) (hb : Sends m b) : Sends (n + m) (a.andThen b) := by
  unfold Sent.andThen
  split
  · rename_i hs
    refine ⟨hb.notRefused, fun hsent => ?_, fun hdr hmem => ?_⟩
    · rw [List.length_append, ha.length hs, hb.length hsent]
    · rcases List.mem_append.mp hmem with hmem | hmem
      · exact ha.noMarker hdr hmem
      · exact hb.noMarker hdr hmem
  · rename_i hs
    exact ⟨ha.notRefused, fun hsent => absurd hsent hs, ha.noMarker⟩

theorem Sent.andThen_assoc (a b c : Sent) : (a.andThen b).andThen c = a.andThen (b.andThen c) := by
  unfold Sent.andThen
  split_ifs with ha hb
  · rw [List.append_assoc]
  · rfl
  · rfl

theorem Sent.andThen_of_sent (ha : a.status = .sent) (b : Sent) :
    a.andThen b = { headers := a.headers ++ b.headers, status := b.status } := if_pos ha

theorem Sent.andThen_of_not (ha : a.status ≠ .sent) (b : Sent) : a.andThen b = a := if_neg ha

/-- What has not been given up has been sent. -/
theorem Sends.sent (h : Sends n a) (hclosed : a.status ≠ .closed) : a.status = .sent := by
  have hrefused := h.notRefused
  cases hs : a.status with
  | sent => rfl
  | refused => exact absurd hs hrefused
  | closed => exact absurd hs hclosed

theorem sendEach_sends {β : Type*} (send : β → Sent) (f : β → Nat) (l : List β)
    (h : ∀ b ∈ l, Sends (f b) (send b)) : Sends (l.map f).sum (sendEach send l) := by
  induction l with
  | nil => exact .nothing
  | cons b l ih =>
    rw [List.map_cons, List.sum_cons, sendEach]
    exact (h b List.mem_cons_self).andThen (ih fun b' hb' => h b' (List.mem_cons_of_mem b hb'))

theorem rfbSendRectEncodingRaw_sends (cl : Client) (x y w h : Nat) :
    Sends 1 (rfbSendRectEncodingRaw cl x y w h) := by
  refine ⟨?_, fun _ => rfl, fun hdr hmem => ?_⟩
  · simp only [rfbSendRectEncodingRaw]
    split_ifs <;> decide
  · rw [List.mem_singleton.mp hmem]
    nofun

section Screen

variable {α : Type*} [DecidableEq α] (cl : Client) (screen : Screen α)

theorem rfbSendRectEncodingRRE_sends (x y w h : Nat) : Sends 1 (rfbSendRectEncodingRRE cl screen x y w h) := by
  unfold rfbSendRectEncodingRRE
  split
  · exact rfbSendRectEncodingRaw_sends cl x y w h
  · exact .one nofun

theorem rfbSendSmallRectEncodingCoRRE_sends (x y w h : Nat) :
    Sends 1 (rfbSendSmallRectEncodingCoRRE cl screen x y w h) := by
  unfold rfbSendSmallRectEncodingCoRRE
  split
  · exact rfbSendRectEncodingRaw_sends cl x y w h
  · exact .one nofun

theorem rfbSendOneRectEncodingZlib_sends (x y w h : Nat) :
    Sends 1 (rfbSendOneRectEncodingZlib cl screen x y w h) := by
  unfold rfbSendOneRectEncodingZlib
  split
  · exact rfbSendRectEncodingRaw_sends cl x y w h
  · exact .one nofun

/-- The pieces of `n` in lengths of at most `k` are one more than those of what follows the first. -/
theorem pieces_sub {n k : Nat} (hk : 0 < k) (h : k < n) : (n - 1) / k + 1 = 1 + ((n - k - 1) / k + 1) := by
  have hle : k ≤ n - 1 := by omega
  have hsub : n - k - 1 = n - 1 - k := by omega
  rw [hsub, Nat.div_eq_sub_div hk hle]
  omega

theorem pieces_self {k : Nat} (hk : 0 < k) : (k - 1) / k + 1 = 1 := by
  rw [Nat.div_eq_of_lt (by omega)]

theorem rfbSendRectEncodingCoRRE_sends (x y w h : Nat) (hw : 0 < w) (hh : 0 < h) :
    Sends (((w - 1) / cl.correMaxWidth + 1) * ((h - 1) / cl.correMaxHeight + 1))
      (rfbSendRectEncodingCoRRE cl screen x y w h) := by
  have hmw := cl.correMaxWidth_pos
  have hmh := cl.correMaxHeight_pos
  fun_induction rfbSendRectEncodingCoRRE cl screen x y w h with
  | case1 x y w h hgt ih1 ih2 =>
    have hfirst := ih1 hw hmh
    rw [pieces_self hmh] at hfirst
    rw [pieces_sub hmh hgt, Nat.mul_add]
    exact hfirst.andThen (ih2 hw (by omega))
  | case2 x y w h hle hgt ih1 ih2 =>
    have hfirst := ih1 hmw hh
    rw [pieces_self hmw] at hfirst
    rw [pieces_sub hmw hgt, Nat.add_mul]
    exact hfirst.andThen (ih2 (by omega) hh)
  | case3 x y w h hle hle' =>
    rw [Nat.div_eq_of_lt (by omega), Nat.div_eq_of_lt (by omega)]
    exact rfbSendSmallRectEncodingCoRRE_sends cl screen x y w h

theorem zlibLoop_sends (maxLines : Nat) (hmax : 0 < maxLines) (x y w h : Nat) (hh : 0 < h) :
    Sends ((h - 1) / maxLines + 1) (zlibLoop cl screen maxLines hmax x y w h) := by
  fun_induction zlibLoop cl screen maxLines hmax x y w h with
  | case1 y h hpos lines ih =>
    by_cases hlt : maxLines < h
    · rw [pieces_sub hmax hlt]
      apply (rfbSendOneRectEncodingZlib_sends cl screen x y w lines).andThen
      have hlines : lines = maxLines := if_pos hlt
      rw [hlines] at ih ⊢
      exact ih (by omega)
    · rw [Nat.div_eq_of_lt (by omega), Nat.add_comm]
      have hlines : lines = h := if_neg hlt
      apply (rfbSendOneRectEncodingZlib_sends cl screen x y w lines).andThen
      rw [hlines, Nat.sub_self, zlibLoop, if_neg (lt_irrefl 0)]
      exact .nothing
  | case2 y h hzero => exact absurd hh hzero

/-- The rectangles that one of the region becomes, when its number is known. -/
@[grind] def codedRects (box : Box) : Nat :=
  match cl.preferredEncoding with
  | .coRRE => ((box.w - 1) / cl.correMaxWidth + 1) * ((box.h - 1) / cl.correMaxHeight + 1)
  | .zlib => (box.h - 1) / (ZLIB_MAX_SIZE box.w / box.w) + 1
  | .tight =>
    if needsSplit cl.tightCompressLevel box.w box.h then
      ((box.w - 1) / (tightConf cl.tightCompressLevel).maxRectWidth + 1) *
        ((box.h - 1) / subrectMaxHeight cl.tightCompressLevel box.w + 1)
    else 1
  | _ => 1

/-- The rectangle is large enough for Tight to look for areas of one colour in it. -/
def Searched (box : Box) : Prop :=
  cl.preferredEncoding = .tight ∧ cl.enableLastRectEncoding = true ∧ intMul box.w box.h ≥ MIN_SPLIT_RECT_SIZE

theorem tight_sends (box : Box) (h : ¬ (cl.enableLastRectEncoding = true ∧
    intMul box.w box.h ≥ MIN_SPLIT_RECT_SIZE)) (hpref : cl.preferredEncoding = .tight) :
    Sends (codedRects cl box) (rfbSendRect cl screen box) := by
  have hheaders : rfbSendRectEncodingTight screen.fb cl.toTightClient (box.w + box.h + 1) box.x1 box.y1 box.w
      box.h = some (sendRectSimple cl.tightCompressLevel box.x1 box.y1 box.w box.h) := by
    rw [rfbSendRectEncodingTight, if_pos]
    simp only [Bool.or_eq_true, Bool.not_eq_true', decide_eq_true_eq]
    rw [not_and_or, Bool.not_eq_true, not_le] at h
    exact h
  simp only [rfbSendRect, codedRects, hpref, hheaders, Option.getD_some]
  refine ⟨(by rintro ⟨⟩), fun _ => ?_, fun hdr hmem => ?_⟩
  · exact sendRectSimple_length cl.tightCompressLevel box.x1 box.y1 box.w_pos box.h_pos
  · rw [sendRectSimple_tight _ _ _ _ _ hdr hmem]
    decide

theorem rfbSendRect_sends (box : Box) (h : ¬ Searched cl box) :
    Sends (codedRects cl box) (rfbSendRect cl screen box) := by
  cases hpref : cl.preferredEncoding with
  | tight => exact tight_sends cl screen box (fun hs => h ⟨hpref, hs⟩) hpref
  | raw =>
    simp only [rfbSendRect, codedRects, hpref]
    exact rfbSendRectEncodingRaw_sends cl _ _ _ _
  | rre =>
    simp only [rfbSendRect, codedRects, hpref]
    exact rfbSendRectEncodingRRE_sends cl screen _ _ _ _
  | coRRE =>
    simp only [rfbSendRect, codedRects, hpref]
    exact rfbSendRectEncodingCoRRE_sends cl screen _ _ _ _ box.w_pos box.h_pos
  | hextile =>
    simp only [rfbSendRect, codedRects, hpref]
    exact .one nofun
  | zlib =>
    simp only [rfbSendRect, codedRects, hpref]
    exact zlibLoop_sends cl screen _ _ _ _ _ _ box.h_pos

/-- A searched rectangle is sent too, and without a marker. -/
theorem searched_sends (box : Box) (h : Searched cl box) : ∃ n, Sends n (rfbSendRect cl screen box) := by
  obtain ⟨headers, hsome, htight⟩ := rfbSendRectEncodingTight_some screen.fb cl.toTightClient box.x1 box.y1
    box.w box.h (Nat.lt_succ_self (box.w + box.h))
  refine ⟨headers.length, ?_⟩
  simp only [rfbSendRect, h.1, hsome, Option.getD_some]
  refine ⟨(by rintro ⟨⟩), fun _ => rfl, fun hdr hmem => ?_⟩
  rw [htight hdr hmem]
  decide

theorem rfbSendRect_sends_some (box : Box) : ∃ n, Sends n (rfbSendRect cl screen box) := by
  by_cases h : Searched cl box
  · exact searched_sends cl screen box h
  · exact ⟨_, rfbSendRect_sends cl screen box h⟩

theorem sendRects_sends_some (boxes : List Box) : ∃ n, Sends n (sendEach (rfbSendRect cl screen) boxes) := by
  choose f hf using rfbSendRect_sends_some cl screen
  exact ⟨_, sendEach_sends _ f boxes fun box _ => hf box⟩

theorem copies_sends (boxes : List Box) : Sends boxes.length
    (sendEach (fun box : Box => { headers := [⟨box.x1, box.y1, box.w, box.h, .copyRect⟩] }) boxes) := by
  have h := sendEach_sends (fun box : Box => { headers := [⟨box.x1, box.y1, box.w, box.h, .copyRect⟩] })
    (fun _ => 1) boxes fun box _ => .one nofun
  simpa using h

/-- The shape of the cursor takes more than the buffer. -/
def CursorTooLarge : Prop :=
  ∃ cursor, screen.cursor = some cursor ∧
    UPDATE_BUF_SIZE < sz_rfbFramebufferUpdateRectHeader + sz_rfbXCursorColors +
      (cursor.width + 7) / 8 * cursor.height + (if cl.useRichCursorEncoding then
        cursor.width * cursor.height * cl.bytesPerPixel else (cursor.width + 7) / 8 * cursor.height)

omit [DecidableEq α] in
theorem rfbSendCursorShape_sends (h : ¬ CursorTooLarge cl screen) :
    Sends 1 (rfbSendCursorShape cl screen) := by
  unfold rfbSendCursorShape
  extract_lets encoding
  have henc : encoding ≠ .lastRect := by
    simp only [encoding]
    split <;> decide
  split
  · exact .one henc
  · rename_i cursor hc
    rw [if_neg]
    · exact .one henc
    · exact fun hgt => h ⟨cursor, hc, hgt⟩

omit [DecidableEq α] in
theorem rfbSendCursorShape_refused (h : CursorTooLarge cl screen) :
    rfbSendCursorShape cl screen = { status := .refused } := by
  obtain ⟨cursor, hc, hgt⟩ := h
  unfold rfbSendCursorShape
  rw [hc]
  exact if_pos hgt

theorem codedRects_pos (box : Box) : 0 < codedRects cl box := by
  unfold codedRects
  split
  · exact Nat.mul_pos (Nat.succ_pos _) (Nat.succ_pos _)
  · exact Nat.succ_pos _
  · split
    · exact Nat.mul_pos (Nat.succ_pos _) (Nat.succ_pos _)
    · exact Nat.one_pos
  · exact Nat.one_pos

theorem rfbNumCodedRectsTight_eq (box : Box) (hpref : cl.preferredEncoding = .tight) :
    (Searched cl box → rfbNumCodedRectsTight cl.toTightClient box.w box.h = 0) ∧
      (¬ Searched cl box → rfbNumCodedRectsTight cl.toTightClient box.w box.h = codedRects cl box) := by
  constructor
  · intro h
    simp [rfbNumCodedRectsTight, h.2.1, h.2.2]
  · intro h
    have hnot : ¬ (cl.enableLastRectEncoding && decide (intMul box.w box.h ≥ MIN_SPLIT_RECT_SIZE)) = true := by
      intro hboth
      rw [Bool.and_eq_true, decide_eq_true_eq] at hboth
      exact h ⟨hpref, hboth⟩
    rw [rfbNumCodedRectsTight, if_neg hnot]
    simp only [codedRects, hpref]

theorem bmod_mul (a b m : Nat) : Int.bmod (Int.bmod ((a : Int) * b) m) m = Int.bmod ((a * b : Nat) : Int) m := by
  rw [Int.bmod_bmod, Nat.cast_mul]

theorem intMul_bmod (a b : Nat) : Int.bmod (intMul a b) (2 ^ 32) = Int.bmod ((a * b : Nat) : Int) (2 ^ 32) :=
  bmod_mul a b (2 ^ 32)

theorem foldl_intAdd (f : Box → Int) (g : Box → Nat) (boxes : List Box)
    (h : ∀ box ∈ boxes, Int.bmod (f box) (2 ^ 32) = Int.bmod (g box) (2 ^ 32)) (n : Int) :
    boxes.foldl (fun n box => intAdd n (f box)) (Int.bmod n (2 ^ 32)) =
      Int.bmod (n + (boxes.map g).sum) (2 ^ 32) := by
  induction boxes generalizing n with
  | nil => simp
  | cons box boxes ih =>
    have hbox := h box List.mem_cons_self
    have hadd : intAdd (Int.bmod n (2 ^ 32)) (f box) = Int.bmod (n + g box) (2 ^ 32) := by
      rw [intAdd, Int.bmod_add_bmod, ← Int.add_bmod_bmod, hbox, Int.add_bmod_bmod]
    rw [List.foldl_cons, hadd, ih fun b hb => h b (List.mem_cons_of_mem box hb)]
    rw [List.map_cons, List.sum_cons, Nat.cast_add, add_assoc]

theorem countTight_searched (hpref : cl.preferredEncoding = .tight) (boxes : List Box) (n : Int)
    (h : ∃ box ∈ boxes, Searched cl box) : countTight cl n boxes = 0xFFFF := by
  induction boxes generalizing n with
  | nil =>
    obtain ⟨box, hmem, -⟩ := h
    exact absurd hmem List.not_mem_nil
  | cons box boxes ih =>
    rw [countTight]
    split
    · rfl
    · rename_i hne
      apply ih
      obtain ⟨b, hb, hs⟩ := h
      rcases List.mem_cons.mp hb with rfl | hb
      · exact absurd ((rfbNumCodedRectsTight_eq cl b hpref).1 hs) hne
      · exact ⟨b, hb, hs⟩

theorem countTight_eq_foldl (hpref : cl.preferredEncoding = .tight) (boxes : List Box) (n : Int)
    (h : ∀ box ∈ boxes, ¬ Searched cl box) :
    countTight cl n boxes = boxes.foldl (fun n box => intAdd n (codedRects cl box)) n := by
  induction boxes generalizing n with
  | nil => rfl
  | cons box boxes ih =>
    have hbox := (rfbNumCodedRectsTight_eq cl box hpref).2 (h box List.mem_cons_self)
    rw [countTight, hbox, if_neg (codedRects_pos cl box).ne', List.foldl_cons]
    exact ih _ fun b hb => h b (List.mem_cons_of_mem box hb)

theorem nUpdateRegionRects_eq (boxes : List Box) (h : ∀ box ∈ boxes, ¬ Searched cl box) :
    nUpdateRegionRects cl boxes = Int.bmod (boxes.map (codedRects cl)).sum (2 ^ 32) := by
  have hfold : ∀ f : Box → Int, (∀ box ∈ boxes, Int.bmod (f box) (2 ^ 32) = Int.bmod (codedRects cl box) (2 ^ 32)) →
      boxes.foldl (fun n box => intAdd n (f box)) 0 = Int.bmod (boxes.map (codedRects cl)).sum (2 ^ 32) := by
    intro f hf
    have hn := foldl_intAdd f (codedRects cl) boxes hf 0
    rwa [Int.zero_add] at hn
  have hone : (∀ box, codedRects cl box = 1) →
      Int.bmod boxes.length (2 ^ 32) = Int.bmod (boxes.map (codedRects cl)).sum (2 ^ 32) := by
    intro hc
    have hsum : (boxes.map (codedRects cl)).sum = boxes.length := by
      rw [List.map_congr_left fun box _ => hc box]
      simp
    rw [hsum]
  unfold nUpdateRegionRects
  cases hpref : cl.preferredEncoding with
  | coRRE =>
    refine hfold (fun box => intMul ((box.w - 1) / cl.correMaxWidth + 1) ((box.h - 1) / cl.correMaxHeight + 1))
      fun box _ => ?_
    have hcoded : codedRects cl box =
        ((box.w - 1) / cl.correMaxWidth + 1) * ((box.h - 1) / cl.correMaxHeight + 1) := by
      simp only [codedRects, hpref]
    rw [hcoded, intMul_bmod]
  | zlib =>
    have hcoded : codedRects cl = fun box => (box.h - 1) / (ZLIB_MAX_SIZE box.w / box.w) + 1 := by
      funext box
      simp only [codedRects, hpref]
    rw [hcoded] at hfold ⊢
    exact hfold _ fun _ _ => rfl
  | tight =>
    dsimp only
    rw [countTight_eq_foldl cl hpref boxes 0 h]
    exact hfold _ fun _ _ => rfl
  | raw => exact hone fun box => by rw [codedRects, hpref]
  | rre => exact hone fun box => by rw [codedRects, hpref]
  | hextile => exact hone fun box => by rw [codedRects, hpref]

/-- The number that stands for an unknown one is given, on purpose or because it is the number. -/
def Sentinel (boxes : List Box) : Prop :=
  (∃ box ∈ boxes, Searched cl box) ∨ (boxes.map (codedRects cl)).sum % 2 ^ 32 = 0xFFFF

theorem bmod_eq_sentinel (n : Nat) : Int.bmod n (2 ^ 32) = 0xFFFF ↔ n % 2 ^ 32 = 0xFFFF := by
  constructor
  · intro h
    have hmod := Int.bmod_emod (x := n) (m := 2 ^ 32)
    rw [h] at hmod
    omega
  · intro h
    have hmod : (n : Int) % (2 ^ 32 : Nat) = 0xFFFF := by
      rw [← Int.natCast_mod, h]
      rfl
    rw [Int.bmod_eq_emod_of_lt, hmod]
    rw [hmod]
    decide

theorem sentinel_iff (boxes : List Box) : nUpdateRegionRects cl boxes = 0xFFFF ↔ Sentinel cl boxes := by
  by_cases hs : ∃ box ∈ boxes, Searched cl box
  · refine iff_of_true ?_ (.inl hs)
    obtain ⟨box, hbox, hsearch⟩ := hs
    simp only [nUpdateRegionRects, hsearch.1]
    exact countTight_searched cl hsearch.1 boxes 0 ⟨box, hbox, hsearch⟩
  · have hnone : ∀ box ∈ boxes, ¬ Searched cl box := fun box hbox h => hs ⟨box, hbox, h⟩
    rw [nUpdateRegionRects_eq cl boxes hnone, bmod_eq_sentinel, Sentinel]
    exact ⟨.inr, fun h => h.resolve_left hs⟩

variable (extras : UpdateExtras) (updateRects : List Box)

/-- Everything but the marker. -/
def front : Sent :=
  (if extras.sendCursorShape then rfbSendCursorShape cl screen else {}).andThen <|
  (if extras.sendCursorPos then rfbSendCursorPos extras.cursorX extras.cursorY else {}).andThen <|
  (sendEach (fun box => { headers := [⟨box.x1, box.y1, box.w, box.h, .copyRect⟩] })
    (rfbSendCopyRegion (fun box : Box => (box.y1 : Int)) extras.copyRects extras.dx extras.dy)).andThen <|
  sendEach (rfbSendRect cl screen) updateRects

theorem sent_eq_front : (rfbSendFramebufferUpdate cl screen extras updateRects).sent =
    (front cl screen extras updateRects).andThen
      (if nUpdateRegionRects cl updateRects = 0xFFFF then rfbSendLastRectMarker else {}) := by
  simp only [front, rfbSendFramebufferUpdate, Sent.andThen_assoc]

/-- The rectangles of the whole message. -/
def totalRects : Nat :=
  extras.copyRects.length + (updateRects.map (codedRects cl)).sum + extras.sendCursorShape.toNat +
    extras.sendCursorPos.toNat

/-- The shape is to be sent and does not fit. -/
def ShapeRefused : Prop := extras.sendCursorShape = true ∧ CursorTooLarge cl screen

variable {cl screen extras updateRects}

theorem front_sends (hshape : ¬ ShapeRefused cl screen extras)
    (h : Sends n (sendEach (rfbSendRect cl screen) updateRects)) :
    Sends (extras.sendCursorShape.toNat + (extras.sendCursorPos.toNat + (extras.copyRects.length + n)))
      (front cl screen extras updateRects) := by
  have hlen : (rfbSendCopyRegion (fun box : Box => (box.y1 : Int)) extras.copyRects extras.dx extras.dy).length = extras.copyRects.length :=
    (rfbSendCopyRegion_perm _ _ _ _).length_eq
  apply Sends.andThen
  · cases hs : extras.sendCursorShape with
    | false => exact .nothing
    | true => exact rfbSendCursorShape_sends cl screen fun hlarge => hshape ⟨hs, hlarge⟩
  apply Sends.andThen
  · cases extras.sendCursorPos with
    | false => exact .nothing
    | true => exact .one nofun
  apply Sends.andThen
  · rw [← hlen]
    exact copies_sends _
  · exact h

theorem front_refused (hshape : ShapeRefused cl screen extras) :
    front cl screen extras updateRects = { status := .refused } := by
  rw [front, if_pos hshape.1, rfbSendCursorShape_refused cl screen hshape.2]
  exact Sent.andThen_of_not (by decide) _

/-- Keeping the sum in an int does not change its lower 16 bits. -/
theorem field_mod (copies total shape pos : Nat) :
    (((copies : Int) + Int.bmod total (2 ^ 32) + shape + pos) % 2 ^ 16).toNat =
      (copies + total + shape + pos) % 2 ^ 16 := by
  have hsum : (copies : Int) + Int.bmod total (2 ^ 32) + shape + pos =
      ((copies + total + shape + pos : Nat) : Int) + 2 ^ 16 * (-(2 ^ 16) * Int.bdiv total (2 ^ 32)) := by
    rw [Int.bmod_eq_self_sub_mul_bdiv]
    push_cast
    ring
  rw [hsum, Int.add_mul_emod_self_left]
  exact Int.toNat_natCast _

theorem nRects_of_not_sentinel (h : ¬ Sentinel cl updateRects) :
    (rfbSendFramebufferUpdate cl screen extras updateRects).nRects =
      totalRects cl extras updateRects % 2 ^ 16 := by
  have hne : nUpdateRegionRects cl updateRects ≠ 0xFFFF := fun heq => h ((sentinel_iff cl updateRects).mp heq)
  have heq := nUpdateRegionRects_eq cl updateRects fun box hbox hs => h (.inl ⟨box, hbox, hs⟩)
  unfold rfbSendFramebufferUpdate
  dsimp only
  rw [if_pos hne, heq, totalRects, field_mod]

theorem nRects_of_sentinel (h : Sentinel cl updateRects) :
    (rfbSendFramebufferUpdate cl screen extras updateRects).nRects = 0xFFFF := by
  have heq := (sentinel_iff cl updateRects).mpr h
  simp only [rfbSendFramebufferUpdate, heq]
  rfl

/-- When the count is right: the shape fits, and there are fewer than 65536 rectangles without the
number that stands for an unknown one, or there is that number and a client that knows the marker.
A refused shape leaves a message without rectangles, whose field must be 0. -/
def CountFits (cl : Client) (screen : Screen α) (extras : UpdateExtras) (updateRects : List Box) : Prop :=
  (¬ ShapeRefused cl screen extras ∧ ¬ Sentinel cl updateRects ∧ totalRects cl extras updateRects < 2 ^ 16) ∨
  (¬ ShapeRefused cl screen extras ∧ Sentinel cl updateRects ∧ cl.enableLastRectEncoding = true) ∨
  (ShapeRefused cl screen extras ∧ ¬ Sentinel cl updateRects ∧ totalRects cl extras updateRects % 2 ^ 16 = 0)

theorem counted_refused_iff (hshape : ShapeRefused cl screen extras) :
    (rfbSendFramebufferUpdate cl screen extras updateRects).Counted cl ↔ CountFits cl screen extras updateRects := by
  have hheaders : (rfbSendFramebufferUpdate cl screen extras updateRects).sent.headers = [] := by
    rw [sent_eq_front, front_refused hshape, Sent.andThen_of_not (by decide)]
  by_cases hsent : Sentinel cl updateRects
  · simp [Message.Counted, hheaders, nRects_of_sentinel hsent, CountFits, hshape, hsent]
  · simp [Message.Counted, hheaders, nRects_of_not_sentinel hsent, CountFits, hshape, hsent]

theorem front_sent (hfront : Sends n (front cl screen extras updateRects))
    (hopen : (rfbSendFramebufferUpdate cl screen extras updateRects).sent.status ≠ .closed) :
    (front cl screen extras updateRects).status = .sent := by
  apply hfront.sent
  intro hclosed
  apply hopen
  rw [sent_eq_front, Sent.andThen_of_not (by rw [hclosed]; decide), hclosed]

theorem counted_marked_iff (hshape : ¬ ShapeRefused cl screen extras) (hsent : Sentinel cl updateRects)
    (hopen : (rfbSendFramebufferUpdate cl screen extras updateRects).sent.status ≠ .closed) :
    (rfbSendFramebufferUpdate cl screen extras updateRects).Counted cl ↔ CountFits cl screen extras updateRects := by
  obtain ⟨n, hn⟩ := sendRects_sends_some cl screen updateRects
  have hfront := front_sends hshape hn
  have hheaders : (rfbSendFramebufferUpdate cl screen extras updateRects).sent.headers =
      (front cl screen extras updateRects).headers ++ [⟨0, 0, 0, 0, .lastRect⟩] := by
    rw [sent_eq_front, Sent.andThen_of_sent (front_sent hfront hopen), (sentinel_iff cl updateRects).mpr hsent]
    rfl
  constructor
  · rintro (⟨-, hnone⟩ | ⟨-, henable, -⟩)
    · have hmarker := hnone ⟨0, 0, 0, 0, .lastRect⟩ (by rw [hheaders]; exact List.mem_append_right _ (by simp))
      exact absurd rfl hmarker
    · exact .inr (.inl ⟨hshape, hsent, henable⟩)
  · rintro (⟨-, hnot, -⟩ | ⟨-, -, henable⟩ | ⟨hrefused, -⟩)
    · exact absurd hsent hnot
    · exact .inr ⟨nRects_of_sentinel hsent, henable, _, hheaders, hfront.noMarker⟩
    · exact absurd hrefused hshape

theorem counted_unmarked_iff (hshape : ¬ ShapeRefused cl screen extras) (hsent : ¬ Sentinel cl updateRects)
    (hopen : (rfbSendFramebufferUpdate cl screen extras updateRects).sent.status ≠ .closed) :
    (rfbSendFramebufferUpdate cl screen extras updateRects).Counted cl ↔ CountFits cl screen extras updateRects := by
  have hn := sendEach_sends (rfbSendRect cl screen) (codedRects cl) updateRects fun box hbox =>
    rfbSendRect_sends cl screen box fun hs => hsent (.inl ⟨box, hbox, hs⟩)
  have hfront := front_sends hshape hn
  have hstatus := front_sent hfront hopen
  have hne : nUpdateRegionRects cl updateRects ≠ 0xFFFF := fun heq => hsent ((sentinel_iff cl updateRects).mp heq)
  have hheaders : (rfbSendFramebufferUpdate cl screen extras updateRects).sent.headers =
      (front cl screen extras updateRects).headers := by
    rw [sent_eq_front, Sent.andThen_of_sent hstatus, if_neg hne, List.append_nil]
  have hlen : (front cl screen extras updateRects).headers.length = totalRects cl extras updateRects := by
    rw [hfront.length hstatus, totalRects]
    omega
  constructor
  · rintro (⟨hcount, -⟩ | ⟨-, -, hdrs, hlast, -⟩)
    · rw [nRects_of_not_sentinel hsent, hheaders, hlen] at hcount
      exact .inl ⟨hshape, hsent, by omega⟩
    · rw [hheaders] at hlast
      have hmarker := hfront.noMarker ⟨0, 0, 0, 0, .lastRect⟩ (by rw [hlast]; simp)
      exact absurd rfl hmarker
  · rintro (⟨-, -, hlt⟩ | ⟨-, hyes, -⟩ | ⟨hrefused, -⟩)
    · refine .inl ⟨?_, ?_⟩
      · rw [nRects_of_not_sentinel hsent, hheaders, hlen, Nat.mod_eq_of_lt hlt]
      · rw [hheaders]
        exact hfront.noMarker
    · exact absurd hyes hsent
    · exact absurd hrefused hshape

variable (cl screen extras updateRects)

/-- Unless the connection is given up, the count is right just in these cases. -/
theorem rfbSendFramebufferUpdate_counted_iff
    (hopen : (rfbSendFramebufferUpdate cl screen extras updateRects).sent.status ≠ .closed) :
    (rfbSendFramebufferUpdate cl screen extras updateRects).Counted cl ↔ CountFits cl screen extras updateRects := by
  by_cases hshape : ShapeRefused cl screen extras
  · exact counted_refused_iff hshape
  · by_cases hsent : Sentinel cl updateRects
    · exact counted_marked_iff hshape hsent hopen
    · exact counted_unmarked_iff hshape hsent hopen

end Screen

/-- A client of the Tight encoding at its lowest level, and a screen of one colour without a cursor. -/
def tightClient (enableLastRectEncoding : Bool) : Client where
  tightCompressLevel := 0
  enableLastRectEncoding := enableLastRectEncoding
  preferredEncoding := .tight
  bytesPerPixel := 4
  useRichCursorEncoding := false

def plainScreen : Screen Unit where
  fb _ _ := ()
  bytesPerPixel := 4
  rreTooLarge _ _ _ _ := false
  cursor := none

def noExtras : UpdateExtras where
  sendCursorShape := false
  sendCursorPos := false
  cursorX := 0
  cursorY := 0
  copyRects := []
  dx := 0
  dy := 0

def largeBox : Box where
  x1 := 0
  y1 := 0
  x2 := 8192
  y2 := 4096
  hx := by decide
  hy := by decide
  hx2 := by decide
  hy2 := by decide

theorem largeBox_not_closed (enable : Bool) :
    (rfbSendFramebufferUpdate (tightClient enable) plainScreen noExtras [largeBox]).sent.status ≠ .closed := by
  have hrect : (rfbSendRect (tightClient enable) plainScreen largeBox).status = .sent := rfl
  have hcopies : rfbSendCopyRegion (fun box : Box => (box.y1 : Int)) [] 0 0 = [] := by
    rw [rfbSendCopyRegion, if_pos (le_refl 0), copyOrder]
  rw [sent_eq_front, front]
  simp only [noExtras, hcopies, sendEach, Bool.false_eq_true, if_false]
  simp only [Sent.andThen, hrect, if_true]
  split <;> decide

/-- To a client that knows the marker a large rectangle is announced as an unknown number. -/
theorem largeBox_counted :
    (rfbSendFramebufferUpdate (tightClient true) plainScreen noExtras [largeBox]).Counted (tightClient true) := by
  apply (rfbSendFramebufferUpdate_counted_iff (tightClient true) plainScreen noExtras [largeBox]
    (largeBox_not_closed true)).mpr
  refine .inr (.inl ⟨fun h => absurd h.1 (by decide), .inl ⟨largeBox, List.mem_singleton_self _, rfl, rfl, ?_⟩, rfl⟩)
  decide

/-- Without the marker its 65536 rectangles are announced as none. -/
theorem largeBox_overflows : ¬ ∀ (cl : Client) (screen : Screen Unit) (extras : UpdateExtras) (boxes : List Box),
    (rfbSendFramebufferUpdate cl screen extras boxes).sent.status ≠ .closed →
      (rfbSendFramebufferUpdate cl screen extras boxes).Counted cl := by
  intro h
  have hcounted := h (tightClient false) plainScreen noExtras [largeBox] (largeBox_not_closed false)
  have hcoded : codedRects (tightClient false) largeBox = 65536 := by decide
  have hshape : ¬ ShapeRefused (tightClient false) plainScreen noExtras := fun hs => absurd hs.1 (by decide)
  have hsent : ¬ Sentinel (tightClient false) [largeBox] := by
    rintro (⟨box, -, hs⟩ | hsum)
    · exact absurd hs.2.1 (by decide)
    · rw [List.map_singleton, List.sum_singleton, hcoded] at hsum
      exact absurd hsum (by decide)
  rw [counted_unmarked_iff hshape hsent (largeBox_not_closed false)] at hcounted
  rcases hcounted with ⟨-, -, hlt⟩ | ⟨-, hs, -⟩ | ⟨hs, -⟩
  · rw [totalRects, List.map_singleton, List.sum_singleton, hcoded] at hlt
    exact absurd hlt (by decide)
  · exact hsent hs
  · exact hshape hs

end Colama.Xvnc

import Colama.Xvnc.HextileSpec
import Colama.Xvnc.Rre

namespace Colama.Xvnc

open Lib

variable {bpp : Bpp}

theorem seg_eq (data : TileData bpp) {w h j i : Nat} (hi : i < w) (hj : j < h) : seg data w h j i = some (data i j) := by
  have hlt : j * w + i < w * h := by
    calc j * w + i < (j + 1) * w := by rw [Nat.succ_mul]; omega
      _ ≤ h * w := Nat.mul_le_mul_right w hj
      _ = w * h := Nat.mul_comm h w
  rw [seg, if_pos hlt, Nat.mul_comm j w, Nat.mul_add_mod, Nat.mod_eq_of_lt hi, Nat.mul_add_div (by omega),
    Nat.div_eq_of_lt hi, Nat.add_zero]

/-- The pixel after a row is one of the picture unless the row is the last. -/
theorem seg_bound (data : TileData bpp) {w h j : Nat} (hw : 0 < w) :
    j + 1 < h ∧ (seg data w h j w).isSome ∨ h ≤ j + 1 ∧ seg data w h j w = none := by
  have hrow : j * w + w = (j + 1) * w := (Nat.succ_mul j w).symm
  rcases Nat.lt_or_ge (j + 1) h with hj | hj
  · have hlt : j * w + w < w * h := by
      rw [hrow, Nat.mul_comm w]
      exact Nat.mul_lt_mul_of_pos_right hj hw
    exact .inl ⟨hj, by rw [seg, if_pos hlt]; rfl⟩
  · have hle : ¬ j * w + w < w * h := by
      rw [hrow, Nat.mul_comm w, Nat.not_lt]
      exact Nat.mul_le_mul_right w hj
    exact .inr ⟨hj, if_neg hle⟩

/-- Only a run that is as long as the last row leads out of the picture. -/
theorem scanRow_eq (data : TileData bpp) {w h j : Nat} (cl : Card bpp) (hw : 0 < w) (hj : j < h) {n i : Nat}
    (hn : i + n = w) :
    scanRow data w h j cl n i = some (i + runLength (fun i => data i j) cl n i) ∧
        (j + 1 < h ∨ runLength (fun i => data i j) cl n i < n) ∨
      scanRow data w h j cl n i = none ∧ h ≤ j + 1 ∧ runLength (fun i => data i j) cl n i = n := by
  induction n generalizing i with
  | zero =>
    rw [Nat.add_zero] at hn
    subst hn
    rw [scanRow, runLength]
    rcases seg_bound data (j := j) (h := h) hw with ⟨hlt, hsome⟩ | ⟨hle, hnone⟩
    · obtain ⟨pix, hpix⟩ := Option.isSome_iff_exists.mp hsome
      rw [hpix]
      exact .inl ⟨rfl, .inl hlt⟩
    · rw [hnone]
      exact .inr ⟨rfl, hle, rfl⟩
  | succ n ih =>
    rw [scanRow, seg_eq data (by omega) hj, runLength, Option.bind_eq_bind, Option.bind_some]
    by_cases hpix : data i j = cl
    · rw [if_pos hpix, if_pos hpix]
      refine (ih (show i + 1 + n = w by omega)).imp ?_ ?_
      · rintro ⟨heq, hend⟩
        refine ⟨heq.trans (congrArg some (by omega)), hend.imp id fun h => by omega⟩
      · rintro ⟨heq, hle, hrun⟩
        exact ⟨heq, hle, by omega⟩
    · rw [if_neg hpix, if_neg hpix]
      exact .inl ⟨rfl, .inr (Nat.succ_pos n)⟩

theorem runLength_eq_iff (row : Nat → Card bpp) (cl : Card bpp) (n x : Nat) :
    runLength row cl n x = n ↔ ∀ i, x ≤ i → i < x + n → row i = cl := by
  induction n generalizing x with
  | zero => exact ⟨fun _ i hle hlt => absurd hlt (Nat.not_lt.mpr hle), fun _ => rfl⟩
  | succ n ih =>
    rw [runLength]
    constructor
    · intro h i hle hlt
      by_cases hx : row x = cl
      · rw [if_pos hx, Nat.add_right_cancel_iff, ih] at h
        rcases Nat.eq_or_lt_of_le hle with rfl | hle
        · exact hx
        · exact h i hle (by omega)
      · rw [if_neg hx] at h
        cases h
    · intro h
      rw [if_pos (h x le_rfl (by omega)), (ih (x + 1)).mpr fun i hle hlt => h i (by omega) (by omega)]

/-- All that is below a pixel, and then all that is to the right in the last row, has its colour. -/
structure ReachesEnd (data : TileData bpp) (w h x y : Nat) (cl : Card bpp) : Prop where
  column : ∀ j, y ≤ j → j < h → data x j = cl
  lastRow : ∀ i, x ≤ i → i < w → data i (h - 1) = cl

theorem scanRows_eq (data : TileData bpp) {w h x : Nat} (cl : Card bpp) (hx : x < w) {n j : Nat} (hn : j + n = h)
    (s : Subrects) :
    scanRows data w h x cl n j s = some (growSubrects data w x cl n j s) ∧ ¬ (0 < n ∧ ReachesEnd data w h x j cl) ∨
      scanRows data w h x cl n j s = none ∧ ReachesEnd data w h x j cl := by
  induction n generalizing j s with
  | zero => exact .inl ⟨rfl, fun h => absurd h.1 (Nat.lt_irrefl 0)⟩
  | succ n ih =>
    have hj : j < h := by omega
    rw [scanRows, seg_eq data hx hj, growSubrects, Option.bind_eq_bind, Option.bind_some]
    by_cases hcl : data x j = cl
    · rw [if_neg (not_not.mpr hcl), if_neg (not_not.mpr hcl)]
      rcases scanRow_eq data cl (by omega) hj (Nat.add_sub_cancel' hx.le) with ⟨hrow, hend⟩ | ⟨hrow, hend, hrun⟩
      · rw [hrow, Option.bind_eq_bind, Option.bind_some, Nat.add_sub_cancel_left]
        refine (ih (show j + 1 + n = h by omega) (s.addRow (runLength (fun i => data i j) cl (w - x) x))).imp ?_ ?_
        · rintro ⟨heq, hnot⟩
          refine ⟨heq, fun hreaches => ?_⟩
          cases n with
          | zero =>
            have hlast : runLength (fun i => data i j) cl (w - x) x = w - x := by
              rw [runLength_eq_iff]
              intro i hle hlt
              have hi := hreaches.2.lastRow i hle (by omega)
              rwa [show h - 1 = j by omega] at hi
            omega
          | succ n =>
            exact hnot ⟨Nat.succ_pos n, fun k hk hk' => hreaches.2.column k (by omega) hk', hreaches.2.lastRow⟩
        · rintro ⟨heq, hreaches⟩
          refine ⟨heq, fun k hk hk' => ?_, hreaches.lastRow⟩
          rcases Nat.eq_or_lt_of_le hk with rfl | hk
          · exact hcl
          · exact hreaches.column k hk hk'
      · rw [hrow, Option.bind_eq_bind, Option.bind_none]
        refine .inr ⟨rfl, fun k hk hk' => ?_, fun i hi hi' => ?_⟩
        · rw [show k = j by omega]
          exact hcl
        · rw [show h - 1 = j by omega]
          exact (runLength_eq_iff _ cl (w - x) x).mp hrun i hi (by omega)
    · rw [if_pos hcl, if_pos hcl]
      exact .inl ⟨rfl, fun h => hcl (h.2.column j le_rfl hj)⟩

/-- A pixel that the loops of `subrectEncode` find not to be of the background, with the pixels as they are
then. -/
structure Visit (bpp : Bpp) where
  data : TileData bpp
  x : Nat
  y : Nat

/-- What the loops of `subrectEncode` visit, if there are `len` bytes in `rreAfterBuf`. -/
def rreVisits (kind : RreKind) (w h : Nat) (bg : Card bpp) (rreAfterBufSize : Nat) :
    List (Nat × Nat) → TileData bpp → (len : Nat) → List (Visit bpp)
  | [], _, _ => []
  | (x, y) :: cells, data, len =>
    if data x y = bg then rreVisits kind w h bg rreAfterBufSize cells data len
    else
      let (thew, theh) := biggerSubrect data w h x y
      let newLen := len + bpp.size + kind.size
      { data, x, y } ::
        if newLen > w * h * bpp.size ∨ newLen > rreAfterBufSize then []
        else rreVisits kind w h bg rreAfterBufSize cells (markDone data x y thew theh bg) newLen

theorem scanRows_bigger (data : TileData bpp) {w h x y : Nat} (hx : x < w) (hy : y < h) :
    (∃ s, scanRows data w h x (data x y) (h - y) y { hw := 0, hh := 0, vw := 0, vh := 0, hyflag := true } = some s ∧
        (if s.hw * s.hh > s.vw * s.vh then (s.hw, s.hh) else (s.vw, s.vh)) = biggerSubrect data w h x y ∧
        ¬ ReachesEnd data w h x y (data x y)) ∨
      scanRows data w h x (data x y) (h - y) y { hw := 0, hh := 0, vw := 0, vh := 0, hyflag := true } = none ∧
        ReachesEnd data w h x y (data x y) := by
  refine (scanRows_eq data (data x y) hx (Nat.add_sub_cancel' hy.le) _).imp ?_ id
  rintro ⟨heq, hnot⟩
  exact ⟨_, heq, rfl, fun h => hnot ⟨by omega, h⟩⟩

namespace Subrect

/-- The bytes of a subrectangle in the output. -/
def rreBytes (kind : RreKind) (s : Subrect bpp) : List UInt8 := s.colour.bytes ++ rreRectangle kind s.x s.y s.w s.h

theorem length_rreBytes (kind : RreKind) (s : Subrect bpp) : (s.rreBytes kind).length = bpp.size + kind.size := by
  simp only [rreBytes, rreRectangle, List.length_append, Card.length_bytes, length_beBytes, RreKind.size]
  omega

/-- No pixel is in both. -/
def Apart (s t : Subrect bpp) : Prop := ∀ i j, s.Has i j → ¬ t.Has i j

end Subrect

theorem length_flatMap_rreBytes (kind : RreKind) (subs : List (Subrect bpp)) :
    (subs.flatMap (Subrect.rreBytes kind)).length = subs.length * (bpp.size + kind.size) := by
  induction subs with
  | nil => simp
  | cons s subs ih =>
    rw [List.flatMap_cons, List.length_append, ih, Subrect.length_rreBytes, List.length_cons, Nat.succ_mul, Nat.add_comm]

theorem Covers.cons_bg {data : TileData bpp} {w h : Nat} {bg : Card bpp} {cell : Nat × Nat} {cells : List (Nat × Nat)}
    {subs : List (Subrect bpp)} (hcovers : Covers data w h bg cells subs) (hbg : data cell.1 cell.2 = bg) :
    Covers data w h bg (cell :: cells) subs := by
  refine ⟨hcovers.inside, hcovers.colour, fun c hc hdata => ?_, ?_⟩
  · rcases List.mem_cons.mp hc with rfl | hc
    · exact absurd hbg hdata
    · exact hcovers.all c hc hdata
  · exact hcovers.few.trans (List.countP_cons_of_neg (by simpa using hbg)).symm.le

/-- What covers the rest of a picture after a part is done is apart from that part. -/
theorem Covers.apart {data : TileData bpp} {x y tw th w h : Nat} {bg : Card bpp} {cells : List (Nat × Nat)}
    {subs : List (Subrect bpp)} (hcovers : Covers (markDone data x y tw th bg) w h bg cells subs) (cl : Card bpp) :
    ∀ s ∈ subs, Subrect.Apart { x, y, w := tw, h := th, colour := cl } s := by
  intro s hs i j hin hhas
  obtain ⟨hne, hu⟩ := hcovers.colour s hs
  have hcell := hu i j hhas.1 hhas.2.1 hhas.2.2.1 hhas.2.2.2
  unfold markDone at hcell
  rw [if_pos (show x ≤ i ∧ i < x + tw ∧ y ≤ j ∧ j < y + th from hin)] at hcell
  exact hne hcell.symm

section Loop

variable {kind : RreKind} {w h rreAfterBufSize x y : Nat} {bg : Card bpp} {cells : List (Nat × Nat)}
  {data : TileData bpp} {rreAfterBuf : List UInt8} {numsubs : Nat}

theorem rreLoop_bg (hx : x < w) (hy : y < h) (hbg : data x y = bg) :
    rreLoop kind w h bg rreAfterBufSize ((x, y) :: cells) data rreAfterBuf numsubs =
      rreLoop kind w h bg rreAfterBufSize cells data rreAfterBuf numsubs := by
  rw [rreLoop, seg_eq data hx hy, Option.bind_eq_bind, Option.bind_some, if_pos hbg]

theorem rreLoop_end (hx : x < w) (hy : y < h) (hne : data x y ≠ bg) (hend : ReachesEnd data w h x y (data x y)) :
    rreLoop kind w h bg rreAfterBufSize ((x, y) :: cells) data rreAfterBuf numsubs = none := by
  rw [rreLoop, seg_eq data hx hy, Option.bind_eq_bind, Option.bind_some, if_neg hne]
  rcases scanRows_bigger data hx hy with ⟨s, -, -, hnot⟩ | ⟨hscan, -⟩
  · exact absurd hend hnot
  · rw [hscan, Option.bind_eq_bind, Option.bind_none]

theorem rreLoop_subrect (hx : x < w) (hy : y < h) (hne : data x y ≠ bg)
    (hend : ¬ ReachesEnd data w h x y (data x y)) :
    rreLoop kind w h bg rreAfterBufSize ((x, y) :: cells) data rreAfterBuf numsubs =
      if rreAfterBuf.length + bpp.size + kind.size > w * h * bpp.size ∨
          rreAfterBuf.length + bpp.size + kind.size > rreAfterBufSize then some none
      else
        rreLoop kind w h bg rreAfterBufSize cells
          (markDone data x y (biggerSubrect data w h x y).1 (biggerSubrect data w h x y).2 bg)
          (rreAfterBuf ++ Subrect.rreBytes kind ⟨x, y, (biggerSubrect data w h x y).1, (biggerSubrect data w h x y).2,
            data x y⟩) (numsubs + 1) := by
  rw [rreLoop, seg_eq data hx hy, Option.bind_eq_bind, Option.bind_some, if_neg hne]
  rcases scanRows_bigger data hx hy with ⟨s, hscan, hbigger, -⟩ | ⟨-, h⟩
  · rw [hscan, Option.bind_eq_bind, Option.bind_some, hbigger]
    rfl
  · exact absurd h hend

/-- A visit that reaches the end leads out of the picture, and only such a visit does. -/
theorem rreLoop_none (hcells : ∀ c ∈ cells, c.1 < w ∧ c.2 < h) :
    rreLoop kind w h bg rreAfterBufSize cells data rreAfterBuf numsubs = none ↔
      ∃ v ∈ rreVisits kind w h bg rreAfterBufSize cells data rreAfterBuf.length,
        ReachesEnd v.data w h v.x v.y (v.data v.x v.y) := by
  induction cells generalizing data rreAfterBuf numsubs with
  | nil => simp [rreLoop, rreVisits]
  | cons cell cells ih =>
    obtain ⟨x, y⟩ := cell
    obtain ⟨⟨hx, hy⟩, hcells'⟩ := List.forall_mem_cons.mp hcells
    dsimp only at hx hy
    rw [rreVisits]
    by_cases hbg : data x y = bg
    · rw [rreLoop_bg hx hy hbg, if_pos hbg]
      exact ih hcells'
    · rw [if_neg hbg]
      dsimp only
      by_cases hend : ReachesEnd data w h x y (data x y)
      · rw [rreLoop_end hx hy hbg hend]
        exact ⟨fun _ => ⟨_, List.mem_cons_self, hend⟩, fun _ => rfl⟩
      · rw [rreLoop_subrect hx hy hbg hend, List.exists_mem_cons_iff]
        split
        · exact ⟨nofun, fun h => h.elim (fun h => absurd h hend) nofun⟩
        · rw [ih hcells', List.length_append, Subrect.length_rreBytes, Nat.add_assoc]
          exact ⟨.inr, fun h => h.resolve_left hend⟩

/-- What the loops give if they stay in the picture. -/
theorem rreLoop_spec (hcells : ∀ c ∈ cells, c.1 < w ∧ c.2 < h) {result : Option (Nat × List UInt8)}
    (hresult : rreLoop kind w h bg rreAfterBufSize cells data rreAfterBuf numsubs = some result) :
    result = none ∨ ∃ subs, result = some (numsubs + subs.length, rreAfterBuf ++ subs.flatMap (Subrect.rreBytes kind)) ∧
      Covers data w h bg cells subs ∧ subs.Pairwise Subrect.Apart ∧
      (subs ≠ [] → rreAfterBuf.length + (subs.flatMap (Subrect.rreBytes kind)).length ≤ w * h * bpp.size) := by
  induction cells generalizing data rreAfterBuf numsubs with
  | nil =>
    cases hresult
    exact .inr ⟨[], by simp, ⟨nofun, nofun, nofun, Nat.zero_le _⟩, .nil, fun h => absurd rfl h⟩
  | cons cell cells ih =>
    obtain ⟨x, y⟩ := cell
    obtain ⟨⟨hx, hy⟩, hcells'⟩ := List.forall_mem_cons.mp hcells
    dsimp only at hx hy
    by_cases hbg : data x y = bg
    · rw [rreLoop_bg hx hy hbg] at hresult
      refine (ih hcells' hresult).imp id ?_
      rintro ⟨subs, heq, hcovers, hapart⟩
      exact ⟨subs, heq, hcovers.cons_bg hbg, hapart⟩
    · by_cases hend : ReachesEnd data w h x y (data x y)
      · rw [rreLoop_end hx hy hbg hend] at hresult
        cases hresult
      · rw [rreLoop_subrect hx hy hbg hend] at hresult
        split at hresult
        · cases hresult
          exact .inl rfl
        · rename_i hfits
          obtain ⟨hw, hh, hxw, hyh, hu⟩ := biggerSubrect_spec data hx hy
          refine (ih hcells' hresult).imp id ?_
          rintro ⟨subs, heq, hcovers, hapart, hlen⟩
          refine ⟨_ :: subs, ?_, @Covers.cons _ _ _ _ _ (x, y) _ _ _ _ hcovers hbg hw hh hxw hyh hu,
            List.pairwise_cons.mpr ⟨hcovers.apart (data x y), hapart⟩, fun _ => ?_⟩
          · rw [heq, List.length_cons, List.flatMap_cons, List.append_assoc, Nat.add_assoc, Nat.add_comm 1]
          · rw [List.flatMap_cons, List.length_append, Subrect.length_rreBytes]
            rw [not_or, Nat.not_lt] at hfits
            by_cases hsubs : subs = []
            · subst hsubs
              rw [List.flatMap_nil, List.length_nil]
              omega
            · have hlen' := hlen hsubs
              rw [List.length_append, Subrect.length_rreBytes] at hlen'
              omega

end Loop

section Viewer

variable {β : Type}

theorem RreKind.maxSide_lt (kind : RreKind) : kind.maxSide < 256 ^ kind.coordSize := by
  cases kind <;> decide

theorem drawRreSubrects_spec {kind : RreKind} (shown : List UInt8 → β) (rx ry : Nat) {subs : List (Subrect bpp)}
    {w h : Nat} (hw : w ≤ kind.maxSide) (hh : h ≤ kind.maxSide)
    (hsubs : ∀ s ∈ subs, 0 < s.w ∧ 0 < s.h ∧ s.x + s.w ≤ w ∧ s.y + s.h ≤ h) (screen : Nat × Nat → β)
    (rest : List UInt8) :
    drawRreSubrects kind bpp.size shown rx ry subs.length screen (subs.flatMap (Subrect.rreBytes kind) ++ rest) =
      some (fun p => subs.foldl (fun c s => if s.At rx ry p then shown s.colour.bytes else c) (screen p), rest) := by
  induction subs generalizing screen with
  | nil => rfl
  | cons s subs ih =>
    obtain ⟨⟨hsw, hsh, hsx, hsy⟩, hsubs'⟩ := List.forall_mem_cons.mp hsubs
    have hmax := kind.maxSide_lt
    have hcoord : ∀ {n : Nat} (more : List UInt8),
        readBytes kind.coordSize (beBytes kind.coordSize n ++ more) = some (beBytes kind.coordSize n, more) :=
      fun more => readBytes_append (length_beBytes _ _) more
    rw [List.length_cons, drawRreSubrects, List.flatMap_cons, Subrect.rreBytes, rreRectangle]
    simp only [List.append_assoc]
    rw [readBytes_append s.colour.length_bytes]
    simp only [Option.bind_eq_bind, Option.bind_some, hcoord]
    rw [ofBeBytes_beBytes (by omega), ofBeBytes_beBytes (by omega), ofBeBytes_beBytes (by omega),
      ofBeBytes_beBytes (by omega)]
    exact ih hsubs' _

theorem handleRre_spec {kind : RreKind} (shown : List UInt8 → β) (rx ry : Nat) {subs : List (Subrect bpp)} {w h : Nat}
    (hw : w ≤ kind.maxSide) (hh : h ≤ kind.maxSide)
    (hsubs : ∀ s ∈ subs, 0 < s.w ∧ 0 < s.h ∧ s.x + s.w ≤ w ∧ s.y + s.h ≤ h) (hlen : subs.length < 2 ^ 32)
    (bg : Card bpp) (screen : Nat × Nat → β) (rest : List UInt8) :
    handleRre kind bpp.size shown rx ry w h screen
        (rreRect subs.length (bg.bytes ++ subs.flatMap (Subrect.rreBytes kind)) ++ rest) =
      some (fun p => subs.foldl (fun c s => if s.At rx ry p then shown s.colour.bytes else c)
        (fillRectangle screen rx ry w h (shown bg.bytes) p), rest) := by
  have hcount : ofBeBytes (beBytes 4 subs.length) = subs.length := ofBeBytes_beBytes hlen
  rw [handleRre, rreRect]
  simp only [List.append_assoc]
  rw [readBytes_append (length_beBytes 4 _), Option.bind_eq_bind, Option.bind_some, hcount]
  dsimp only
  rw [readBytes_append bg.length_bytes, Option.bind_eq_bind, Option.bind_some]
  cases kind with
  | rre => exact drawRreSubrects_spec shown rx ry hw hh hsubs _ rest
  | corre =>
    have hall : (subs.flatMap (Subrect.rreBytes .corre)).length = subs.length * (4 + bpp.size) := by
      rw [length_flatMap_rreBytes, Nat.add_comm]
      rfl
    have hdraw := drawRreSubrects_spec shown rx ry hw hh hsubs (fillRectangle screen rx ry w h (shown bg.bytes)) []
    rw [List.append_nil] at hdraw
    dsimp only
    rw [readBytes_append hall, Option.bind_some]
    dsimp only
    rw [hdraw]
    rfl

end Viewer

namespace RreInput

variable {kind : RreKind}

/-- What the loops of `subrectEncode` visit of a picture. -/
def visits (p : RreInput kind bpp) : List (Visit bpp) :=
  match getBgColour p.data p.w p.h with
  | some bg => rreVisits kind p.w p.h bg p.rreAfterBufSize (tileCells p.w p.h) p.data bpp.size
  | none => []

/-- The output is a background and subrectangles of the picture that are apart, and is no longer than it. -/
def Partitioned (p : RreInput kind bpp) (nSubrects : Nat) (rreAfterBuf : List UInt8) : Prop :=
  ∃ (bg : Card bpp) (subs : List (Subrect bpp)), nSubrects = subs.length ∧
    rreAfterBuf = bg.bytes ++ subs.flatMap (Subrect.rreBytes kind) ∧
    (∀ s ∈ subs, 0 < s.w ∧ 0 < s.h ∧ s.x + s.w ≤ p.w ∧ s.y + s.h ≤ p.h) ∧ subs.Pairwise Subrect.Apart ∧
    rreAfterBuf.length ≤ p.w * p.h * bpp.size

/-- The viewer shows the picture at any place of its window. -/
def Reproduced (p : RreInput kind bpp) (nSubrects : Nat) (rreAfterBuf : List UInt8) : Prop :=
  ∀ bgr233ToPixel rx ry screen rest,
    viewerHandleRre kind bpp bgr233ToPixel rx ry p.w p.h screen (rreRect nSubrects rreAfterBuf ++ rest) =
      some (tileShown (windowPixel bgr233ToPixel) p.data rx ry p.w p.h screen, rest)

end RreInput

theorem getBgColour_isSome (data : TileData bpp) {w h : Nat} (hw : 0 < w) (hh : 0 < h) :
    ∃ bg, getBgColour data w h = some bg := by
  cases bpp with
  | bpp8 => exact ⟨_, rfl⟩
  | bpp16 => exact ⟨_, seg_eq data hw hh⟩
  | bpp32 => exact ⟨_, seg_eq data hw hh⟩

/-- An empty picture is written as a background all the same, or has none. -/
theorem rreSubrectEncode_empty {kind : RreKind} {p : RreInput kind bpp} (hempty : p.w * p.h = 0) :
    rreSubrectEncode p = none ∨ ∃ bg : Card bpp, rreSubrectEncode p = some (some (0, bg.bytes)) := by
  have hcells : tileCells p.w p.h = [] := by
    rw [← List.length_eq_zero_iff, length_tileCells, hempty]
  rw [rreSubrectEncode, hcells]
  cases getBgColour p.data p.w p.h with
  | none => exact .inl rfl
  | some bg => exact .inr ⟨bg, rfl⟩

theorem Covers.reproduced {kind : RreKind} {p : RreInput kind bpp} {bg : Card bpp} {subs : List (Subrect bpp)}
    (hcovers : Covers p.data p.w p.h bg (tileCells p.w p.h) subs) (hlen : subs.length < 2 ^ 32) :
    p.Reproduced subs.length (bg.bytes ++ subs.flatMap (Subrect.rreBytes kind)) := by
  intro bgr233ToPixel rx ry screen rest
  rw [viewerHandleRre, handleRre_spec _ rx ry p.w_le p.h_le hcovers.inside hlen]
  congr 2
  funext q
  rw [Card.ofBytes_bytes]
  exact hcovers.shown (windowPixel bgr233ToPixel) _ (fun s _ => by rw [Card.ofBytes_bytes]) rx ry screen q

/-- Unless a pixel outside of the picture is examined, it is coded exactly or given up. One is examined
just if the picture is empty or a pixel that is visited reaches its end. -/
theorem rreSubrectEncode_exact {kind : RreKind} (p : RreInput kind bpp) :
    (∃ result, rreSubrectEncode p = some result ∧
      ∀ nSubrects rreAfterBuf, result = some (nSubrects, rreAfterBuf) →
        p.Partitioned nSubrects rreAfterBuf ∧ p.Reproduced nSubrects rreAfterBuf) ↔
      0 < p.w ∧ 0 < p.h ∧ ∀ v ∈ p.visits, ¬ ReachesEnd v.data p.w p.h v.x v.y (v.data v.x v.y) := by
  by_cases hpos : 0 < p.w ∧ 0 < p.h
  · obtain ⟨bg, hbg⟩ := getBgColour_isSome p.data hpos.1 hpos.2
    have hcells : ∀ c ∈ tileCells p.w p.h, c.1 < p.w ∧ c.2 < p.h := fun c hc => mem_tileCells.mp hc
    have hnone : rreLoop kind p.w p.h bg p.rreAfterBufSize (tileCells p.w p.h) p.data bg.bytes 0 = none ↔ _ :=
      rreLoop_none hcells
    rw [Card.length_bytes] at hnone
    rw [rreSubrectEncode, RreInput.visits, hbg, Option.bind_eq_bind, Option.bind_some]
    dsimp only
    constructor
    · rintro ⟨result, hresult, -⟩
      refine ⟨hpos.1, hpos.2, fun v hv hend => ?_⟩
      rw [hnone.mpr ⟨v, hv, hend⟩] at hresult
      cases hresult
    · rintro ⟨-, -, hvisits⟩
      obtain ⟨result, hresult⟩ := Option.ne_none_iff_exists'.mp fun h =>
        (hnone.mp h).elim fun v hv => hvisits v hv.1 hv.2
      refine ⟨result, hresult, fun nSubrects rreAfterBuf heq => ?_⟩
      subst heq
      rcases rreLoop_spec hcells hresult with h | ⟨subs, heq, hcovers, hapart, hlen⟩
      · cases h
      · rw [Nat.zero_add] at heq
        cases heq
        have harea : 0 < p.w * p.h * bpp.size := Nat.mul_pos (Nat.mul_pos hpos.1 hpos.2) bpp.size_pos
        have hmin : bpp.size ≤ p.w * p.h * bpp.size :=
          Nat.le_mul_of_pos_left bpp.size (Nat.mul_pos hpos.1 hpos.2)
        have hbound : (bg.bytes ++ subs.flatMap (Subrect.rreBytes kind)).length ≤ p.w * p.h * bpp.size := by
          rw [List.length_append, Card.length_bytes]
          by_cases hsubs : subs = []
          · subst hsubs
            simpa using hmin
          · have hlen' := hlen hsubs
            rwa [Card.length_bytes] at hlen'
        refine ⟨⟨bg, subs, rfl, rfl, hcovers.inside, hapart, hbound⟩, hcovers.reproduced ?_⟩
        have hfew : subs.length ≤ subs.length * (bpp.size + kind.size) :=
          Nat.le_mul_of_pos_right _ (Nat.add_pos_left bpp.size_pos _)
        have hfits := p.fits
        have hint := p.isInt
        rw [List.length_append, length_flatMap_rreBytes] at hbound
        omega
  · have hempty : p.w * p.h = 0 := by
      rw [Nat.mul_eq_zero]
      omega
    refine ⟨?_, fun h => absurd ⟨h.1, h.2.1⟩ hpos⟩
    rintro ⟨result, hresult, hcoded⟩
    rcases rreSubrectEncode_empty hempty with h | ⟨bg, h⟩
    · rw [h] at hresult
      cases hresult
    · rw [h] at hresult
      cases hresult
      obtain ⟨⟨bg', subs, -, -, -, -, hlen⟩, -⟩ := hcoded _ _ rfl
      have hsize := bpp.size_pos
      rw [Card.length_bytes, hempty, Nat.zero_mul] at hlen
      exact absurd hlen (Nat.not_le.mpr hsize)

/-- Two pixels at the end of a row that have a colour of their own. -/
def endingRun : RreInput .corre .bpp8 where
  data := fun i _ => if i < 6 then 0 else 1
  w := 8
  h := 1
  rreBeforeBufSize := 8
  rreAfterBufSize := 8
  w_le := by decide
  h_le := by decide
  fits := by decide
  fits_after := by decide
  isInt := by decide

theorem rreSubrectEncode_endingRun :
    ¬ ∃ result, rreSubrectEncode endingRun = some result ∧
      ∀ nSubrects rreAfterBuf, result = some (nSubrects, rreAfterBuf) →
        endingRun.Partitioned nSubrects rreAfterBuf ∧ endingRun.Reproduced nSubrects rreAfterBuf := by
  rintro ⟨result, hresult, -⟩
  have hnone : rreSubrectEncode endingRun = none := by decide
  rw [hnone] at hresult
  cases hresult

end Colama.Xvnc

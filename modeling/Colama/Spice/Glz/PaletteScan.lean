import Colama.Spice.Glz.Decode
import Colama.Spice.Lz.PaletteScan

namespace Colama.Spice.Glz.Decoder

open Lib
open Lz.Decoder (Template PltFormat)
open Lz.Decoder.PltFormat (OneByte)

/-- What the way of a decoder through its input depends on. -/
structure Place where
  ip : List UInt8
  op : Nat

def DecodeState.place {Pixel : Type} (s : DecodeState Pixel) : Place := ⟨s.ip, s.out.length⟩

/-- The number of the pixels that a reference to another image may reach. -/
def RefImages.refLength {Pixel : Type} (images : RefImages Pixel) (imageDist : UInt32) : Option Nat :=
  if images.window.imagesCapacity + images.imageWinId < imageDist.toNat then none
  else (images.window.images (images.window.refImageIndex images.imageWinId imageDist.toNat)).map fun image =>
    (images.data image).length

-- `scale` are the pixels of a byte, and `refLength` those of the other images
variable (scale : UInt32) (debug : Bool) (size : Int) (refLength : UInt32 → Option Nat)

/-- There is room for `n` pixels from `op` on. -/
def Room (op n : Nat) : Prop := (debug → (op : Int) + n ≤ size) ∧ (op : Int) + n ≤ max size op

instance (op n : Nat) : Decidable (Room debug size op n) := inferInstanceAs (Decidable (_ ∧ _))

def scanByte : Scan UInt8 Place UInt8 := fun u =>
  match u.ip with
  | [] => ([], none)
  | b :: ip => ([], some (b, ⟨ip, u.op⟩))

def forward (fits : Place → Prop) [DecidablePred fits] (n : Nat) : Scan UInt8 Place PUnit := fun u =>
  if fits u then ([], some (⟨⟩, ⟨u.ip, u.op + n⟩)) else ([], none)

def scanUnit : Scan UInt8 Place PUnit := do
  let byte ← scanByte
  Scan.emit byte
  forward (fun u => (u.op : Int) + scale.toNat ≤ max size u.op) scale.toNat

def scanLimit : Scan UInt8 Place PUnit := forward (fun u => debug → (u.op : Int) ≤ size) 0

def scanUnits : Nat → Scan UInt8 Place PUnit
  | 0 => pure ⟨⟩
  | n + 1 => do
    scanUnit scale size
    scanLimit debug size
    scanUnits n

def scanLiterals (ctrl : UInt32) : Scan UInt8 Place PUnit := do
  forward (fun u => debug → (u.op : Int) + ((ctrl + 1) * scale).toNat ≤ size) 0
  scanUnits scale debug size (ctrl + 1).toNat

/-- Where a reference goes has to be there. -/
def scanReference (ctrl : UInt32) : Scan UInt8 Place PUnit := fun u =>
  match decodeReference 2 scale ctrl u.ip with
  | none => ([], none)
  | some (r, ip) =>
    if r.imageDist = 0 then
      forward (fun u => r.pixelOfs.toNat ≤ u.op ∧ Room debug size u.op r.len.toNat) r.len.toNat ⟨ip, u.op⟩
    else match refLength r.imageDist with
      | none => ([], none)
      | some n =>
        forward (fun u => r.pixelOfs.toNat + r.len.toNat ≤ n ∧ Room debug size u.op r.len.toNat) r.len.toNat ⟨ip, u.op⟩

def scanRounds : Nat → UInt32 → Scan UInt8 Place PUnit
  | 0, _ => Scan.stop
  | n + 1, ctrl => do
    if ctrl ≥ 32 then scanReference scale debug size refLength ctrl else scanLiterals scale debug size ctrl
    let u ← Scan.look
    if (u.op : Int) < size then do
      let next ← scanByte
      scanRounds n next.toUInt32
    else pure ⟨⟩

def scanStream : Scan UInt8 Place Nat := do
  let u ← Scan.look
  let ctrl ← scanByte
  scanRounds scale debug size refLength (u.ip.length + 1) ctrl.toUInt32
  return u.ip.length - (← Scan.look).ip.length

/-- The bytes that the stream has for the units it does not refer to, as far as it is decoded. -/
def literalBytes (inBuf : List UInt8) : List UInt8 := (scanStream scale debug size refLength ⟨inBuf, 0⟩).1

section Guards

variable {t : Template} {scale : UInt32} {debug : Bool} {size : Int} {refLength : UInt32 → Option Nat}
  {old : Nat → t.Pixel} {images : RefImages t.Pixel} {ok : UInt8 → Prop} [DecidablePred ok] {s : DecodeState t.Pixel}
  {p q : Prop} {u v : Place}

/-- A program ends at a place if something fits, else with an error that is not one of the palette. -/
def EndsAt (fits : Prop) (u : Place) : EStateM.Result DecodeError (DecodeState t.Pixel) PUnit → Prop
  | .ok _ s => fits ∧ s.place = u
  | .error e _ => ¬fits ∧ e ≠ .outsidePalette

namespace EndsAt

theorem congr {r : EStateM.Result DecodeError (DecodeState t.Pixel) PUnit} (h : EndsAt p u r) (hpq : p ↔ q) :
    EndsAt q u r := by
  cases r with
  | ok a s => exact ⟨hpq.mp h.1, h.2⟩
  | error e s => exact ⟨fun hq => h.1 (hpq.mpr hq), h.2⟩

/-- What the second program ends at need only be known where the first one fits. -/
theorem seq {x y : Dec t PUnit} (hx : EndsAt p u (x s)) (hy : p → ∀ s', s'.place = u → EndsAt q v (y s')) :
    EndsAt (p ∧ q) v ((do x; y) s) := by
  cases hrun : x s with
  | ok a s' =>
    have hseq : (do x; y) s = y s' := by simp only [bind, EStateM.bind, hrun]
    rw [hrun] at hx
    rw [hseq]
    exact (hy hx.1 s' hx.2).congr (and_iff_right hx.1).symm
  | error e s' =>
    have hseq : (do x; y) s = .error e s' := by simp only [bind, EStateM.bind, hrun]
    rw [hrun] at hx
    rw [hseq]
    exact ⟨fun h => hx.1 h.1, hx.2⟩

omit [DecidablePred ok] in
theorem guards [Decidable p] {x : Dec t PUnit} {g : Scan UInt8 Place PUnit} (h : EndsAt p u (x s))
    (hscan : g s.place = if p then ([], some (⟨⟩, u)) else ([], none)) :
    Guards DecodeState.place ok .outsidePalette s x x g := by
  cases hrun : x s with
  | ok a s' =>
    rw [hrun] at h
    refine .of_ok hrun ?_
    rw [hscan, if_pos h.1, h.2]
  | error e s' =>
    rw [hrun] at h
    refine .of_error hrun h.2 ?_
    rw [hscan, if_neg h.1]

end EndsAt

theorem glzAssert_endsAt [Decidable p] : EndsAt (debug → p) s.place (glzAssert t debug p s) := by
  by_cases h : debug ∧ ¬p
  · rw [glzAssert, if_pos h]
    exact ⟨fun hp => h.2 (hp h.1), nofun⟩
  · rw [glzAssert, if_neg h]
    exact ⟨fun hd => by_contra fun hp => h ⟨hd, hp⟩, rfl⟩

theorem inBuffer_endsAt [Decidable p] : EndsAt p s.place (inBuffer t p s) := by
  by_cases h : p
  · rw [inBuffer, if_pos h]
    exact ⟨h, rfl⟩
  · rw [inBuffer, if_neg h]
    exact ⟨h, nofun⟩

theorem assertLimit_endsAt : EndsAt (debug → (s.out.length : Int) ≤ size) s.place (assertLimit t debug size s) :=
  glzAssert_endsAt

theorem store_endsAt (b : t.Pixel) :
    EndsAt ((s.out.length : Int) < size) ⟨s.ip, s.out.length + 1⟩ (store t size old b s) := by
  by_cases h : (s.out.length : Int) < size
  · rw [store, if_pos h]
    refine ⟨h, ?_⟩
    rw [DecodeState.place, List.length_append, List.length_singleton]
  · rw [store, if_neg h]
    exact ⟨h, nofun⟩

theorem place_eq {ip : List UInt8} {op : Nat} (h : s.place = ⟨ip, op⟩) : s.ip = ip ∧ s.out.length = op :=
  Place.mk.inj h

/-- A pixel, and the assertion after it. -/
theorem storeNext_endsAt (b : t.Pixel) {y : Dec t PUnit}
    (hy : ∀ s', s'.place = ⟨s.ip, s.out.length + 1⟩ → EndsAt q v (y s')) :
    EndsAt ((s.out.length : Int) < size ∧ q) v ((do store t size old b; assertLimit t debug size; y) s) := by
  refine (EndsAt.seq (store_endsAt b) fun hlt s' hs' => ?_).congr Iff.rfl
  refine (EndsAt.seq assertLimit_endsAt fun _ s'' hs'' => hy s'' (hs''.trans hs')).congr (and_iff_right fun _ => ?_)
  have := (place_eq hs').2
  omega

variable (debug size old) in
theorem copyRunOf_endsAt (b : t.Pixel) (n : Nat) (s : DecodeState t.Pixel) :
    EndsAt ((s.out.length : Int) + n ≤ max size s.out.length) ⟨s.ip, s.out.length + n⟩
      (copyRunOf t debug size old b n s) := by
  induction n generalizing s with
  | zero => exact ⟨by omega, rfl⟩
  | succ n ih =>
    have hrest (s' : DecodeState t.Pixel) (hs' : s'.place = ⟨s.ip, s.out.length + 1⟩) :
        EndsAt ((s.out.length + 1 : Nat) + (n : Int) ≤ max size (s.out.length + 1 : Nat))
          ⟨s.ip, s.out.length + (n + 1)⟩ (copyRunOf t debug size old b n s') := by
      obtain ⟨hip, hop⟩ := place_eq hs'
      have h := ih s'
      rwa [hip, hop, Nat.add_right_comm, Nat.add_assoc] at h
    refine (storeNext_endsAt b hrest).congr ?_
    omega

/-- The pixels that a copy from `ref` on finds: in its own image it stays behind what it writes. -/
def Reaches (image : Option (List t.Pixel)) (op ref n : Nat) : Prop :=
  match image with
  | none => ref < op
  | some pixels => ref + n ≤ pixels.length

theorem readRef_ok (s : DecodeState t.Pixel) (image : Option (List t.Pixel)) {ref : Nat} (h : Reaches image s.out.length ref 1) :
    ∃ b, readRef t image ref s = .ok b s := by
  have hlt : ref < (image.getD s.out).length := by
    cases image with
    | none => exact h
    | some pixels => exact h
  refine ⟨(image.getD s.out)[ref], ?_⟩
  rw [readRef, List.getElem?_eq_getElem hlt]

theorem readRef_error {image : Option (List t.Pixel)} {ref : Nat} (h : ¬Reaches image s.out.length ref 1) :
    readRef t image ref s = .error .outsideBuffer s := by
  have hle : (image.getD s.out).length ≤ ref := by
    cases image with
    | none => exact Nat.not_lt.mp h
    | some pixels => exact Nat.not_lt.mp h
  rw [readRef, List.getElem?_eq_none hle]

theorem Reaches.next {image : Option (List t.Pixel)} {op ref : Nat} (h : Reaches image op ref 1) :
    Reaches image (op + 1) (ref + 1) 0 := by
  cases image with
  | none => exact Nat.succ_lt_succ h
  | some pixels => exact h

theorem Reaches.succ_iff {image : Option (List t.Pixel)} {op ref n : Nat} (h : Reaches image op ref 0) :
    Reaches image op ref (n + 1) ↔ Reaches image op ref 1 ∧ Reaches image (op + 1) (ref + 1) n := by
  cases image with
  | none => exact ⟨fun h => ⟨h, Nat.succ_lt_succ h⟩, fun h => h.1⟩
  | some pixels =>
    simp only [Reaches]
    omega

variable (debug size old) in
theorem copyFrom_endsAt (image : Option (List t.Pixel)) (n ref : Nat) (s : DecodeState t.Pixel)
    (h : Reaches image s.out.length ref 0) :
    EndsAt (Reaches image s.out.length ref n ∧ (s.out.length : Int) + n ≤ max size s.out.length)
      ⟨s.ip, s.out.length + n⟩ (copyFrom t debug size old image n ref s) := by
  induction n generalizing s ref with
  | zero => exact ⟨⟨h, by omega⟩, rfl⟩
  | succ n ih =>
    by_cases hone : Reaches image s.out.length ref 1
    · obtain ⟨b, hread⟩ := readRef_ok s image hone
      have hrest (s' : DecodeState t.Pixel) (hs' : s'.place = ⟨s.ip, s.out.length + 1⟩) :
          EndsAt (Reaches image (s.out.length + 1) (ref + 1) n ∧
              (s.out.length + 1 : Nat) + (n : Int) ≤ max size (s.out.length + 1 : Nat))
            ⟨s.ip, s.out.length + (n + 1)⟩ (copyFrom t debug size old image n (ref + 1) s') := by
        obtain ⟨hip, hop⟩ := place_eq hs'
        have hnext := ih (ref + 1) s' (hop ▸ hone.next)
        rwa [hip, hop, Nat.add_right_comm, Nat.add_assoc] at hnext
      have hrun : copyFrom t debug size old image (n + 1) ref s =
          (do store t size old b; assertLimit t debug size; copyFrom t debug size old image n (ref + 1)) s := by
        simp only [copyFrom, bind, EStateM.bind, hread]
      rw [hrun]
      refine (storeNext_endsAt b hrest).congr ?_
      rw [h.succ_iff]
      constructor
      · rintro ⟨hlt, hreach, hroom⟩
        exact ⟨⟨hone, hreach⟩, by omega⟩
      · rintro ⟨⟨-, hreach⟩, hroom⟩
        exact ⟨by omega, hreach, by omega⟩
    · have hrun : copyFrom t debug size old image (n + 1) ref s = .error .outsideBuffer s := by
        simp only [copyFrom, bind, EStateM.bind, readRef_error hone]
      rw [hrun, h.succ_iff]
      exact ⟨fun hfits => hone hfits.1.1, nofun⟩

variable (debug size old) in
theorem copyBack_endsAt (s : DecodeState t.Pixel) (len : Nat) {ofs : Nat} (hofs : 0 < ofs) (hback : ofs ≤ s.out.length) :
    EndsAt ((s.out.length : Int) + len ≤ max size s.out.length) ⟨s.ip, s.out.length + len⟩
      ((if ofs = 1 then do
          let b ← readRef t none (s.out.length - ofs)
          copyRunOf t debug size old b len
        else copyFrom t debug size old none len (s.out.length - ofs)) s) := by
  have hreach : Reaches (none : Option (List t.Pixel)) s.out.length (s.out.length - ofs) len := Nat.sub_lt (by omega) hofs
  by_cases hone : ofs = 1
  · obtain ⟨b, hread⟩ := readRef_ok s none hreach
    have hrun : (do
        let b ← readRef t none (s.out.length - ofs)
        copyRunOf t debug size old b len) s = copyRunOf t debug size old b len s := by
      simp only [bind, EStateM.bind, hread]
    rw [if_pos hone, hrun]
    exact copyRunOf_endsAt debug size old b len s
  · rw [if_neg hone]
    exact (copyFrom_endsAt debug size old none len _ s hreach).congr (and_iff_right hreach)

variable (debug size old) in
theorem copyHere_endsAt (s : DecodeState t.Pixel) (len : Nat) {ofs : Nat} (hofs : 0 < ofs) :
    EndsAt (ofs ≤ s.out.length ∧ Room debug size s.out.length len) ⟨s.ip, s.out.length + len⟩
      (copyHere t debug size old len ofs s) := by
  have hlast (hback : ofs ≤ s.out.length) (s' : DecodeState t.Pixel) (hs' : s'.place = s.place) := by
    obtain ⟨hip, hop⟩ := place_eq hs'
    have h := copyBack_endsAt debug size old s' len hofs (by omega)
    rwa [hip, hop] at h
  refine EndsAt.congr (EndsAt.seq glzAssert_endsAt fun _ s₁ h₁ => EndsAt.seq glzAssert_endsAt fun _ s₂ h₂ =>
    EndsAt.seq inBuffer_endsAt fun hback s₃ h₃ => EndsAt.seq glzAssert_endsAt fun _ s₄ h₄ =>
      hlast hback s₄ (h₄.trans (h₃.trans (h₂.trans h₁)))) ?_
  rw [Room]
  constructor
  · rintro ⟨-, -, hback, hassert, hroom⟩
    exact ⟨hback, hassert, hroom⟩
  · rintro ⟨hback, hassert, hroom⟩
    exact ⟨fun hd => by have := hassert hd; omega, fun _ => hback, hback, hassert, hroom⟩

variable (debug size old) in
theorem copyThere_endsAt (s : DecodeState t.Pixel) (pixels : List t.Pixel) (len ofs : Nat) :
    EndsAt (ofs + len ≤ pixels.length ∧ Room debug size s.out.length len) ⟨s.ip, s.out.length + len⟩
      (copyThere t debug size old pixels len ofs s) := by
  have hlast (hofs : ofs ≤ pixels.length) (s' : DecodeState t.Pixel) (hs' : s'.place = s.place) := by
    obtain ⟨hip, hop⟩ := place_eq hs'
    have h := copyFrom_endsAt debug size old (some pixels) len ofs s' hofs
    rwa [hip, hop] at h
  refine EndsAt.congr (EndsAt.seq inBuffer_endsAt fun hofs s₁ h₁ => EndsAt.seq glzAssert_endsAt fun _ s₂ h₂ =>
    hlast hofs s₂ (h₂.trans h₁)) ?_
  rw [Room, Reaches]
  constructor
  · rintro ⟨-, hassert, hreach, hroom⟩
    exact ⟨hreach, hassert, hroom⟩
  · rintro ⟨hreach, hassert, hroom⟩
    exact ⟨by omega, hassert, hreach, hroom⟩

theorem toNat_add_le (a b : UInt32) : (a + b).toNat ≤ a.toNat + b.toNat := by
  rw [UInt32.toNat_add]
  exact Nat.mod_le _ _

theorem toNat_shiftLeft_le (a : UInt8) (k : UInt32) : (a.toUInt32 <<< k).toNat ≤ 255 * 2 ^ (k.toNat % 32) := by
  rw [UInt32.toNat_shiftLeft, Nat.shiftLeft_eq, UInt8.toNat_toUInt32]
  exact (Nat.mod_le _ _).trans (Nat.mul_le_mul_right _ (Nat.le_of_lt_succ a.toNat_lt))

theorem toNat_low_le (ctrl : UInt32) : (ctrl &&& (15 : UInt32)).toNat ≤ 15 := by
  rw [UInt32.toNat_and]
  exact Nat.and_le_right

/-- An offset stays far from where a product of it would wrap around. -/
theorem decodeDistance_lt {ctrl pixelOfs imageDist : UInt32} {ip ip' : List UInt8}
    (h : decodeDistance ctrl ip = some (pixelOfs, imageDist, ip')) : pixelOfs.toNat < 2 ^ 27 := by
  match ip, h with
  | low :: code :: ip, h =>
    have hlow := toNat_low_le ctrl
    have hfour : (low.toUInt32 <<< (4 : UInt32)).toNat ≤ 255 * 2 ^ 4 := toNat_shiftLeft_le low 4
    have htwelve : ((code &&& 0x1f).toUInt32 <<< (12 : UInt32)).toNat ≤ 255 * 2 ^ 12 := toNat_shiftLeft_le _ 12
    have hshort := toNat_add_le (ctrl &&& (15 : UInt32)) (low.toUInt32 <<< (4 : UInt32))
    have hlong := toNat_add_le ((ctrl &&& (15 : UInt32)) + low.toUInt32 <<< (4 : UInt32))
      ((code &&& 0x1f).toUInt32 <<< (12 : UInt32))
    rw [decodeDistance] at h
    dsimp only at h
    generalize (ctrl &&& (15 : UInt32)) + low.toUInt32 <<< (4 : UInt32) = short at h hshort hlong
    generalize short + (code &&& 0x1f).toUInt32 <<< (12 : UInt32) = long at h hlong
    by_cases hflag : (ctrl >>> 4) &&& 1 = 0
    · rw [if_pos hflag] at h
      obtain ⟨⟨dist, rest⟩, -, h⟩ := Option.bind_eq_some_iff.mp h
      obtain ⟨rfl, -⟩ := Prod.mk.inj (Option.some.inj h)
      omega
    · rw [if_neg hflag] at h
      obtain ⟨⟨dist, rest⟩, -, h⟩ := Option.bind_eq_some_iff.mp h
      dsimp only at h
      by_cases hvery : (code >>> 5) &&& 1 = 0
      · rw [if_pos hvery] at h
        obtain ⟨rfl, -⟩ := Prod.mk.inj (Option.some.inj h)
        omega
      · rw [if_neg hvery] at h
        cases rest with
        | nil => cases h
        | cons high rest =>
          obtain ⟨rfl, -⟩ := Prod.mk.inj (Option.some.inj h)
          have hhigh : (high.toUInt32 <<< (17 : UInt32)).toNat ≤ 255 * 2 ^ 17 := toNat_shiftLeft_le high 17
          have := toNat_add_le long (high.toUInt32 <<< (17 : UInt32))
          omega

/-- A reference inside the image goes back by at least one pixel. -/
theorem decodeReference_pixelOfs_pos {lenBias ctrl : UInt32} {ip ip' : List UInt8} {r : Reference}
    (hpos : 1 ≤ scale.toNat) (hle : scale.toNat ≤ 8) (h : decodeReference lenBias scale ctrl ip = some (r, ip'))
    (hdist : r.imageDist = 0) : 0 < r.pixelOfs.toNat := by
  rw [decodeReference] at h
  obtain ⟨⟨len, rest⟩, -, h⟩ := Option.bind_eq_some_iff.mp h
  obtain ⟨⟨pixelOfs, imageDist, rest'⟩, hd, h⟩ := Option.bind_eq_some_iff.mp h
  cases h
  have hlt := decodeDistance_lt hd
  have hone : (pixelOfs + 1).toNat = pixelOfs.toNat + 1 := by
    rw [UInt32.toNat_add]
    exact Nat.mod_eq_of_lt (by simp only [UInt32.reduceToNat]; omega)
  have hmul : (pixelOfs.toNat + 1) * scale.toNat ≤ 2 ^ 27 * 8 := Nat.mul_le_mul hlt hle
  dsimp only at hdist ⊢
  rw [if_pos hdist, UInt32.toNat_mul, hone, Nat.mod_eq_of_lt (by omega)]
  exact Nat.mul_pos (Nat.succ_pos _) hpos

variable (images) in
theorem getRefPixels_run (s : DecodeState t.Pixel) (imageDist : UInt32) :
    match images.refLength imageDist with
    | none => ∃ e s', getRefPixels t images imageDist s = .error e s' ∧ e ≠ .outsidePalette
    | some n => ∃ pixels, getRefPixels t images imageDist s = .ok pixels s ∧ pixels.length = n := by
  by_cases hfar : images.window.imagesCapacity + images.imageWinId < imageDist.toNat
  · rw [RefImages.refLength, if_pos hfar, getRefPixels, if_pos hfar]
    exact ⟨.outsideWindow, s, rfl, nofun⟩
  · rw [RefImages.refLength, if_neg hfar, getRefPixels, if_neg hfar]
    cases images.window.images (images.window.refImageIndex images.imageWinId imageDist.toNat) with
    | none => exact ⟨.missingImage, s, rfl, nofun⟩
    | some image => exact ⟨images.data image, rfl, rfl⟩

theorem reference_stop {ctrl : UInt32} (h : decodeReference (t.lenBias - 1) t.scale ctrl s.ip = none) :
    reference t debug size old images ctrl s = .error .endOfInput s := by
  change (match decodeReference (t.lenBias - 1) t.scale ctrl s.ip with
    | none => throw .endOfInput
    | some (r, ip) => _ : Dec t PUnit) s = _
  rw [h]
  rfl

variable (debug size old images) in
theorem reference_run {ctrl : UInt32} {r : Reference} {ip : List UInt8}
    (h : decodeReference (t.lenBias - 1) t.scale ctrl s.ip = some (r, ip)) :
    reference t debug size old images ctrl s =
      (if r.imageDist = 0 then copyHere t debug size old r.len.toNat r.pixelOfs.toNat
        else do
          let pixels ← getRefPixels t images r.imageDist
          copyThere t debug size old pixels r.len.toNat r.pixelOfs.toNat : Dec t PUnit) ⟨ip, s.out⟩ := by
  change (match decodeReference (t.lenBias - 1) t.scale ctrl s.ip with
    | none => throw .endOfInput
    | some (r, ip) => _ : Dec t PUnit) s = _
  rw [h]
  rfl

omit [DecidablePred ok] in
theorem reference_guards (h : OneByte t) (ctrl : UInt32) :
    Guards DecodeState.place ok .outsidePalette s (reference t debug size old images ctrl)
      (reference t debug size old images ctrl) (scanReference t.scale debug size images.refLength ctrl) := by
  have hbias : t.lenBias - 1 = 2 := by rw [h.lenBias]; rfl
  cases hr : decodeReference 2 t.scale ctrl s.ip with
  | none =>
    exact .of_error (reference_stop (hbias ▸ hr)) nofun (by rw [scanReference, DecodeState.place, hr])
  | some r =>
    obtain ⟨r, ip⟩ := r
    have hrun := reference_run debug size old images (hbias ▸ hr)
    have hscan : scanReference t.scale debug size images.refLength ctrl s.place =
        (if r.imageDist = 0 then
          forward (fun u => r.pixelOfs.toNat ≤ u.op ∧ Room debug size u.op r.len.toNat) r.len.toNat ⟨ip, s.out.length⟩
        else match images.refLength r.imageDist with
          | none => ([], none)
          | some n => forward (fun u => r.pixelOfs.toNat + r.len.toNat ≤ n ∧ Room debug size u.op r.len.toNat)
              r.len.toNat ⟨ip, s.out.length⟩) := by
      rw [scanReference, DecodeState.place, hr]
    by_cases hdist : r.imageDist = 0
    · have hofs := decodeReference_pixelOfs_pos t.scale_pos t.scale_le hr hdist
      simp only [if_pos hdist] at hrun hscan
      have hends := copyHere_endsAt debug size old ⟨ip, s.out⟩ r.len.toNat hofs
      rw [← hrun] at hends
      exact hends.guards hscan
    · have hpixels := getRefPixels_run images ⟨ip, s.out⟩ r.imageDist
      simp only [if_neg hdist] at hrun hscan
      cases hlen : images.refLength r.imageDist with
      | none =>
        rw [hlen] at hpixels hscan
        obtain ⟨e, s', hget, he⟩ := hpixels
        simp only [bind, EStateM.bind, hget] at hrun
        exact .of_error hrun he hscan
      | some n =>
        rw [hlen] at hpixels hscan
        obtain ⟨pixels, hget, rfl⟩ := hpixels
        simp only [bind, EStateM.bind, hget] at hrun
        have hends := copyThere_endsAt debug size old ⟨ip, s.out⟩ pixels r.len.toNat r.pixelOfs.toNat
        rw [← hrun] at hends
        exact hends.guards hscan

section Same

variable (t) (debug) (size) (old) (images) (check : List UInt8 → Prop) [DecidablePred check]

theorem copyRunOf_guard (b : t.Pixel) (n : Nat) :
    copyRunOf (t.guard check) debug size old b n = copyRunOf t debug size old b n := by
  induction n with
  | zero => rfl
  | succ n ih =>
    exact congrArg (fun rest => store t size old b >>= fun _ => assertLimit t debug size >>= fun _ => rest) ih

theorem readRef_guard (image : Option (List t.Pixel)) (ref : Nat) :
    readRef (t.guard check) image ref = readRef t image ref := by
  funext s
  cases hb : (image.getD s.out)[ref]? with
  | none => simp only [readRef, hb]
  | some b => simp only [readRef, hb]

theorem copyFrom_guard (image : Option (List t.Pixel)) (n ref : Nat) :
    copyFrom (t.guard check) debug size old image n ref = copyFrom t debug size old image n ref := by
  induction n generalizing ref with
  | zero => rfl
  | succ n ih =>
    refine congrArg₂ (· >>= ·) (readRef_guard t check image ref) (funext fun b => ?_)
    exact congrArg (fun rest => store t size old b >>= fun _ => assertLimit t debug size >>= fun _ => rest) (ih (ref + 1))

theorem copyHere_guard (len ofs : Nat) :
    copyHere (t.guard check) debug size old len ofs = copyHere t debug size old len ofs := by
  refine congrArg (get >>= ·) (funext fun s => congrArg (glzAssert t debug _ >>= ·) (funext fun _ => ?_))
  refine congrArg (glzAssert t debug _ >>= ·) (funext fun _ => congrArg (inBuffer t _ >>= ·) (funext fun _ => ?_))
  refine congrArg (glzAssert t debug _ >>= ·) (funext fun _ => ite_congr rfl (fun _ => ?_) fun _ => ?_)
  · exact congrArg₂ (· >>= ·) (readRef_guard t check none _)
      (funext fun b => copyRunOf_guard t debug size old check b len)
  · exact copyFrom_guard t debug size old check none _ _

theorem copyThere_guard (pixels : List t.Pixel) (len ofs : Nat) :
    copyThere (t.guard check) debug size old pixels len ofs = copyThere t debug size old pixels len ofs := by
  refine congrArg (get >>= ·) (funext fun s => congrArg (inBuffer t _ >>= ·) (funext fun _ => ?_))
  refine congrArg (glzAssert t debug _ >>= ·) (funext fun _ => ?_)
  exact copyFrom_guard t debug size old check (some pixels) _ _

theorem reference_guard (ctrl : UInt32) :
    reference (t.guard check) debug size old images ctrl = reference t debug size old images ctrl := by
  funext s
  have hlen : decodeReference ((t.guard check).lenBias - 1) (t.guard check).scale ctrl s.ip =
      decodeReference (t.lenBias - 1) t.scale ctrl s.ip := rfl
  cases hr : decodeReference (t.lenBias - 1) t.scale ctrl s.ip with
  | none => rw [reference_stop hr, reference_stop (t := t.guard check) (hlen.trans hr)]
  | some r =>
    rw [reference_run debug size old images hr,
      reference_run (t := t.guard check) debug size old images (hlen.trans hr)]
    refine congrFun (ite_congr rfl (fun _ => copyHere_guard t debug size old check _ _) fun _ => ?_) _
    exact congrArg (getRefPixels t images r.1.imageDist >>= ·)
      (funext fun pixels => copyThere_guard t debug size old check pixels _ _)

end Same

omit [DecidablePred ok] in
theorem scanByte_guards :
    Guards DecodeState.place ok .outsidePalette s (decodeByte t) (decodeByte t) scanByte := by
  cases hip : s.ip with
  | nil =>
    have hrun : decodeByte t s = .error .endOfInput s := by rw [decodeByte, hip]
    exact .of_error hrun nofun (by rw [scanByte, DecodeState.place, hip])
  | cons b ip =>
    have hrun : decodeByte t s = .ok b ⟨ip, s.out⟩ := by rw [decodeByte, hip]
    refine .of_ok hrun ?_
    rw [scanByte, DecodeState.place, hip]
    rfl

variable (size old) in
theorem forM_store_endsAt (ps : List t.Pixel) (s : DecodeState t.Pixel) :
    EndsAt ((s.out.length : Int) + ps.length ≤ max size s.out.length) ⟨s.ip, s.out.length + ps.length⟩
      (ps.forM (store t size old) s) := by
  induction ps generalizing s with
  | nil => exact ⟨by simp, rfl⟩
  | cons p ps ih =>
    have hrest (s' : DecodeState t.Pixel) (hs' : s'.place = ⟨s.ip, s.out.length + 1⟩) :
        EndsAt ((s.out.length + 1 : Nat) + (ps.length : Int) ≤ max size (s.out.length + 1 : Nat))
          ⟨s.ip, s.out.length + (p :: ps).length⟩ (ps.forM (store t size old) s') := by
      obtain ⟨hip, hop⟩ := place_eq hs'
      have h := ih s'
      rwa [hip, hop, Nat.add_assoc, Nat.add_comm 1] at h
    refine (EndsAt.seq (store_endsAt p) fun _ s' hs' => hrest s' hs').congr ?_
    rw [List.length_cons]
    omega

variable (size old) in
theorem copyCompPixel_eq (h : t.bytes = 1) : copyCompPixel t size old = (do
    let byte ← decodeByte t
    match t.comp [byte] with
    | none => throw .outsidePalette
    | some ps => ps.forM (store t size old)) := by
  funext s
  cases hip : s.ip with
  | nil => simp only [copyCompPixel, h, decodeBytes, bind, EStateM.bind, decodeByte, hip]
  | cons b ip =>
    simp only [copyCompPixel, h, decodeBytes, bind, EStateM.bind, decodeByte, hip, pure, EStateM.pure] <;> rfl

theorem forM_store_guard (check : List UInt8 → Prop) [DecidablePred check] (ps : List t.Pixel) :
    (ps.forM (store (t.guard check) size old) : Dec t PUnit) = ps.forM (store t size old) := by
  induction ps with
  | nil => rfl
  | cons p ps ih => exact congrArg (fun rest => store t size old p >>= fun _ => rest) ih

/-- A unit whose byte is not good stops the checked decoder. -/
theorem copyCompPixel_guards (h : OneByte t) :
    Guards DecodeState.place ok .outsidePalette s (copyCompPixel (t.guard fun bs => ok (bs.getD 0 0)) size old)
      (copyCompPixel t size old) (scanUnit t.scale size) := by
  rw [copyCompPixel_eq size old h.bytes]
  have hguard := copyCompPixel_eq (t := t.guard fun bs => ok (bs.getD 0 0)) size old h.bytes
  rw [hguard]
  refine .seq scanByte_guards fun byte s' _ => ?_
  obtain ⟨ps, hps⟩ := h.total byte
  have hends := forM_store_endsAt size old ps s'
  rw [t.comp_length hps] at hends
  have hcomp : (t.guard fun bs => ok (bs.getD 0 0)).comp [byte] = if ok byte then some ps else none := by
    rw [← hps]
    rfl
  rw [hps, hcomp]
  refine .check (fun hok => ?_) (fun hbad s => ?_) (hends.guards rfl)
  · rw [if_pos hok]
    exact forM_store_guard _ ps
  · rw [if_neg hbad]
    rfl

variable (ok debug size old) in
theorem copyComps_guards (s : DecodeState t.Pixel) (h : OneByte t) (n : Nat) :
    Guards DecodeState.place ok .outsidePalette s (copyComps (t.guard fun bs => ok (bs.getD 0 0)) debug size old n)
      (copyComps t debug size old n) (scanUnits t.scale debug size n) := by
  induction n generalizing s with
  | zero => exact .ret _
  | succ n ih =>
    exact .seq (copyCompPixel_guards h) fun _ _ _ => .seq (assertLimit_endsAt.guards rfl) fun _ s' _ => ih s'

theorem literals_guards (h : OneByte t) (ctrl : UInt32) :
    Guards DecodeState.place ok .outsidePalette s (literals (t.guard fun bs => ok (bs.getD 0 0)) debug size old ctrl)
      (literals t debug size old ctrl) (scanLiterals t.scale debug size ctrl) := by
  have hassert : Guards DecodeState.place ok .outsidePalette s (glzAssert t debug _) (glzAssert t debug _)
      (forward (fun u => debug → (u.op : Int) + ((ctrl + 1) * t.scale).toNat ≤ size) 0) := glzAssert_endsAt.guards rfl
  have hseq := hassert.seq fun _ s' _ => copyComps_guards debug size old ok s' h (ctrl + 1).toNat
  exact ⟨hseq.faults, hseq.agrees, hseq.ends⟩

theorem decodeRounds_guards (h : OneByte t) (n : Nat) (ctrl : UInt32) :
    Guards DecodeState.place ok .outsidePalette s
      (decodeRounds (t.guard fun bs => ok (bs.getD 0 0)) debug size old images n ctrl)
      (decodeRounds t debug size old images n ctrl) (scanRounds t.scale debug size images.refLength n ctrl) := by
  induction n generalizing ctrl s with
  | zero => exact .raise nofun
  | succ n ih =>
    have hnext (s : DecodeState t.Pixel) : Guards DecodeState.place ok .outsidePalette s
        (do
          let s ← get
          if (s.out.length : Int) < size then do
            let next ← decodeByte t
            decodeRounds (t.guard fun bs => ok (bs.getD 0 0)) debug size old images n next.toUInt32
          else pure ())
        (do
          let s ← get
          if (s.out.length : Int) < size then do
            let next ← decodeByte t
            decodeRounds t debug size old images n next.toUInt32
          else pure ())
        (do
          let u ← Scan.look
          if (u.op : Int) < size then do
            let next ← scanByte
            scanRounds t.scale debug size images.refLength n next.toUInt32
          else pure ⟨⟩) :=
      .read (.split Iff.rfl (fun _ => .seq scanByte_guards fun next _ _ => ih next.toUInt32) fun _ => .ret _)
    rw [decodeRounds, decodeRounds, reference_guard]
    refine .split Iff.rfl (fun _ => ?_) fun _ => ?_
    · exact .seq (reference_guards h ctrl) fun _ s' _ => hnext s'
    · exact .seq (literals_guards h ctrl) fun _ s' _ => hnext s'

variable (debug size old images ok) in
theorem decode_guards (s : DecodeState t.Pixel) (h : OneByte t) :
    Guards DecodeState.place ok .outsidePalette s (decode (t.guard fun bs => ok (bs.getD 0 0)) debug size old images)
      (decode t debug size old images) (scanStream t.scale debug size images.refLength) := by
  refine .read (.seq scanByte_guards fun ctrl _ _ => .seq (decodeRounds_guards h _ _) fun _ s' _ => ?_)
  exact .read (.ret _)

end Guards

end Colama.Spice.Glz.Decoder

import Colama.Tightvnc.EventBuf
import Colama.Tightvnc.ModifiersSpec

namespace Colama.Tightvnc

open Lib

/-- How many modifiers two masks differ in. -/
def changes (m m' : Mask) : Nat := modifierOrder.countP fun b => has m b ^^ has m' b

def leftHand : List Modifier := [.ctrlL, .shiftL, .metaL, .altL]

def otherHand : List Modifier := [.windows, .ctrlR, .shiftR, .altR, .metaR]

/-- The mask has at most one more of the Windows and right-hand modifiers than of the left-hand ones. -/
def Balanced (m : Mask) : Prop := otherHand.countP (has m) ≤ leftHand.countP (has m) + 1

instance (m : Mask) : Decidable (Balanced m) := inferInstanceAs (Decidable (_ ≤ _))

theorem changes_le (m m' : Mask) : changes m m' ≤ 9 := List.countP_le_length

theorem changes_self (m : Mask) : changes m m = 0 := by
  rw [changes, List.countP_eq_zero]
  intro b _
  rw [Bool.xor_self]
  exact Bool.false_ne_true

theorem changes_eq (m m' : Mask) : changes m m' =
    (leftHand.countP fun b => has m b ^^ has m' b) + otherHand.countP fun b => has m b ^^ has m' b := by
  rw [changes, ← List.countP_append]
  apply List.Perm.countP_eq
  decide

theorem changes_zero (m : Mask) : changes m 0 = leftHand.countP (has m) + otherHand.countP (has m) := by
  rw [changes_eq]
  simp only [has_zero, Bool.xor_false]

/-- A modifier that is set in one of two masks, or changes between them, does so in two of three ways at most. -/
theorem countP_xor_le (bs : List Modifier) (p q : Modifier → Bool) :
    (bs.countP fun b => p b ^^ q b) + bs.countP p + bs.countP q ≤ 2 * bs.length := by
  induction bs with
  | nil => exact le_rfl
  | cons b bs ih =>
    simp only [List.countP_cons, List.length_cons]
    cases p b <;> cases q b <;> simp only [Bool.xor_false, Bool.xor_true, Bool.not_false, Bool.not_true,
      Bool.false_eq_true, if_true, if_false] <;> omega

/-- Left-hand modifiers can be set and cleared again where the mask before is balanced. -/
theorem changes_pointer {old new : Mask} (hold : Balanced old) (hnew : ∀ b ∈ otherHand, has new b = false) :
    changes old new + changes new 0 ≤ 9 := by
  have hright : otherHand.countP (fun b => has old b ^^ has new b) = otherHand.countP (has old) := by
    apply List.countP_congr
    intro b hb
    rw [hnew b hb, Bool.xor_false]
  have hnone : otherHand.countP (has new) = 0 := by
    rw [List.countP_eq_zero]
    intro b hb
    rw [hnew b hb]
    exact Bool.false_ne_true
  have hleft := countP_xor_le leftHand (has old) (has new)
  have hlen : leftHand.length = 4 := rfl
  unfold Balanced at hold
  rw [changes_eq, changes_zero, hright, hnone]
  omega

theorem eventBufLen_append (msgs msgs' : List Msg) :
    eventBufLen (msgs ++ msgs') = eventBufLen msgs + eventBufLen msgs' := by
  rw [eventBufLen, List.map_append, List.sum_append]
  rfl

theorem writeKey_len (s : State) (keySym : Nat) (down : Bool) :
    eventBufLen (s.writeKey keySym down).os = eventBufLen s.os + 8 := eventBufLen_append s.os [.key keySym down]

theorem send_pointer_len (s : State) (pointerMask x y : Nat) :
    eventBufLen (s.send (.pointer pointerMask x y)).os = eventBufLen s.os + 6 :=
  eventBufLen_append s.os [.pointer pointerMask x y]

theorem foldl_len (newModifiers : Mask) (bs : List Modifier) (s : State) :
    eventBufLen (bs.foldl (State.writeModifier newModifiers) s).os =
      eventBufLen s.os + 8 * bs.countP fun b => has s.oldModifiers b ^^ has newModifiers b := by
  induction bs generalizing s with
  | nil => rfl
  | cons b bs ih =>
    rw [List.foldl_cons, ih, (writeModifier_writes newModifiers s b).oldModifiers, writeModifier_eq, List.countP_cons]
    cases has newModifiers b <;> cases has s.oldModifiers b <;> simp only [ne_eq, not_true_eq_false, if_true, if_false,
      Bool.xor_false, Bool.xor_true, Bool.not_false, Bool.not_true, Bool.false_eq_true, Bool.true_eq_false,
      not_false_eq_true, writeKey_len] <;> omega

theorem writeModifierKeyEvents_len (s : State) (newModifiers : Mask) :
    eventBufLen (s.writeModifierKeyEvents newModifiers).os =
      eventBufLen s.os + 8 * changes s.oldModifiers newModifiers := foldl_len newModifiers modifierOrder s

/-- A key with the modifiers before it always fits. -/
theorem modifiedKey_len {s : State} (hos : s.os = []) (newModifiers : Mask) (keySym : Nat) (down : Bool) :
    eventBufLen ((s.writeModifierKeyEvents newModifiers).writeKey keySym down).os ≤ eventBufSize := by
  have hle := changes_le s.oldModifiers newModifiers
  rw [writeKey_len, writeModifierKeyEvents_len, hos, eventBufSize]
  show 0 + _ + 8 ≤ 80
  omega

theorem has_setWidth (modifiers : BitVec 6) {b : Modifier} (hb : b ∈ otherHand) :
    has (modifiers.setWidth 32) b = false := by
  rw [has, BitVec.getLsbD_setWidth]
  have hbit : 6 ≤ b.bit := by
    revert b
    decide
  rw [BitVec.getLsbD_of_ge _ _ hbit, Bool.and_false]

theorem has_mouseModifiers (evt : MouseEvent) {b : Modifier} (hb : b ∈ otherHand) :
    has (mouseModifiers evt) b = false := by
  have hno := has_setWidth evt.modifiers hb
  unfold mouseModifiers
  dsimp only
  split
  · split
    · rw [has_and, hno, Bool.false_and]
    · split
      · rw [has_and, hno, Bool.false_and]
      · exact hno
  · exact hno

theorem putPointer_len {s : State} (hos : s.os = []) (hold : Balanced s.oldModifiers) (pointerMask : Nat)
    (evt : MouseEvent) : eventBufLen (Viewer.putPointer pointerMask evt s).os ≤ eventBufSize := by
  have hsum := changes_pointer hold fun b hb => has_mouseModifiers evt hb
  have hfirst : eventBufLen (({ s with pointerMask }.writeModifierKeyEvents (mouseModifiers evt)).send
      (.pointer pointerMask (evt.x.toNat % 65536) (evt.y.toNat % 65536))).os =
        8 * changes s.oldModifiers (mouseModifiers evt) + 6 := by
    rw [send_pointer_len, writeModifierKeyEvents_len, hos]
    show 0 + _ + 6 = _
    rw [Nat.zero_add]
  unfold Viewer.putPointer
  dsimp only
  split
  · rw [writeModifierKeyEvents_len, hfirst, eventBufSize]
    show _ + 8 * changes (mouseModifiers evt) 0 ≤ 80
    omega
  · rw [hfirst, eventBufSize]
    omega

theorem balanced_of_windows {m : Mask} (h : ∀ b ∈ otherHand, b ≠ .windows → has m b = false) : Balanced m := by
  have hcount : otherHand.countP (has m) ≤ otherHand.countP fun b => decide (b = .windows) := by
    apply List.countP_mono_left
    intro b hb hhas
    rw [decide_eq_true_eq]
    by_contra hne
    rw [h b hb hne] at hhas
    cases hhas
  have hone : (otherHand.countP fun b => decide (b = .windows)) = 1 := rfl
  unfold Balanced
  omega

theorem balanced_zero : Balanced 0 := by decide

theorem balanced_altL : Balanced Modifier.altL.mask := by decide

theorem has_winMask (winkey : Nat) {b : Modifier} (hb : b ≠ .windows) : has (winMask winkey) b = false := by
  unfold winMask
  split
  · rw [has_mask]
    exact decide_eq_false hb.symm
  · exact has_zero b

theorem balanced_winMask (evt : KeyEvent) (winkey : Nat) : Balanced (evt.keyMod ||| winMask winkey) := by
  apply balanced_of_windows
  intro b hb hne
  rw [has_or, has_winMask winkey hne, KeyEvent.keyMod, has_setWidth evt.modifiers hb, Bool.or_false]

theorem sendKeyEvent_balanced (evt : KeyEvent) (keySym : Nat) (s : State) :
    Balanced (sendKeyEvent evt keySym s).oldModifiers := by
  unfold sendKeyEvent
  split
  · exact balanced_winMask evt 1
  · exact balanced_winMask evt 1
  · apply balanced_of_windows
    intro b hb _
    exact has_setWidth evt.modifiers hb

theorem sendKeyEvent_len (evt : KeyEvent) (keySym : Nat) {s : State} (hos : s.os = []) :
    eventBufLen (sendKeyEvent evt keySym s).os ≤ eventBufSize := by
  unfold sendKeyEvent
  split
  · exact modifiedKey_len hos _ _ _
  · exact modifiedKey_len (s := { s with winkey := 0 }) hos _ _ _
  · exact modifiedKey_len hos _ _ _

theorem releaseKeys_len (bs : List Modifier) (s : State) :
    eventBufLen (Viewer.releaseKeys bs s).os = eventBufLen s.os + 8 * bs.length := by
  induction bs generalizing s with
  | nil => rfl
  | cons b bs ih =>
    rw [Viewer.releaseKeys, List.foldl_cons]
    exact (ih _).trans (by rw [writeKey_len, List.length_cons]; omega)

theorem releaseKeys_oldModifiers (bs : List Modifier) (s : State) :
    (Viewer.releaseKeys bs s).oldModifiers = s.oldModifiers := by
  induction bs generalizing s with
  | nil => rfl
  | cons b bs ih => exact ih _

/-- The state with more messages before its own. -/
def State.after (before : List Msg) (s : State) : State := { s with os := before ++ s.os }

/-- What is put does not depend on the messages before. -/
def Puts (put : State → State) : Prop := ∀ before s, put (s.after before) = (put s).after before

theorem Puts.comp {put put' : State → State} (h : Puts put) (h' : Puts put') : Puts fun s => put' (put s) :=
  fun before s => (congrArg put' (h before s)).trans (h' before _)

theorem puts_send (msg : Msg) : Puts fun s => s.send msg := by
  intro before s
  simp only [State.send, State.after, List.append_assoc]

theorem puts_writeModifier (newModifiers : Mask) (b : Modifier) : Puts fun s => s.writeModifier newModifiers b := by
  intro before s
  show State.writeModifier newModifiers (s.after before) b = (State.writeModifier newModifiers s b).after before
  have hold : (s.after before).oldModifiers = s.oldModifiers := rfl
  unfold State.writeModifier
  rw [hold]
  by_cases hne : newModifiers &&& b.mask ≠ s.oldModifiers &&& b.mask
  · rw [if_pos hne, if_pos hne]
    exact puts_send _ before s
  · rw [if_neg hne, if_neg hne]

theorem puts_foldl {f : State → Modifier → State} (hf : ∀ b, Puts fun s => f s b) (bs : List Modifier) :
    Puts fun s => bs.foldl f s := by
  induction bs with
  | nil => exact fun _ _ => rfl
  | cons b bs ih => exact (hf b).comp ih

theorem puts_writeModifierKeyEvents (newModifiers : Mask) : Puts fun s => s.writeModifierKeyEvents newModifiers := by
  intro before s
  have hfold := puts_foldl (puts_writeModifier newModifiers) modifierOrder before s
  exact congrArg (fun s : State => { s with oldModifiers := newModifiers }) hfold

/-- A key with the modifiers before it. -/
theorem puts_modifiedKey (newModifiers : Mask) (keySym : Nat) (down : Bool) :
    Puts fun s => (s.writeModifierKeyEvents newModifiers).writeKey keySym down :=
  (puts_writeModifierKeyEvents newModifiers).comp (puts_send _)

theorem puts_sendKeyEvent (evt : KeyEvent) (keySym : Nat) : Puts (sendKeyEvent evt keySym) := by
  intro before s
  unfold sendKeyEvent
  dsimp only [State.after]
  split
  · exact puts_modifiedKey _ _ _ before s
  · exact puts_modifiedKey _ _ _ before { s with winkey := 0 }
  · exact puts_modifiedKey _ _ _ before s

theorem puts_initilizeModifierMenu : Puts initilizeModifierMenu := fun before s =>
  puts_modifiedKey _ _ _ before { s with useMenuModifiers := true, oldModifiers := 0, winkey := 0 }

theorem puts_putPointer (pointerMask : Nat) (evt : MouseEvent) : Puts (Viewer.putPointer pointerMask evt) := by
  have hfirst : Puts fun s => ({ s with pointerMask }.writeModifierKeyEvents (mouseModifiers evt)).send
      (.pointer pointerMask (evt.x.toNat % 65536) (evt.y.toNat % 65536)) := fun before s =>
    (puts_writeModifierKeyEvents _).comp (puts_send _) before { s with pointerMask }
  intro before s
  unfold Viewer.putPointer
  dsimp only
  split
  · exact hfirst.comp (puts_writeModifierKeyEvents 0) before s
  · exact hfirst before s

theorem puts_releaseKeys (bs : List Modifier) : Puts (Viewer.releaseKeys bs) :=
  puts_foldl (fun b => puts_send (.key b.keySym false)) bs

namespace Viewer

/-- All that has been in `eventBuf` fits it. -/
def Fits (v : Viewer) : Prop := ∀ msgs ∈ v.written, eventBufLen msgs ≤ eventBufSize

structure Inv (v : Viewer) : Prop where
  balanced : Balanced v.keys.oldModifiers
  fits : v.Fits

/-- What holds where an event goes on and where it throws. -/
def Ends (ok error : Viewer → Prop) : Except Viewer Viewer → Prop
  | .ok v => ok v
  | .error v => error v

theorem Ends.bind {ok ok' error : Viewer → Prop} {r : Except Viewer Viewer} {f : Viewer → Except Viewer Viewer}
    (hr : Ends ok' error r) (hf : ∀ v, ok' v → Ends ok error (f v)) : Ends ok error (r >>= f) := by
  cases r with
  | ok v => exact hf v hr
  | error v => exact hr

theorem Ends.map {ok ok' error : Viewer → Prop} {r : Except Viewer Viewer} {f : Viewer → Viewer} (hr : Ends ok' error r)
    (hf : ∀ v, ok' v → ok (f v)) : Ends ok error (r.map f) := by
  cases r with
  | ok v => exact hf v hr
  | error v => exact hr

theorem Ends.caught {p : Viewer → Prop} {r : Except Viewer Viewer} (hr : Ends p p r) : p (caught r) := by
  cases r with
  | ok v => exact hr
  | error v => exact hr

/-- The viewer after a write. -/
def flushed (v : Viewer) (put : State → State) : Viewer :=
  { v with keys := put { v.keys with os := [] }, written := v.written ++ [(put { v.keys with os := [] }).os] }

theorem batch_ends {ok error : Viewer → Prop} {v : Viewer} {put : State → State} {throws : Bool}
    (hok : throws = false → ok (v.flushed put)) (herror : throws = true → error (v.flushed put)) :
    Ends ok error (v.batch put throws) := by
  cases throws with
  | false => exact hok rfl
  | true => exact herror rfl

theorem Fits.flushed {v : Viewer} (hv : v.Fits) {put : State → State}
    (hlen : eventBufLen (put { v.keys with os := [] }).os ≤ eventBufSize) : (v.flushed put).Fits := by
  intro msgs hmsgs
  rcases List.mem_append.mp hmsgs with hmsgs | hmsgs
  · exact hv msgs hmsgs
  · rw [List.mem_singleton.mp hmsgs]
    exact hlen

/-- Other parts of the viewer may change. -/
theorem Inv.of_eq {v v' : Viewer} (hv : v.Inv) (hbalanced : Balanced v'.keys.oldModifiers)
    (hwritten : v'.written = v.written) : v'.Inv := ⟨hbalanced, fun msgs hmsgs => hv.fits msgs (hwritten ▸ hmsgs)⟩

/-- A write of the modifiers of a key or of the panel that throws leaves a balanced mask. -/
def Clear (v : Viewer) : Input → Prop
  | .key evt _ throws => throws = some .first → v.panelKey evt = none →
    (∀ b keyMod, eventAction v.transposeRightMods v.keys evt = .releaseModifier b keyMod → Balanced keyMod) ∧
      (v.keys.useMenuModifiers = true → evt.keyReleased = true → Balanced (getModifier v.boxes))
  | _ => True

theorem Inv.setBrokenKeyPressed {v : Viewer} (hv : v.Inv) (pressed : Bool) : (v.setBrokenKeyPressed pressed).Inv :=
  hv.of_eq hv.balanced rfl

theorem Inv.setOldModifiers {v : Viewer} (hv : v.Inv) {m : Mask} (hm : Balanced m) : (v.setOldModifiers m).Inv :=
  hv.of_eq hm rfl

theorem Inv.setLastAltPressed {v : Viewer} (hv : v.Inv) (time : Int) : (v.setLastAltPressed time).Inv :=
  hv.of_eq hv.balanced rfl

theorem Inv.hideSplKeysMenu {v : Viewer} (hv : v.Inv) : v.hideSplKeysMenu.Inv := hv.of_eq hv.balanced rfl

/-- The panel is as it was. -/
def SamePanel (v v' : Viewer) : Prop := v'.boxes = v.boxes ∧ v'.keys.useMenuModifiers = v.keys.useMenuModifiers

theorem writeFakedPress_ends {v : Viewer} (hv : v.Inv) (evt : KeyEvent) (keySym : Nat) (throws : Bool) :
    Ends (fun v' => v'.Inv ∧ SamePanel v v') Inv (v.writeFakedPress evt keySym throws) := by
  unfold writeFakedPress
  split
  · let put (s : State) := (s.writeModifierKeyEvents (evt.keyMod ||| winMask s.winkey)).writeKey keySym true
    have hflushed : (v.flushed put).Inv := ⟨balanced_winMask evt _, hv.fits.flushed (modifiedKey_len rfl _ _ _)⟩
    apply batch_ends
    · exact fun _ => ⟨hflushed, rfl, (foldl_writes _ modifierOrder _).useMenuModifiers⟩
    · exact fun _ => hflushed
  · exact ⟨hv, rfl, rfl⟩

theorem fakeKeyPress_ends {v : Viewer} (hv : v.Inv) (evt : KeyEvent) (keySym : Nat) (throws : Bool) :
    Ends (fun v' => v'.Inv ∧ SamePanel v v') Inv (v.fakeKeyPress evt keySym throws) := by
  unfold fakeKeyPress
  split
  · have hpressed : (if evt.keyPressed then v.setBrokenKeyPressed true else v).Inv ∧
        SamePanel v (if evt.keyPressed then v.setBrokenKeyPressed true else v) := by
      split
      · exact ⟨hv.setBrokenKeyPressed true, rfl, rfl⟩
      · exact ⟨hv, rfl, rfl⟩
    apply Ends.map (writeFakedPress_ends hpressed.1 evt keySym throws)
    rintro v' ⟨hinv, hboxes, hmenu⟩
    split
    · exact ⟨hinv.setBrokenKeyPressed false, hboxes.trans hpressed.2.1, hmenu.trans hpressed.2.2⟩
    · exact ⟨hinv, hboxes.trans hpressed.2.1, hmenu.trans hpressed.2.2⟩
  · exact ⟨hv, rfl, rfl⟩

/-- A key between modifiers that are down already and their release always fits. -/
theorem releasedKey_len {s : State} (hos : s.os = []) {keyMod : Mask} (hold : s.oldModifiers = keyMod) (keySym : Nat) :
    eventBufLen (((s.writeModifierKeyEvents keyMod).writeKey keySym false).writeModifierKeyEvents 0).os ≤
      eventBufSize := by
  have hle := changes_le keyMod 0
  rw [writeModifierKeyEvents_len, writeKey_len, writeModifierKeyEvents_len, hos, hold, changes_self, eventBufSize]
  show 0 + 8 * 0 + 8 + 8 * changes keyMod 0 ≤ 80
  omega

theorem panelType_ends {v : Viewer} (hv : v.Inv) (evt : KeyEvent) (isEscape : Bool) (keySym : Nat)
    (throws : Option OsWrite)
    (hclear : throws = some .first → evt.keyReleased = true → Balanced (getModifier v.boxes)) :
    Ends Inv Inv (v.panelType evt isEscape keySym throws) := by
  unfold panelType
  split
  · rename_i hreleased
    dsimp only
    have hzero := hv.setOldModifiers balanced_zero
    split
    · exact hzero.hideSplKeysMenu
    · generalize getModifier v.boxes = keyMod at hclear ⊢
      generalize v.setOldModifiers 0 = v₀ at hzero ⊢
      let press (s : State) := (s.writeModifierKeyEvents keyMod).writeKey keySym true
      let release (s : State) := ((s.writeModifierKeyEvents keyMod).writeKey keySym false).writeModifierKeyEvents 0
      apply @Ends.bind Inv (fun v' => v'.keys.oldModifiers = keyMod ∧ v'.Fits) Inv (v₀.batch press _)
      · have hfits : (v₀.flushed press).Fits := hzero.fits.flushed (modifiedKey_len rfl _ _ _)
        apply batch_ends
        · exact fun _ => ⟨rfl, hfits⟩
        · exact fun hthrows => ⟨hclear (of_decide_eq_true hthrows) hreleased, hfits⟩
      · rintro v' ⟨hold, hfits⟩
        have hflushed : (v'.flushed release).Inv := ⟨balanced_zero, hfits.flushed (@releasedKey_len { v'.keys with os := [] } rfl _ hold keySym)⟩
        apply @Ends.bind Inv Inv Inv (v'.batch release _)
        · exact batch_ends (fun _ => hflushed) fun _ => hflushed
        · exact fun v hv => hv.hideSplKeysMenu
  · exact hv

theorem panelKey_inv {v v' : Viewer} (hv : v.Inv) {evt : KeyEvent} (h : v.panelKey evt = some v') : v'.Inv := by
  unfold panelKey at h
  split at h
  · split at h
    · cases h
      split
      · exact hv.of_eq hv.balanced rfl
      · exact hv
    · obtain ⟨b, -, rfl⟩ := Option.map_eq_some_iff.mp h
      exact hv.of_eq hv.balanced rfl
  · cases h

theorem initilizeModifierMenu_len {s : State} (hos : s.os = []) :
    eventBufLen (initilizeModifierMenu s).os ≤ eventBufSize :=
  @modifiedKey_len { s with useMenuModifiers := true, oldModifiers := 0, winkey := 0 } hos _ _ _

theorem writeKeyEvent_ends {v : Viewer} (hv : v.Inv) (evt : KeyEvent) (isEscape : Bool) (throws : Option OsWrite)
    (hclear : v.Clear (.key evt isEscape throws)) : Ends Inv Inv (v.writeKeyEvent evt isEscape throws) := by
  unfold writeKeyEvent
  split
  · rename_i v' hpanel
    exact panelKey_inv hv hpanel
  · rename_i hpanel
    split
    · exact hv
    · exact hv.of_eq hv.balanced rfl
    · have hflushed : (v.resetAll.flushed initilizeModifierMenu).Inv :=
        ⟨balanced_altL, @Fits.flushed v.resetAll hv.fits _ (initilizeModifierMenu_len rfl)⟩
      exact batch_ends (fun _ => hflushed) fun _ => hflushed
    · rename_i b keyMod haction
      dsimp only
      let put (s : State) := (s.writeModifierKeyEvents keyMod).writeKey (keySymOf b) false
      have htimed : ∀ released : Bool, (if released then v.setLastAltPressed evt.currentTimeMillis else v).Inv := by
        intro released
        cases released with
        | false => exact hv
        | true => exact hv.setLastAltPressed evt.currentTimeMillis
      have hinv := htimed (decide (evt.keyCode = .vkAlt) && evt.keyReleased)
      generalize (if (decide (evt.keyCode = .vkAlt) && evt.keyReleased) = true then
        v.setLastAltPressed evt.currentTimeMillis else v) = v' at hinv ⊢
      apply @Ends.bind Inv (fun v' => v'.keys.oldModifiers = keyMod ∧ v'.Fits) Inv (v'.batch put _)
      · have hfits : (v'.flushed put).Fits := hinv.fits.flushed (modifiedKey_len rfl _ _ _)
        apply batch_ends
        · exact fun _ => ⟨rfl, hfits⟩
        · exact fun hthrows => ⟨(hclear (of_decide_eq_true hthrows) hpanel).1 b keyMod haction, hfits⟩
      · rintro v'' ⟨hold, hfits⟩
        refine ⟨?_, hfits⟩
        show Balanced (v''.keys.oldModifiers &&& ~~~keyMod)
        rw [hold, BitVec.and_not_self]
        exact balanced_zero
    · rename_i keySym winkey haction
      have hwin : ({ v with keys := { v.keys with winkey } } : Viewer).Inv := hv.of_eq hv.balanced rfl
      apply Ends.bind (fakeKeyPress_ends hwin evt keySym _)
      rintro v' ⟨hinv, hboxes, hmenu⟩
      split
      · rename_i huse
        apply panelType_ends hinv
        intro hthrows hreleased
        rw [hboxes]
        exact (hclear hthrows hpanel).2 (hmenu.symm.trans huse) hreleased
      · have hflushed : (v'.flushed (sendKeyEvent evt keySym)).Inv :=
          ⟨sendKeyEvent_balanced evt keySym _, hinv.fits.flushed (sendKeyEvent_len evt keySym rfl)⟩
        exact batch_ends (fun _ => hflushed) fun _ => hflushed

theorem balanced_mouseModifiers (evt : MouseEvent) : Balanced (mouseModifiers evt) :=
  balanced_of_windows fun _ hb _ => has_mouseModifiers evt hb

theorem putPointer_balanced (pointerMask : Nat) (evt : MouseEvent) (s : State) :
    Balanced (putPointer pointerMask evt s).oldModifiers := by
  unfold putPointer
  dsimp only
  split
  · exact balanced_zero
  · exact balanced_mouseModifiers evt

theorem writePointerEvent_ends {v : Viewer} (hv : v.Inv) (reverseMouseButtons2And3 : Bool) (evt : MouseEvent)
    (throws : Option OsWrite) : Ends Inv Inv (v.writePointerEvent reverseMouseButtons2And3 evt throws) := by
  unfold writePointerEvent
  generalize newPointerMask reverseMouseButtons2And3 v.keys evt = pointerMask
  have hflushed : (v.flushed (putPointer pointerMask evt)).Inv :=
    ⟨putPointer_balanced pointerMask evt _, hv.fits.flushed (@putPointer_len { v.keys with os := [] } rfl hv.balanced pointerMask evt)⟩
  apply Ends.bind (batch_ends (fun _ => hflushed) fun _ => hflushed)
  intro v' hv'
  show Inv _
  split
  · exact hv'.of_eq hv'.balanced rfl
  · exact hv'

theorem sendFakeModifiersRelease_ends {v : Viewer} (hv : v.Inv) (throws : Option OsWrite) :
    Ends Inv Inv (v.sendFakeModifiersRelease throws) := by
  have hrelease : ∀ bs : List Modifier, bs.length ≤ 10 → ∀ {v : Viewer}, v.Inv → (v.flushed (releaseKeys bs)).Inv := by
    intro bs hbs v hv
    refine ⟨?_, hv.fits.flushed ?_⟩
    · show Balanced (releaseKeys bs _).oldModifiers
      rw [releaseKeys_oldModifiers]
      exact hv.balanced
    · rw [releaseKeys_len]
      show 0 + 8 * bs.length ≤ 80
      omega
  have hfirst := hrelease [.ctrlL, .shiftL, .altL, .windows] (by decide) hv
  apply Ends.bind (batch_ends (fun _ => hfirst) fun _ => hfirst)
  intro v' hv'
  have hsecond := hrelease [.ctrlR, .shiftR, .altR] (by decide) hv'
  apply Ends.bind (batch_ends (fun _ => hsecond) fun _ => hsecond)
  exact fun v'' hv'' => hv''.setOldModifiers balanced_zero

theorem handle_inv {v : Viewer} (hv : v.Inv) (reverseMouseButtons2And3 : Bool) {input : Input} (hclear : v.Clear input) :
    (v.handle reverseMouseButtons2And3 input).Inv := by
  cases input with
  | key evt isEscape throws => exact (writeKeyEvent_ends hv evt isEscape throws hclear).caught
  | mouse evt throws => exact (writePointerEvent_ends hv reverseMouseButtons2And3 evt throws).caught
  | box b => exact hv.of_eq hv.balanced rfl
  | transposeRightMods => exact hv.of_eq hv.balanced rfl
  | close => exact hv.hideSplKeysMenu.setOldModifiers balanced_zero
  | sendFakeModifiersRelease throws => exact (sendFakeModifiersRelease_ends hv throws).caught

/-- The state with all that has been written. -/
def sent (v : Viewer) : State := { v.keys with os := v.written.flatten }

/-- A write adds what is put to all that has been written. -/
theorem flushed_sent (v : Viewer) {put : State → State} (hput : Puts put) : (v.flushed put).sent = put v.sent := by
  have hstart : v.sent = ({ v.keys with os := [] } : State).after v.written.flatten := by
    simp only [sent, State.after, List.append_nil]
  rw [hstart, hput, flushed, sent, State.after]
  simp only [List.flatten_append, List.flatten_singleton]

theorem batch_ok (v : Viewer) (put : State → State) : v.batch put false = .ok (v.flushed put) := rfl

theorem writeFakedPress_sent (v : Viewer) (evt : KeyEvent) (keySym : Nat) :
    ∃ v', v.writeFakedPress evt keySym false = .ok v' ∧
      (SamePanel v v' ∧ v'.transposeRightMods = v.transposeRightMods) ∧ v'.sent = if evt.keyReleased && !v.sent.brokenKeyPressed then
        (v.sent.writeModifierKeyEvents (evt.keyMod ||| winMask v.sent.winkey)).writeKey keySym true else v.sent := by
  let put (s : State) := (s.writeModifierKeyEvents (evt.keyMod ||| winMask s.winkey)).writeKey keySym true
  have hput : Puts put := fun before s => puts_modifiedKey (evt.keyMod ||| winMask s.winkey) keySym true before s
  unfold writeFakedPress
  by_cases hfake : (evt.keyReleased && !v.keys.brokenKeyPressed) = true
  · refine ⟨v.flushed put, if_pos hfake, ⟨⟨rfl, (foldl_writes _ modifierOrder _).useMenuModifiers⟩, rfl⟩, ?_⟩
    have hsent : (evt.keyReleased && !v.sent.brokenKeyPressed) = true := hfake
    rw [flushed_sent v hput, if_pos hsent]
  · refine ⟨v, if_neg hfake, ⟨⟨rfl, rfl⟩, rfl⟩, ?_⟩
    have hsent : ¬ (evt.keyReleased && !v.sent.brokenKeyPressed) = true := hfake
    rw [if_neg hsent]

theorem fakeKeyPress_sent (v : Viewer) (evt : KeyEvent) (keySym : Nat) :
    ∃ v', v.fakeKeyPress evt keySym false = .ok v' ∧ v'.sent = Tightvnc.fakeKeyPress evt keySym v.sent ∧
      SamePanel v v' ∧ v'.transposeRightMods = v.transposeRightMods := by
  unfold fakeKeyPress Tightvnc.fakeKeyPress
  by_cases hfaked : keySym ∈ fakedKeySyms
  · rw [if_pos hfaked, if_pos hfaked]
    have hpressed : SamePanel v (if evt.keyPressed then v.setBrokenKeyPressed true else v) ∧
        (if evt.keyPressed then v.setBrokenKeyPressed true else v).sent =
          if evt.keyPressed then { v.sent with brokenKeyPressed := true } else v.sent := by
      split
      · exact ⟨⟨rfl, rfl⟩, rfl⟩
      · exact ⟨⟨rfl, rfl⟩, rfl⟩
    have htranspose : (if evt.keyPressed then v.setBrokenKeyPressed true else v).transposeRightMods =
        v.transposeRightMods := by split <;> rfl
    obtain ⟨v', heq, ⟨hsame, hright⟩, hsent⟩ :=
      writeFakedPress_sent (if evt.keyPressed then v.setBrokenKeyPressed true else v) evt keySym
    rw [hpressed.2] at hsent
    refine ⟨_, by rw [heq]; rfl, ?_, ?_, ?_⟩
    · dsimp only
      rw [← hsent]
      split
      · rfl
      · rfl
    · split
      · exact ⟨hsame.1.trans hpressed.1.1, hsame.2.trans hpressed.1.2⟩
      · exact ⟨hsame.1.trans hpressed.1.1, hsame.2.trans hpressed.1.2⟩
    · rw [← htranspose, ← hright]
      split <;> rfl
  · rw [if_neg hfaked, if_neg hfaked]
    exact ⟨v, rfl, rfl, ⟨rfl, rfl⟩, rfl⟩

/-- Outside of the panel, and where no write throws, a key event does what it does to the messages as a whole. -/
theorem writeKeyEvent_sent (v : Viewer) (evt : KeyEvent) (isEscape : Bool) (hmenu : v.keys.useMenuModifiers = false) :
    ∃ v', v.writeKeyEvent evt isEscape none = .ok v' ∧
      v'.sent = Tightvnc.writeKeyEvent v.transposeRightMods v.sent evt ∧
      v'.transposeRightMods = v.transposeRightMods := by
  have hpanel : v.panelKey evt = none := by
    rw [panelKey, if_neg]
    rw [hmenu]
    exact fun h => Bool.false_ne_true h.2.1
  have haction : eventAction v.transposeRightMods v.sent evt = eventAction v.transposeRightMods v.keys evt := rfl
  unfold writeKeyEvent Tightvnc.writeKeyEvent
  rw [hpanel, haction]
  dsimp only
  cases eventAction v.transposeRightMods v.keys evt with
  | ignore => exact ⟨v, rfl, rfl, rfl⟩
  | winPressed => exact ⟨_, rfl, rfl, rfl⟩
  | showSplKeysMenu => exact ⟨_, rfl, flushed_sent v.resetAll puts_initilizeModifierMenu, rfl⟩
  | releaseModifier b keyMod =>
    refine ⟨_, rfl, ?_, ?_⟩
    swap
    · dsimp only
      split <;> rfl
    have hstart : ∀ released : Bool, (if released then v.setLastAltPressed evt.currentTimeMillis else v).sent =
        if released then { v.sent with lastAltPressed := evt.currentTimeMillis } else v.sent := by
      intro released
      cases released with
      | false => rfl
      | true => rfl
    have hflushed := flushed_sent
      (if (decide (evt.keyCode = .vkAlt) && evt.keyReleased) = true then
        v.setLastAltPressed evt.currentTimeMillis else v) (puts_modifiedKey keyMod (keySymOf b) false)
    rw [hstart] at hflushed
    exact congrArg (fun s : State => { s with oldModifiers := s.oldModifiers &&& ~~~keyMod }) hflushed
  | sendKey keySym winkey =>
    obtain ⟨v', heq, hsent, hsame, hright⟩ := fakeKeyPress_sent { v with keys := { v.keys with winkey } } evt keySym
    have huse : v'.keys.useMenuModifiers = false := hsame.2.trans hmenu
    refine ⟨v'.flushed (sendKeyEvent evt keySym), ?_, ?_, hright⟩
    · show (do
        let v ← fakeKeyPress evt keySym false { v with keys := { v.keys with winkey } }
        if v.keys.useMenuModifiers then panelType evt isEscape keySym none v
        else v.batch (sendKeyEvent evt keySym) false) = _
      rw [heq]
      show (if v'.keys.useMenuModifiers = true then _ else _) = _
      rw [huse]
      rfl
    · rw [flushed_sent v' (puts_sendKeyEvent evt keySym), hsent]
      rfl

theorem writePointerEvent_sent (v : Viewer) (reverseMouseButtons2And3 : Bool) (evt : MouseEvent) :
    ∃ v', v.writePointerEvent reverseMouseButtons2And3 evt none = .ok v' ∧
      v'.sent = Tightvnc.writePointerEvent reverseMouseButtons2And3 v.sent evt ∧
      v'.transposeRightMods = v.transposeRightMods := by
  refine ⟨_, rfl, ?_, ?_⟩
  swap
  · split <;> rfl
  have hmask : newPointerMask reverseMouseButtons2And3 v.sent evt =
      newPointerMask reverseMouseButtons2And3 v.keys evt := rfl
  have hflushed := flushed_sent v (puts_putPointer (newPointerMask reverseMouseButtons2And3 v.keys evt) evt)
  unfold Tightvnc.writePointerEvent
  rw [hmask]
  generalize newPointerMask reverseMouseButtons2And3 v.keys evt = pointerMask at hflushed ⊢
  dsimp only
  split
  · exact congrArg (fun s : State => { s with pointerMask := 0 }) hflushed
  · exact hflushed

theorem sendFakeModifiersRelease_sent (v : Viewer) : ∃ v', v.sendFakeModifiersRelease none = .ok v' ∧
    v'.sent = Tightvnc.sendFakeModifiersRelease v.sent ∧ v'.transposeRightMods = v.transposeRightMods := by
  have hsent := flushed_sent (v.flushed (releaseKeys [.ctrlL, .shiftL, .altL, .windows]))
    (puts_releaseKeys [.ctrlR, .shiftR, .altR])
  rw [flushed_sent v (puts_releaseKeys [.ctrlL, .shiftL, .altL, .windows]), releaseKeys, releaseKeys,
    ← List.foldl_append, show [Modifier.ctrlL, .shiftL, .altL, .windows] ++ [.ctrlR, .shiftR, .altR] = fakelyReleased
      from rfl] at hsent
  generalize hboth : (v.flushed (releaseKeys [.ctrlL, .shiftL, .altL, .windows])).flushed
    (releaseKeys [.ctrlR, .shiftR, .altR]) = both at hsent
  refine ⟨both.setOldModifiers 0, ?_, ?_, ?_⟩
  · have hrun : v.sendFakeModifiersRelease none = v.batch (releaseKeys [.ctrlL, .shiftL, .altL, .windows]) false >>=
        fun v => v.batch (releaseKeys [.ctrlR, .shiftR, .altR]) false >>= fun v => .ok (v.setOldModifiers 0) := rfl
    rw [hrun, batch_ok, ← hboth]
    rfl
  · exact congrArg (fun s : State => { s with oldModifiers := 0 }) hsent
  · have hold (w : Viewer) : (w.setOldModifiers 0).transposeRightMods = w.transposeRightMods := rfl
    have hflushed (w : Viewer) (put : State → State) : (w.flushed put).transposeRightMods = w.transposeRightMods := rfl
    rw [hold, ← hboth, hflushed, hflushed]

/-- An event of which no write throws. It does not close the panel, and a key finds none shown. -/
def Quiet (v : Viewer) : Input → Prop
  | .key _ _ throws => throws = none ∧ v.keys.useMenuModifiers = false
  | .mouse _ throws | .sendFakeModifiersRelease throws => throws = none
  | .box _ | .transposeRightMods => True
  | .close => False

/-- What an event does to the messages as a whole and to the setting of the keys on the right. -/
def unbuffered (reverseMouseButtons2And3 : Bool) (s : State × Bool) : Input → State × Bool
  | .key evt _ _ => (Tightvnc.writeKeyEvent s.2 s.1 evt, s.2)
  | .mouse evt _ => (Tightvnc.writePointerEvent reverseMouseButtons2And3 s.1 evt, s.2)
  | .sendFakeModifiersRelease _ => (Tightvnc.sendFakeModifiersRelease s.1, s.2)
  | .transposeRightMods => (s.1, !s.2)
  | .box _ | .close => s

theorem handle_sent {v : Viewer} (reverseMouseButtons2And3 : Bool) {input : Input} (h : v.Quiet input) :
    ((v.handle reverseMouseButtons2And3 input).sent, (v.handle reverseMouseButtons2And3 input).transposeRightMods) =
      unbuffered reverseMouseButtons2And3 (v.sent, v.transposeRightMods) input := by
  cases input with
  | key evt isEscape throws =>
    obtain ⟨rfl, hmenu⟩ := h
    obtain ⟨v', heq, hsent, hright⟩ := writeKeyEvent_sent v evt isEscape hmenu
    rw [handle, heq]
    exact Prod.ext hsent hright
  | mouse evt throws =>
    obtain rfl : throws = none := h
    obtain ⟨v', heq, hsent, hright⟩ := writePointerEvent_sent v reverseMouseButtons2And3 evt
    rw [handle, heq]
    exact Prod.ext hsent hright
  | sendFakeModifiersRelease throws =>
    obtain rfl : throws = none := h
    obtain ⟨v', heq, hsent, hright⟩ := sendFakeModifiersRelease_sent v
    rw [handle, heq]
    exact Prod.ext hsent hright
  | box b => rfl
  | transposeRightMods => rfl
  | close => exact h.elim

/-- The viewer before any event. -/
def fresh : Viewer where
  keys := freshViewer
  transposeRightMods := true
  boxes := fun _ => false
  written := []

/-- In every run in which no write of the release of a modifier, or of a key typed into the panel, throws and
leaves a mask that is not balanced, the messages of each write fit `eventBuf`. -/
theorem eventBuf_fits (reverseMouseButtons2And3 : Bool) (v : Viewer)
    (hv : Reachable (fun v input v' => v.handle reverseMouseButtons2And3 input = v') Clear fresh v) :
    ∀ msgs ∈ v.written, eventBufLen msgs ≤ eventBufSize := by
  have hinv : v.Inv := by
    apply hv.invariant Inv
    · exact ⟨balanced_zero, nofun⟩
    · rintro v input v' hv hclear rfl
      exact handle_inv hv reverseMouseButtons2And3 hclear
  exact hinv.fits

/-- The release of the right Meta key while the Windows key is held. -/
def metaRelease (throws : Option OsWrite) : List Input :=
  let winKey : KeyEvent :=
    { id := .keyPressed, keyCode := .vkWindows, keyChar := charUndefined, keyLoc := .left, modifiers := 0,
      currentTimeMillis := 0 }
  [.key winKey false none,
    .key { winKey with id := .keyReleased, keyCode := .vkMeta, keyLoc := .right } false throws]

/-- The mouse moves with all four left-hand modifiers. -/
def modifiedMove : Input := .mouse { id := .other, modifiers := 15, x := 0, y := 0 } none

theorem eventBuf_fits_modifiedMove :
    (((metaRelease none).foldl (handle false) fresh).handle false modifiedMove).written ≠ [] ∧ ∀ msgs ∈ (((metaRelease none).foldl (handle false) fresh).handle false modifiedMove).written,
      eventBufLen msgs ≤ eventBufSize := by
  refine ⟨by decide, ?_⟩
  apply eventBuf_fits false
  refine .step (.foldl (metaRelease none) ?_) (show Clear _ modifiedMove from trivial) rfl
  intro n hn
  match n, hn with
  | 0, _ => exact nofun
  | 1, _ => exact nofun

/-- The write of that release throws before the move. -/
def brokenRelease : List Input := metaRelease (some .first) ++ [modifiedMove]

theorem brokenRelease_overflows :
    Reachable (fun v input v' => v.handle false input = v') (fun _ _ => True) fresh (brokenRelease.foldl (handle false) fresh) ∧
      ¬ ∀ msgs ∈ (brokenRelease.foldl (handle false) fresh).written, eventBufLen msgs ≤ eventBufSize := by
  refine ⟨.foldl brokenRelease fun _ _ => trivial, ?_⟩
  decide

/-- However the messages are cut into writes, they are one after the other those of the events as a whole. -/
theorem run_sent (reverseMouseButtons2And3 : Bool) (v : Viewer) (inputs : List Input)
    (h : ∀ n (hn : n < inputs.length), Quiet ((inputs.take n).foldl (handle reverseMouseButtons2And3) v) inputs[n]) :
    ((inputs.foldl (handle reverseMouseButtons2And3) v).sent,
        (inputs.foldl (handle reverseMouseButtons2And3) v).transposeRightMods) =
      inputs.foldl (unbuffered reverseMouseButtons2And3) (v.sent, v.transposeRightMods) := by
  induction inputs generalizing v with
  | nil => rfl
  | cons input inputs ih =>
    have hfirst : Quiet v input := h 0 (Nat.zero_lt_succ _)
    rw [List.foldl_cons, List.foldl_cons, ← handle_sent reverseMouseButtons2And3 hfirst]
    exact ih _ fun n hn => h (n + 1) (Nat.succ_lt_succ hn)

theorem run_sent_modifiedMove :
    (((metaRelease none ++ [modifiedMove]).foldl (handle false) fresh).sent,
        ((metaRelease none ++ [modifiedMove]).foldl (handle false) fresh).transposeRightMods) =
      (metaRelease none ++ [modifiedMove]).foldl (unbuffered false) (fresh.sent, fresh.transposeRightMods) := by
  refine run_sent false fresh (metaRelease none ++ [modifiedMove]) fun n hn => ?_
  have hn : n < 3 := hn
  interval_cases n
  · exact ⟨rfl, rfl⟩
  · exact ⟨rfl, rfl⟩
  · exact show none = none from rfl

end Viewer

end Colama.Tightvnc

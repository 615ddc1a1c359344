import Mathlib
import Colama.Lib.Histories
import Colama.Lib.Runs
import Colama.Tightvnc.Modifiers

namespace Colama.Tightvnc

open Lib

/-- The bit of the modifier is set. -/
def has (m : Mask) (b : Modifier) : Bool := m.getLsbD b.bit

/-- The server holds the modifier pressed, by the key events sent so far. -/
def holds (os : List Msg) (b : Modifier) : Bool :=
  os.foldl (fun pressed msg =>
    match msg with
    | .key keySym down => if keySym = b.keySym then down else pressed
    | .pointer _ _ _ => pressed) false

def Msg.IsModifier : Msg → Prop
  | .key keySym _ => ∃ b : Modifier, keySym = b.keySym
  | .pointer _ _ _ => False

inductive Event
  | key (evt : KeyEvent)
  | mouse (evt : MouseEvent)

section Events

variable (transposeRightMods reverseMouseButtons2And3 : Bool)

def handle (s : State) : Event → State
  | .key evt => writeKeyEvent transposeRightMods s evt
  | .mouse evt => writePointerEvent reverseMouseButtons2And3 s evt

/-- The mask that is written for an event, if any is. -/
def writtenMask (s : State) : Event → Option Mask
  | .key evt =>
    match eventAction transposeRightMods s evt with
    | .releaseModifier _ keyMod => some keyMod
    | .sendKey _ winkey => some (evt.keyMod ||| if winkey = 0 then 0 else Modifier.windows.mask)
    | _ => none
  | .mouse evt => some (mouseModifiers evt)

/-- The mask of an event, with the Windows key while it is held. -/
def eventMask (s : State) : Event → Mask
  | .key evt => evt.keyMod ||| winMask s.winkey
  | .mouse evt => mouseModifiers evt ||| winMask s.winkey

/-- The bits of `oldModifiers` that are wrong after an event: those of the modifiers that are still held when
one is released, and the bit of the Windows key after its release. -/
def nextStale (s : State) (stale : Mask) : Event → Mask
  | .key evt =>
    match eventAction transposeRightMods s evt with
    | .releaseModifier b keyMod => keyMod &&& ~~~maskOf b
    | .sendKey _ winkey => if winkey = 2 then Modifier.windows.mask else 0
    | _ => stale
  | .mouse _ => 0

structure Run where
  state : State
  stale : Mask

/-- An event that is handled outside of the special keys panel, and does not open it. -/
def step (r : Run) (e : Event) (r' : Run) : Prop :=
  r'.state = handle transposeRightMods reverseMouseButtons2And3 r.state e ∧
    r'.stale = nextStale transposeRightMods r.state r.stale e ∧ r'.state.useMenuModifiers = false

/-- What keeps an event clear of the defects. -/
structure Clear (r : Run) (e : Event) : Prop where
  /-- What `oldModifiers` is wrong about is not the same in the mask that is written next. -/
  refreshed : ∀ m, writtenMask transposeRightMods r.state e = some m →
    ∀ b, has r.stale b = true → has m b ≠ has r.state.oldModifiers b
  /-- There are no mouse events while the Windows key is held. -/
  pointer : ∀ evt, e = .mouse evt → r.state.winkey ≠ 1
  /-- No character is passed through as the keysym of a modifier, unless it changes nothing. -/
  plain : ∀ evt keySym winkey, e = .key evt → eventAction transposeRightMods r.state evt = .sendKey keySym winkey →
    ∀ b : Modifier, keySym = b.keySym → has (eventMask r.state e) b = evt.keyPressed

/-- The release of the last modifier that is held. -/
def LastRelease (s : State) : Event → Prop
  | .key evt =>
    match eventAction transposeRightMods s evt with
    | .releaseModifier b keyMod => evt.keyReleased = true ∧ ∀ b', has keyMod b' = true → b = some b'
    | .sendKey _ winkey => winkey = 2 ∧ ∀ b, has evt.keyMod b = false
    | _ => False
  | .mouse _ => False

/-- What an event is to send. -/
structure Agrees (s : State) (e : Event) (s' : State) : Prop where
  sent : Before (fun pre msg => s.os.length ≤ pre.length → ¬msg.IsModifier →
    ∀ b, holds pre b = has (eventMask s e) b) s'.os
  released : LastRelease transposeRightMods s e → ∀ b, holds s'.os b = false

end Events

def freshViewer : State :=
  { oldModifiers := 0, winkey := 0, brokenKeyPressed := false, useMenuModifiers := false, lastAltPressed := 0,
    pointerMask := 0, os := [] }

theorem holds_key (os : List Msg) (keySym : Nat) (down : Bool) (b : Modifier) :
    holds (os ++ [.key keySym down]) b = if keySym = b.keySym then down else holds os b := by
  rw [holds, List.foldl_append]
  rfl

theorem holds_pointer (os : List Msg) (pointerMask x y : Nat) (b : Modifier) :
    holds (os ++ [.pointer pointerMask x y]) b = holds os b := by
  rw [holds, List.foldl_append]
  rfl

theorem keySym_injective {b b' : Modifier} : b.keySym = b'.keySym ↔ b = b' := by
  cases b <;> cases b' <;> decide

theorem bit_injective {b b' : Modifier} : b.bit = b'.bit ↔ b = b' := by
  cases b <;> cases b' <;> decide

theorem bit_lt (b : Modifier) : b.bit < 32 := by
  cases b <;> decide

theorem mem_modifierOrder (b : Modifier) : b ∈ modifierOrder := by
  cases b <;> decide

theorem has_mask (b b' : Modifier) : has b.mask b' = decide (b = b') := by
  rw [has, Modifier.mask, BitVec.getLsbD_twoPow]
  simp [bit_lt, bit_injective]

theorem has_or (m m' : Mask) (b : Modifier) : has (m ||| m') b = (has m b || has m' b) := BitVec.getLsbD_or

theorem has_and (m m' : Mask) (b : Modifier) : has (m &&& m') b = (has m b && has m' b) := BitVec.getLsbD_and

theorem has_not (m : Mask) (b : Modifier) : has (~~~m) b = !has m b := by
  rw [has, BitVec.getLsbD_not, decide_eq_true (bit_lt b), Bool.true_and]
  rfl

theorem has_zero (b : Modifier) : has 0 b = false := BitVec.getLsbD_zero

theorem and_mask (m : Mask) (b : Modifier) : m &&& b.mask = if has m b then b.mask else 0 := by
  rw [Modifier.mask, BitVec.and_twoPow]
  rfl

theorem mask_ne_zero (b : Modifier) : b.mask ≠ 0 := by
  intro h
  have hbit := has_mask b b
  rw [h, has_zero] at hbit
  simp at hbit

/-- Messages from the `n`-th on that are not of modifiers are sent while the server holds those of the mask. -/
def SentUnder (mask : Mask) (n : Nat) (os : List Msg) : Prop :=
  Before (fun pre msg => n ≤ pre.length → ¬msg.IsModifier → ∀ b, holds pre b = has mask b) os

theorem sentUnder_self (mask : Mask) (os : List Msg) : SentUnder mask os.length os := by
  intro pre msg post hos hlen
  rw [hos, List.length_append, List.length_cons] at hlen
  omega

theorem SentUnder.modifier {mask : Mask} {n : Nat} {os : List Msg} (h : SentUnder mask n os) {msg : Msg}
    (hmsg : msg.IsModifier) : SentUnder mask n (os ++ [msg]) :=
  before_snoc.mpr ⟨h, fun _ hnot => absurd hmsg hnot⟩

theorem SentUnder.snoc {mask : Mask} {n : Nat} {os : List Msg} (h : SentUnder mask n os) {msg : Msg}
    (hholds : ∀ b, holds os b = has mask b) : SentUnder mask n (os ++ [msg]) :=
  before_snoc.mpr ⟨h, fun _ _ => hholds⟩

/-- What is left of a state when only messages are added to it. -/
structure Writes (s s' : State) : Prop where
  oldModifiers : s'.oldModifiers = s.oldModifiers
  winkey : s'.winkey = s.winkey
  useMenuModifiers : s'.useMenuModifiers = s.useMenuModifiers

theorem Writes.refl (s : State) : Writes s s := ⟨rfl, rfl, rfl⟩

theorem Writes.trans {s s' s'' : State} (h : Writes s s') (h' : Writes s' s'') : Writes s s'' :=
  ⟨h'.oldModifiers.trans h.oldModifiers, h'.winkey.trans h.winkey, h'.useMenuModifiers.trans h.useMenuModifiers⟩

theorem writeModifier_eq (newModifiers : Mask) (s : State) (b : Modifier) : State.writeModifier newModifiers s b =
    if has newModifiers b ≠ has s.oldModifiers b then s.writeKey b.keySym (has newModifiers b) else s := by
  have hmask : b.mask ≠ 0#32 := mask_ne_zero b
  rw [State.writeModifier, and_mask, and_mask]
  cases has newModifiers b <;> cases has s.oldModifiers b <;> simp [hmask, hmask.symm]

theorem writeModifier_writes (newModifiers : Mask) (s : State) (b : Modifier) :
    Writes s (s.writeModifier newModifiers b) := by
  unfold State.writeModifier
  split
  · exact ⟨rfl, rfl, rfl⟩
  · exact .refl s

theorem writeModifier_holds (newModifiers : Mask) (s : State) (b b' : Modifier) :
    holds (s.writeModifier newModifiers b).os b' =
      if b = b' ∧ has newModifiers b' ≠ has s.oldModifiers b' then has newModifiers b' else holds s.os b' := by
  rw [writeModifier_eq]
  by_cases hb : b = b'
  · subst hb
    split
    · simp [*, State.writeKey, State.send, holds_key]
    · simp [*]
  · split
    · simp [hb, State.writeKey, State.send, holds_key, keySym_injective]
    · simp [hb]

theorem writeModifier_sent {mask newModifiers : Mask} {n : Nat} {s : State} (h : SentUnder mask n s.os) (b : Modifier) :
    SentUnder mask n (s.writeModifier newModifiers b).os := by
  unfold State.writeModifier
  split
  · exact h.modifier ⟨b, rfl⟩
  · exact h

theorem foldl_writes (newModifiers : Mask) (bs : List Modifier) (s : State) :
    Writes s (bs.foldl (State.writeModifier newModifiers) s) := by
  induction bs generalizing s with
  | nil => exact .refl s
  | cons b bs ih => exact (writeModifier_writes newModifiers s b).trans (ih _)

theorem foldl_holds (newModifiers : Mask) (bs : List Modifier) (s : State) (b : Modifier) :
    holds (bs.foldl (State.writeModifier newModifiers) s).os b =
      if b ∈ bs ∧ has newModifiers b ≠ has s.oldModifiers b then has newModifiers b else holds s.os b := by
  induction bs generalizing s with
  | nil => simp
  | cons b' bs ih =>
    rw [List.foldl_cons, ih, (writeModifier_writes newModifiers s b').oldModifiers, writeModifier_holds]
    by_cases hb : b' = b
    · by_cases hne : has newModifiers b = has s.oldModifiers b <;> simp [hb, hne]
    · have hb' : b ≠ b' := fun heq => hb heq.symm
      simp [hb, hb']

theorem foldl_sent {mask newModifiers : Mask} {n : Nat} (bs : List Modifier) {s : State} (h : SentUnder mask n s.os) :
    SentUnder mask n (bs.foldl (State.writeModifier newModifiers) s).os := by
  induction bs generalizing s with
  | nil => exact h
  | cons b bs ih => exact ih (writeModifier_sent h b)

/-- What the server holds is `oldModifiers`, but for the bits that are stale. -/
def Tracked (os : List Msg) (oldModifiers stale : Mask) : Prop :=
  ∀ b, holds os b = (has oldModifiers b ^^ has stale b)

/-- After the modifiers are written the server holds those of the mask. -/
theorem writeModifierKeyEvents_holds {s : State} {stale newModifiers : Mask} (h : Tracked s.os s.oldModifiers stale)
    (hstale : ∀ b, has stale b = true → has newModifiers b ≠ has s.oldModifiers b) (b : Modifier) :
    holds (s.writeModifierKeyEvents newModifiers).os b = has newModifiers b := by
  show holds (modifierOrder.foldl (State.writeModifier newModifiers) s).os b = _
  rw [foldl_holds]
  split
  · rfl
  · rename_i hnot
    have heq : has newModifiers b = has s.oldModifiers b := by
      by_contra hne
      exact hnot ⟨mem_modifierOrder b, hne⟩
    cases hb : has stale b with
    | true => exact absurd heq (hstale b hb)
    | false => rw [h b, hb, heq, Bool.xor_false]

theorem writeModifierKeyEvents_sent {mask newModifiers : Mask} {n : Nat} {s : State} (h : SentUnder mask n s.os) :
    SentUnder mask n (s.writeModifierKeyEvents newModifiers).os := foldl_sent modifierOrder h

theorem writeModifierKeyEvents_winkey (s : State) (newModifiers : Mask) :
    (s.writeModifierKeyEvents newModifiers).winkey = s.winkey := (foldl_writes newModifiers modifierOrder s).winkey

theorem writeKey_holds (s : State) (keySym : Nat) (down : Bool) (b : Modifier) :
    holds (s.writeKey keySym down).os b = if keySym = b.keySym then down else holds s.os b :=
  holds_key s.os keySym down b

/-- A key is written while the server holds the modifiers of the mask. -/
theorem writeKey_sent {mask : Mask} {n : Nat} {s : State} (h : SentUnder mask n s.os)
    (hholds : ∀ b, holds s.os b = has mask b) (keySym : Nat) (down : Bool) :
    SentUnder mask n (s.writeKey keySym down).os := h.snoc hholds

section Handle

variable {transposeRightMods reverseMouseButtons2And3 : Bool} {s : State} {stale : Mask}

theorem writePointerEvent_sent {evt : MouseEvent} (h : Tracked s.os s.oldModifiers stale)
    (hstale : ∀ b, has stale b = true → has (mouseModifiers evt) b ≠ has s.oldModifiers b) :
    SentUnder (mouseModifiers evt) s.os.length (writePointerEvent reverseMouseButtons2And3 s evt).os ∧
      Tracked (writePointerEvent reverseMouseButtons2And3 s evt).os
        (writePointerEvent reverseMouseButtons2And3 s evt).oldModifiers 0 := by
  unfold writePointerEvent
  extract_lets pointerMask s₁ s₂ s₃
  have hholds : ∀ b, holds s₁.os b = has (mouseModifiers evt) b :=
    writeModifierKeyEvents_holds (s := { s with pointerMask := pointerMask }) h hstale
  have hsent₁ : SentUnder (mouseModifiers evt) s.os.length s₁.os :=
    writeModifierKeyEvents_sent (s := { s with pointerMask := pointerMask }) (sentUnder_self _ s.os)
  have hsent : SentUnder (mouseModifiers evt) s.os.length s₂.os := hsent₁.snoc hholds
  have htracked : Tracked s₂.os s₂.oldModifiers 0 := by
    intro b
    show holds (s₁.os ++ [_]) b = _
    rw [holds_pointer, hholds b, has_zero, Bool.xor_false]
    rfl
  have hlast : SentUnder (mouseModifiers evt) s.os.length s₃.os ∧ Tracked s₃.os s₃.oldModifiers 0 := by
    unfold s₃
    split
    · refine ⟨writeModifierKeyEvents_sent hsent, fun b => ?_⟩
      have hzero : ∀ b', has 0 b' = true → has 0 b' ≠ has s₂.oldModifiers b' := by
        intro b' hb'
        rw [has_zero] at hb'
        cases hb'
      rw [writeModifierKeyEvents_holds htracked hzero, has_zero, Bool.xor_false]
      exact (has_zero b).symm
    · exact ⟨hsent, htracked⟩
  split
  · exact hlast
  · exact hlast

theorem writePointerEvent_winkey (evt : MouseEvent) :
    (writePointerEvent reverseMouseButtons2And3 s evt).winkey = s.winkey := by
  unfold writePointerEvent
  extract_lets pointerMask s₁ s₂ s₃
  have hwin : s₂.winkey = s.winkey :=
    writeModifierKeyEvents_winkey { s with pointerMask := pointerMask } (mouseModifiers evt)
  have hlast : s₃.winkey = s.winkey := by
    unfold s₃
    split
    · rw [writeModifierKeyEvents_winkey, hwin]
    · exact hwin
  split
  · exact hlast
  · exact hlast

theorem not_fresh {m m' : Mask} (b : Modifier) (hb : has 0 b = true) : has m b ≠ has m' b := by
  rw [has_zero] at hb
  cases hb

/-- A key that is not a modifier, or that leaves it as it is in the mask. -/
theorem writeKey_tracked {mask : Mask} {keySym : Nat} {down : Bool} (hold : s.oldModifiers = mask)
    (hholds : ∀ b, holds s.os b = has mask b) (hplain : ∀ b : Modifier, keySym = b.keySym → has mask b = down) :
    Tracked (s.writeKey keySym down).os (s.writeKey keySym down).oldModifiers 0 := by
  intro b
  rw [writeKey_holds, has_zero, Bool.xor_false]
  show _ = has s.oldModifiers b
  rw [hold]
  split
  · rename_i heq
    exact (hplain b heq).symm
  · exact hholds b

theorem not_modifier_of_faked {keySym : Nat} (h : keySym ∈ fakedKeySyms) (b : Modifier) : keySym ≠ b.keySym := by
  rintro rfl
  cases b <;> revert h <;> decide

/-- What the faked press of a key leaves: either nothing is sent, or the modifiers of the mask are written. -/
theorem fakeKeyPress_spec {evt : KeyEvent} (keySym : Nat) {n : Nat} {mask : Mask} (hmask : mask = evt.keyMod ||| winMask s.winkey)
    (h : Tracked s.os s.oldModifiers stale) (hstale : ∀ b, has stale b = true → has mask b ≠ has s.oldModifiers b)
    (hsent : SentUnder mask n s.os) : ∃ stale',
      Tracked (fakeKeyPress evt keySym s).os (fakeKeyPress evt keySym s).oldModifiers stale' ∧
      (∀ b, has stale' b = true → has mask b ≠ has (fakeKeyPress evt keySym s).oldModifiers b) ∧
      SentUnder mask n (fakeKeyPress evt keySym s).os ∧ (fakeKeyPress evt keySym s).winkey = s.winkey := by
  unfold fakeKeyPress
  split
  · rename_i hfaked
    extract_lets s₁ s₂
    have hs₁ : s₁.os = s.os ∧ s₁.oldModifiers = s.oldModifiers ∧ s₁.winkey = s.winkey := by
      unfold s₁
      split
      · exact ⟨rfl, rfl, rfl⟩
      · exact ⟨rfl, rfl, rfl⟩
    obtain ⟨hos, hold, hwin⟩ := hs₁
    have hs₂ : ∃ stale', Tracked s₂.os s₂.oldModifiers stale' ∧
        (∀ b, has stale' b = true → has mask b ≠ has s₂.oldModifiers b) ∧ SentUnder mask n s₂.os ∧
        s₂.winkey = s.winkey := by
      unfold s₂
      split
      · rw [hwin, ← hmask]
        have htracked : Tracked s₁.os s₁.oldModifiers stale := by rwa [hos, hold]
        have hstale₁ : ∀ b, has stale b = true → has mask b ≠ has s₁.oldModifiers b := by rwa [hold]
        have hholds := writeModifierKeyEvents_holds htracked hstale₁
        have hsent₁ : SentUnder mask n s₁.os := by rwa [hos]
        refine ⟨0, ?_, fun b hb => not_fresh b hb, ?_, ?_⟩
        · exact writeKey_tracked rfl hholds fun b hb => absurd hb (not_modifier_of_faked hfaked b)
        · exact writeKey_sent (writeModifierKeyEvents_sent hsent₁) hholds keySym true
        · exact (writeModifierKeyEvents_winkey s₁ mask).trans hwin
      · refine ⟨stale, ?_, ?_, ?_, hwin⟩
        · rwa [hos, hold]
        · rwa [hold]
        · rwa [hos]
    split
    · exact hs₂
    · exact hs₂
  · exact ⟨stale, h, hstale, hsent, rfl⟩

theorem sendKey_winkey {evt : KeyEvent} {keySym winkey : Nat}
    (h : eventAction transposeRightMods s evt = .sendKey keySym winkey) :
    winkey = s.winkey ∨ (s.winkey = 1 ∧ winkey = 2 ∧ keySym = 0 ∧ evt.keyPressed = false) ∨
      (s.winkey ≠ 1 ∧ winkey = 0) := by
  have hkey : keyAction s evt = .sendKey keySym winkey →
      winkey = s.winkey ∨ (s.winkey = 1 ∧ winkey = 2 ∧ keySym = 0 ∧ evt.keyPressed = false) ∨
      (s.winkey ≠ 1 ∧ winkey = 0) := by
    intro h
    unfold keyAction at h
    split at h
    · split at h
      · split at h
        · cases h
        · rename_i hpressed
          split at h
          · cases h
            by_cases hwin : s.winkey = 1
            · exact .inr (.inl ⟨hwin, if_pos hwin, rfl, by simpa using hpressed⟩)
            · exact .inr (.inr ⟨hwin, if_neg hwin⟩)
          · cases h
            exact .inl rfl
      · split at h
        · cases h
        · cases h
          exact .inl rfl
    · split at h
      · cases h
      · cases h
        exact .inl rfl
  unfold eventAction at h
  split at h
  · split at h
    · cases h
    · split at h
      · cases h
      · split at h
        · cases h
        · split at h
          · exact hkey h
          · cases h
  · exact hkey h

theorem sendKeyEvent_spec {evt : KeyEvent} {keySym n : Nat} {mask : Mask} (hwin : s.winkey = 0 ∨ s.winkey = 1)
    (hmask : mask = evt.keyMod ||| winMask s.winkey) (h : Tracked s.os s.oldModifiers stale)
    (hstale : ∀ b, has stale b = true → has mask b ≠ has s.oldModifiers b)
    (hplain : ∀ b : Modifier, keySym = b.keySym → has mask b = evt.keyPressed) (hsent : SentUnder mask n s.os) :
    SentUnder mask n (sendKeyEvent evt keySym s).os ∧
      Tracked (sendKeyEvent evt keySym s).os (sendKeyEvent evt keySym s).oldModifiers 0 ∧
      (sendKeyEvent evt keySym s).winkey = s.winkey := by
  have heq : sendKeyEvent evt keySym s = (s.writeModifierKeyEvents mask).writeKey keySym evt.keyPressed := by
    subst hmask
    rcases hwin with hwin | hwin
    · simp [sendKeyEvent, hwin, winMask]
    · simp [sendKeyEvent, hwin, winMask]
  have hholds := writeModifierKeyEvents_holds h hstale
  rw [heq]
  refine ⟨?_, ?_, ?_⟩
  · exact writeKey_sent (writeModifierKeyEvents_sent hsent) hholds keySym evt.keyPressed
  · exact writeKey_tracked rfl hholds hplain
  · exact writeModifierKeyEvents_winkey s mask

/-- The release of the Windows key is sent, and its bit stays in `oldModifiers`. -/
theorem sendWinRelease_spec {evt : KeyEvent} (keySym : Nat) {n : Nat} {mask : Mask} (hwin : s.winkey = 2)
    (hpressed : evt.keyPressed = false) (h : Tracked s.os s.oldModifiers stale)
    (hstale : ∀ b, has stale b = true → has (evt.keyMod ||| Modifier.windows.mask) b ≠ has s.oldModifiers b)
    (hsent : SentUnder mask n s.os) :
    SentUnder mask n (sendKeyEvent evt keySym s).os ∧ (sendKeyEvent evt keySym s).winkey = 0 ∧
      (sendKeyEvent evt keySym s).oldModifiers = evt.keyMod ||| Modifier.windows.mask ∧
      ∀ b, holds (sendKeyEvent evt keySym s).os b = (has evt.keyMod b && decide (b ≠ .windows)) := by
  have heq : sendKeyEvent evt keySym s =
      ({ s with winkey := 0 }.writeModifierKeyEvents (evt.keyMod ||| Modifier.windows.mask)).writeKey
        Modifier.windows.keySym false := by
    rw [← hpressed]
    simp only [sendKeyEvent, hwin]
  rw [heq]
  refine ⟨?_, ?_, rfl, fun b => ?_⟩
  · exact SentUnder.modifier (writeModifierKeyEvents_sent (s := { s with winkey := 0 }) hsent) ⟨.windows, rfl⟩
  · exact writeModifierKeyEvents_winkey { s with winkey := 0 } _
  · have hholds := writeModifierKeyEvents_holds (s := { s with winkey := 0 }) h hstale b
    rw [writeKey_holds, hholds, has_or, has_mask]
    cases b <;> simp [Modifier.keySym]

theorem keyMod_windows (evt : KeyEvent) : has evt.keyMod .windows = false := by
  rw [has, KeyEvent.keyMod, BitVec.getLsbD_setWidth, BitVec.getLsbD_of_ge _ _ (by decide), Bool.and_false]

theorem releaseModifier_spec {b : Option Modifier} {keyMod mask : Mask} {n : Nat}
    (h : Tracked s.os s.oldModifiers stale) (hstale : ∀ b, has stale b = true → has keyMod b ≠ has s.oldModifiers b)
    (hmask : b = none → mask = keyMod) (hsent : SentUnder mask n s.os) :
    SentUnder mask n ((s.writeModifierKeyEvents keyMod).writeKey (keySymOf b) false).os ∧
      ∀ b', holds ((s.writeModifierKeyEvents keyMod).writeKey (keySymOf b) false).os b' =
        (has keyMod b' && !has (maskOf b) b') := by
  have hholds := writeModifierKeyEvents_holds h hstale
  have hsent' : SentUnder mask n (s.writeModifierKeyEvents keyMod).os := writeModifierKeyEvents_sent hsent
  cases b with
  | none =>
    refine ⟨writeKey_sent hsent' ?_ 0 false, fun b' => ?_⟩
    · rw [hmask rfl]
      exact hholds
    · rw [writeKey_holds, hholds]
      have hzero : has (maskOf none) b' = false := has_zero b'
      rw [hzero]
      cases b' <;> simp [keySymOf, Modifier.keySym]
  | some b =>
    refine ⟨hsent'.modifier ⟨b, rfl⟩, fun b' => ?_⟩
    have hbit : has (maskOf (some b)) b' = decide (b = b') := has_mask b b'
    rw [writeKey_holds, hholds, hbit]
    show (if b.keySym = b'.keySym then _ else _) = _
    by_cases heq : b = b'
    · simp [heq]
    · simp [heq, keySym_injective]

/-- What the record of the viewer and the server agree on between events. -/
structure Inv (r : Run) : Prop where
  tracked : Tracked r.state.os r.state.oldModifiers r.stale
  winkey : r.state.winkey = 0 ∨ r.state.winkey = 1

theorem agrees_of_silent {e : Event} {s' : State} (hos : s'.os = s.os) (hnot : ¬LastRelease transposeRightMods s e) :
    Agrees transposeRightMods s e s' := by
  constructor
  · rw [hos]
    exact sentUnder_self _ _
  · exact fun h => absurd h hnot

theorem step_sendKey {r r' : Run} {evt : KeyEvent} {keySym winkey : Nat} (hr : Inv r)
    (hclear : Clear transposeRightMods r (.key evt))
    (haction : eventAction transposeRightMods r.state evt = .sendKey keySym winkey)
    (hstate : r'.state = sendKeyEvent evt keySym (fakeKeyPress evt keySym { r.state with winkey := winkey }))
    (hstale : r'.stale = if winkey = 2 then Modifier.windows.mask else 0) :
    Inv r' ∧ Agrees transposeRightMods r.state (.key evt) r'.state := by
  have hwritten : writtenMask transposeRightMods r.state (.key evt) =
      some (evt.keyMod ||| if winkey = 0 then 0 else Modifier.windows.mask) := by
    simp only [writtenMask, haction]
  have hrefreshed := hclear.refreshed _ hwritten
  have hcases : winkey = r.state.winkey ∨ (winkey = 2 ∧ keySym = 0 ∧ evt.keyPressed = false) := by
    rcases sendKey_winkey haction with hwin | ⟨_, hwin, hzero, hpressed⟩ | ⟨hne, hwin⟩
    · exact .inl hwin
    · exact .inr ⟨hwin, hzero, hpressed⟩
    · exact .inl (hwin.trans (hr.winkey.resolve_right hne).symm)
  rcases hcases with rfl | ⟨rfl, rfl, hpressed⟩
  · -- the Windows key keeps its state: the mask is that of the event
    have hmask : (evt.keyMod ||| if r.state.winkey = 0 then 0 else Modifier.windows.mask) =
        evt.keyMod ||| winMask r.state.winkey := by
      rcases hr.winkey with hwin | hwin
      · simp [hwin, winMask]
      · simp [hwin, winMask]
    rw [hmask] at hrefreshed
    obtain ⟨stale', htracked, hstale', hsent, hwin⟩ := fakeKeyPress_spec (s := r.state) keySym
      rfl hr.tracked hrefreshed (sentUnder_self _ r.state.os)
    have hplain := hclear.plain evt keySym r.state.winkey rfl haction
    obtain ⟨hsent', htracked', hwin'⟩ := sendKeyEvent_spec (hwin ▸ hr.winkey) (by rw [hwin]) htracked hstale' hplain hsent
    have hne : r.state.winkey ≠ 2 := by
      rcases hr.winkey with h | h <;> omega
    rw [if_neg hne] at hstale
    rw [← hstate] at hsent' htracked' hwin'
    refine ⟨⟨?_, ?_⟩, ⟨hsent', ?_⟩⟩
    · rwa [hstale]
    · rw [hwin', hwin]
      exact hr.winkey
    · intro hlast
      simp only [LastRelease, haction] at hlast
      exact absurd hlast.1 hne
  · -- the Windows key is released
    have hfake : fakeKeyPress evt 0 { r.state with winkey := 2 } = { r.state with winkey := 2 } := rfl
    rw [hfake] at hstate
    obtain ⟨hsent, hwin, hold, hholds⟩ := sendWinRelease_spec (s := { r.state with winkey := 2 }) 0 rfl
      hpressed hr.tracked hrefreshed (sentUnder_self (eventMask r.state (.key evt)) r.state.os)
    rw [← hstate] at hsent hwin hold hholds
    refine ⟨⟨fun b => ?_, .inl hwin⟩, ⟨hsent, ?_⟩⟩
    · rw [hholds, hold, hstale, if_pos rfl, has_or, has_mask]
      have hnone := keyMod_windows evt
      cases b <;> simp [hnone]
    · intro hlast b
      simp only [LastRelease, haction] at hlast
      rw [hholds, hlast.2, Bool.false_and]

theorem keyAction_ne_releaseModifier (evt : KeyEvent) (b : Option Modifier) (keyMod : Mask) :
    keyAction s evt ≠ .releaseModifier b keyMod := by
  unfold keyAction
  split
  · split
    · split
      · exact KeyAction.noConfusion
      · split
        · exact KeyAction.noConfusion
        · exact KeyAction.noConfusion
    · split
      · exact KeyAction.noConfusion
      · exact KeyAction.noConfusion
  · split
    · exact KeyAction.noConfusion
    · exact KeyAction.noConfusion

theorem releaseModifier_keyMod {evt : KeyEvent} {b : Option Modifier} {keyMod : Mask}
    (h : eventAction transposeRightMods s evt = .releaseModifier b keyMod) :
    keyMod = evt.keyMod ||| maskOf b ||| winMask s.winkey := by
  unfold eventAction at h
  split at h
  · split at h
    · cases h
    · split at h
      · cases h
      · split at h
        · cases h
          rfl
        · split at h
          · exact absurd h (keyAction_ne_releaseModifier evt b keyMod)
          · cases h
  · exact absurd h (keyAction_ne_releaseModifier evt b keyMod)

theorem step_releaseModifier {r r' : Run} {evt : KeyEvent} {b : Option Modifier} {keyMod : Mask} (hr : Inv r)
    (hclear : Clear transposeRightMods r (.key evt))
    (haction : eventAction transposeRightMods r.state evt = .releaseModifier b keyMod)
    (hstate : r'.state = writeKeyEvent transposeRightMods r.state evt) (hstale : r'.stale = keyMod &&& ~~~maskOf b) :
    Inv r' ∧ Agrees transposeRightMods r.state (.key evt) r'.state := by
  have hwritten : writtenMask transposeRightMods r.state (.key evt) = some keyMod := by
    simp only [writtenMask, haction]
  have hrefreshed := hclear.refreshed _ hwritten
  obtain ⟨s₁, hos, hold, hwin, heq⟩ : ∃ s₁ : State, s₁.os = r.state.os ∧ s₁.oldModifiers = r.state.oldModifiers ∧
      s₁.winkey = r.state.winkey ∧ r'.state =
        { (s₁.writeModifierKeyEvents keyMod).writeKey (keySymOf b) false with oldModifiers := keyMod &&& ~~~keyMod } := by
    rw [hstate, writeKeyEvent, haction]
    dsimp only
    split
    · exact ⟨{ r.state with lastAltPressed := evt.currentTimeMillis }, rfl, rfl, rfl, rfl⟩
    · exact ⟨r.state, rfl, rfl, rfl, rfl⟩
  have hmask : b = none → eventMask r.state (.key evt) = keyMod := by
    rintro rfl
    rw [releaseModifier_keyMod haction, eventMask]
    simp [maskOf]
  obtain ⟨hsent, hholds⟩ := @releaseModifier_spec s₁ r.stale b keyMod _ r.state.os.length (by rw [hos, hold]; exact hr.tracked)
    (by rwa [hold]) hmask (by rw [hos]; exact sentUnder_self _ _)
  refine ⟨⟨fun b' => ?_, ?_⟩, ⟨?_, ?_⟩⟩
  · rw [hstale, heq]
    show holds ((s₁.writeModifierKeyEvents keyMod).writeKey (keySymOf b) false).os b' = _
    rw [hholds, has_and, has_not, has_and, has_not, Bool.and_not_self, Bool.false_xor]
  · rw [heq]
    show (s₁.writeModifierKeyEvents keyMod).winkey = 0 ∨ (s₁.writeModifierKeyEvents keyMod).winkey = 1
    rw [writeModifierKeyEvents_winkey, hwin]
    exact hr.winkey
  · rw [heq]
    exact hsent
  · intro hlast b'
    simp only [LastRelease, haction] at hlast
    rw [heq]
    show holds ((s₁.writeModifierKeyEvents keyMod).writeKey (keySymOf b) false).os b' = false
    rw [hholds]
    cases hb : has keyMod b' with
    | false => rfl
    | true =>
      rw [hlast.2 b' hb]
      show (true && !has b'.mask b') = false
      rw [has_mask]
      simp

theorem step_inv {r r' : Run} {e : Event} (hr : Inv r) (hclear : Clear transposeRightMods r e)
    (hstep : step transposeRightMods reverseMouseButtons2And3 r e r') :
    Inv r' ∧ Agrees transposeRightMods r.state e r'.state := by
  obtain ⟨hstate, hstale, hmenu⟩ := hstep
  cases e with
  | mouse evt =>
    have hrefreshed := hclear.refreshed _ rfl
    have hwin : r.state.winkey = 0 := hr.winkey.resolve_right (hclear.pointer evt rfl)
    obtain ⟨hsent, htracked⟩ := @writePointerEvent_sent reverseMouseButtons2And3 r.state r.stale evt hr.tracked hrefreshed
    have hmask : eventMask r.state (.mouse evt) = mouseModifiers evt := by simp [eventMask, hwin, winMask]
    rw [handle] at hstate
    rw [← hstate] at hsent htracked
    refine ⟨⟨?_, ?_⟩, ⟨?_, fun hlast => hlast.elim⟩⟩
    · rw [hstale]
      exact htracked
    · rw [hstate, writePointerEvent_winkey]
      exact hr.winkey
    · rw [hmask]
      exact hsent
  | key evt =>
    cases haction : eventAction transposeRightMods r.state evt with
    | ignore =>
      have hs : r'.state = r.state := by rw [hstate, handle, writeKeyEvent, haction]
      have hst : r'.stale = r.stale := by rw [hstale, nextStale, haction]
      refine ⟨⟨?_, ?_⟩, agrees_of_silent (congrArg State.os hs) ?_⟩
      · rw [hs, hst]
        exact hr.tracked
      · rw [hs]
        exact hr.winkey
      · simp [LastRelease, haction]
    | winPressed =>
      have hs : r'.state = { r.state with winkey := 1 } := by rw [hstate, handle, writeKeyEvent, haction]
      have hst : r'.stale = r.stale := by rw [hstale, nextStale, haction]
      refine ⟨⟨?_, ?_⟩, agrees_of_silent (by rw [hs]) ?_⟩
      · rw [hs, hst]
        exact hr.tracked
      · rw [hs]
        exact .inr rfl
      · simp [LastRelease, haction]
    | showSplKeysMenu =>
      have hs : r'.state = initilizeModifierMenu r.state := by rw [hstate, handle, writeKeyEvent, haction]
      have hshown : (initilizeModifierMenu r.state).useMenuModifiers = true :=
        (foldl_writes Modifier.altL.mask modifierOrder _).useMenuModifiers
      rw [hs, hshown] at hmenu
      cases hmenu
    | releaseModifier b keyMod =>
      exact step_releaseModifier hr hclear haction hstate (by rw [hstale, nextStale, haction])
    | sendKey keySym winkey =>
      apply step_sendKey hr hclear haction
      · rw [hstate, handle, writeKeyEvent, haction]
      · rw [hstale, nextStale, haction]

end Handle

section Runs

variable (transposeRightMods reverseMouseButtons2And3 : Bool)

/-- The runs from the release of all modifiers but the Meta keys. -/
def start (s : State) : Run := ⟨sendFakeModifiersRelease s, 0⟩

theorem release_holds (bs : List Modifier) (s : State) (b : Modifier) :
    holds (bs.foldl (fun s b => s.writeKey b.keySym false) s).os b = if b ∈ bs then false else holds s.os b := by
  induction bs generalizing s with
  | nil => simp
  | cons b' bs ih =>
    rw [List.foldl_cons, ih, writeKey_holds]
    by_cases hb : b' = b
    · simp [hb]
    · have hb' : b ≠ b' := fun heq => hb heq.symm
      simp [hb, hb', keySym_injective]

theorem release_winkey (bs : List Modifier) (s : State) :
    (bs.foldl (fun s b => s.writeKey b.keySym false) s).winkey = s.winkey := by
  induction bs generalizing s with
  | nil => rfl
  | cons b bs ih => exact ih _

theorem start_inv {s : State} (hmetaL : holds s.os .metaL = false) (hmetaR : holds s.os .metaR = false)
    (hwin : s.winkey = 0 ∨ s.winkey = 1) : Inv (start s) := by
  constructor
  · intro b
    have hreleased : holds (sendFakeModifiersRelease s).os b = false := by
      rw [sendFakeModifiersRelease, release_holds]
      cases b <;> simp [fakelyReleased, hmetaL, hmetaR]
    have hnone : has (start s).state.oldModifiers b = false := has_zero b
    have hstale : has (start s).stale b = false := has_zero b
    rw [hnone, hstale]
    exact hreleased
  · rwa [start, sendFakeModifiersRelease, release_winkey]

theorem fakeKeyPress_winkey (evt : KeyEvent) (keySym : Nat) (s : State) :
    (fakeKeyPress evt keySym s).winkey = s.winkey := by
  unfold fakeKeyPress
  split
  · extract_lets s₁ s₂
    have hs₁ : s₁.winkey = s.winkey := by
      unfold s₁
      split
      · rfl
      · rfl
    have hs₂ : s₂.winkey = s.winkey := by
      unfold s₂
      split
      · exact (writeModifierKeyEvents_winkey s₁ _).trans hs₁
      · exact hs₁
    split
    · exact hs₂
    · exact hs₂
  · rfl

theorem sendKeyEvent_winkey (evt : KeyEvent) (keySym : Nat) (s : State) :
    (sendKeyEvent evt keySym s).winkey = if s.winkey = 2 then 0 else s.winkey := by
  unfold sendKeyEvent
  split
  · rename_i hwin
    rw [hwin]
    exact (writeModifierKeyEvents_winkey s _).trans hwin
  · rename_i hwin
    rw [hwin]
    exact writeModifierKeyEvents_winkey { s with winkey := 0 } _
  · rename_i hone htwo
    rw [if_neg htwo]
    exact writeModifierKeyEvents_winkey s _

/-- Between events the Windows key is either up or down. -/
theorem handle_winkey {s : State} (hwin : s.winkey = 0 ∨ s.winkey = 1) (e : Event) :
    (handle transposeRightMods reverseMouseButtons2And3 s e).winkey = 0 ∨
      (handle transposeRightMods reverseMouseButtons2And3 s e).winkey = 1 := by
  cases e with
  | mouse evt =>
    rw [handle, writePointerEvent_winkey]
    exact hwin
  | key evt =>
    rw [handle, writeKeyEvent]
    cases haction : eventAction transposeRightMods s evt with
    | ignore => exact hwin
    | winPressed => exact .inr rfl
    | showSplKeysMenu =>
      left
      exact (foldl_writes Modifier.altL.mask modifierOrder _).winkey
    | releaseModifier b keyMod =>
      dsimp only [State.writeKey, State.send]
      rw [writeModifierKeyEvents_winkey]
      split
      · exact hwin
      · exact hwin
    | sendKey keySym winkey =>
      dsimp only
      rw [sendKeyEvent_winkey, fakeKeyPress_winkey]
      rcases sendKey_winkey haction with rfl | ⟨_, rfl, _⟩ | ⟨_, rfl⟩
      · have hne : s.winkey ≠ 2 := by
          rcases hwin with h | h
          · omega
          · omega
        dsimp only
        rw [if_neg hne]
        exact hwin
      · exact .inl rfl
      · exact .inl rfl

/-- In every run from there whose events are clear of the defects, the server holds the modifiers of each event
when its key or pointer message is sent, and none after the last one is released. -/
theorem modifiers_agree (r₀ r r' : Run) (e : Event)
    (hr₀ : Reachable (step transposeRightMods reverseMouseButtons2And3) (fun _ _ => True) ⟨freshViewer, 0⟩ r₀)
    (hmetaL : holds r₀.state.os .metaL = false) (hmetaR : holds r₀.state.os .metaR = false)
    (hr : Reachable (step transposeRightMods reverseMouseButtons2And3) (Clear transposeRightMods) (start r₀.state) r)
    (hclear : Clear transposeRightMods r e) (hstep : step transposeRightMods reverseMouseButtons2And3 r e r') :
    Agrees transposeRightMods r.state e r'.state := by
  have hwin : r₀.state.winkey = 0 ∨ r₀.state.winkey = 1 := by
    apply hr₀.invariant fun r => r.state.winkey = 0 ∨ r.state.winkey = 1
    · exact .inl rfl
    · intro r e r' hwin _ hstep
      rw [hstep.1]
      exact handle_winkey transposeRightMods reverseMouseButtons2And3 hwin e
  have hinv : Inv r := by
    apply hr.invariant Inv
    · exact start_inv hmetaL hmetaR hwin
    · exact fun r e r' hr hclear hstep => (step_inv hr hclear hstep).1
  exact (step_inv hinv hclear hstep).2

/-- A press of `e` with the left control key. -/
def ctrlE : KeyEvent :=
  { id := .keyPressed, keyCode := .other false, keyChar := ⟨101, by decide⟩, keyLoc := .other, modifiers := 2,
    currentTimeMillis := 0 }

theorem modifiers_agree_ctrlE : Agrees true (start freshViewer).state (.key ctrlE)
    (handle true false (start freshViewer).state (.key ctrlE)) := by
  apply modifiers_agree true false ⟨freshViewer, 0⟩ (start freshViewer)
    ⟨handle true false (start freshViewer).state (.key ctrlE), nextStale true (start freshViewer).state 0 (.key ctrlE)⟩
    (.key ctrlE) .init rfl rfl .init
  · constructor
    · exact fun _ _ b hb => not_fresh b hb
    · exact fun _ he => Event.noConfusion he
    · rintro evt keySym winkey he haction b rfl
      cases he
      have hsent : eventAction true (start freshViewer).state ctrlE = .sendKey 101 0 := by decide
      rw [hsent] at haction
      cases b <;> cases haction
  · exact ⟨rfl, rfl, rfl⟩

/-- The Windows key, and a press of `e`. -/
def winEvent (id : KeyId) : Event :=
  .key { id := id, keyCode := .vkWindows, keyChar := charUndefined, keyLoc := .left, modifiers := 0, currentTimeMillis := 0 }

def pressE : Event :=
  .key { id := .keyPressed, keyCode := .other false, keyChar := ⟨101, by decide⟩, keyLoc := .other, modifiers := 0,
         currentTimeMillis := 0 }

def advance (r : Run) (e : Event) : Run := ⟨handle true false r.state e, nextStale true r.state r.stale e⟩

/-- The Windows key is tapped, and held again: the server does not see it pressed when `e` comes. -/
def winTapRun : Run := [winEvent .keyPressed, winEvent .keyReleased, winEvent .keyPressed].foldl advance (start freshViewer)

theorem winTap_disagrees : Reachable (step true false) (fun _ _ => True) (start freshViewer) winTapRun ∧
    step true false winTapRun pressE (advance winTapRun pressE) ∧
    ¬Agrees true winTapRun.state pressE (advance winTapRun pressE).state := by
  refine ⟨?_, ⟨rfl, rfl, rfl⟩, fun h => ?_⟩
  · have hstep : ∀ r e, (advance r e).state.useMenuModifiers = false → step true false r e (advance r e) :=
      fun r e hmenu => ⟨rfl, rfl, hmenu⟩
    exact .step (.step (.step .init trivial (hstep _ (winEvent .keyPressed) rfl)) trivial
      (hstep _ (winEvent .keyReleased) rfl)) trivial (hstep _ (winEvent .keyPressed) rfl)
  · have hlost := h.sent winTapRun.state.os (.key 101 true) [] rfl (le_refl _) (by rintro ⟨b, hb⟩; cases b <;> cases hb)
      .windows
    revert hlost
    decide

end Runs

end Colama.Tightvnc

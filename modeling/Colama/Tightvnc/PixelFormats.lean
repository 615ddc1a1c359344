import Colama.Xvnc.Pixels

namespace Colama.Tightvnc

open Xvnc (Bpp)

/-- The choices for `Restricted colors`. -/
inductive ColorChoice
  | yes | no | bits16 | bits32
  deriving DecidableEq

def ColorChoice.eightBitColors (c : ColorChoice) : Bool := decide (c = .yes)
def ColorChoice.sixteenBitColors (c : ColorChoice) : Bool := decide (c = .bits16)

structure SetPixelFormat where
  bitsPerPixel : Nat
  depth : Nat
  bigEndian : Bool
  trueColour : Bool
  redMax : Nat
  greenMax : Nat
  blueMax : Nat
  redShift : Nat
  greenShift : Nat
  blueShift : Nat

/-- The bytes per pixel that the decoder goes by, and the messages that have been written. -/
structure PixelState where
  bytesPixel : Nat
  written : List SetPixelFormat

/-- The first `setPixelFormat`. The message for 16 bits is commented out. -/
def setPixelFormat (options : ColorChoice) (s : PixelState) : PixelState :=
  if options.eightBitColors then
    { bytesPixel := 1, written := s.written ++ [⟨8, 8, false, true, 7, 7, 3, 0, 3, 6⟩] }
  else if options.sixteenBitColors then { s with bytesPixel := 2 }
  else { bytesPixel := 4, written := s.written ++ [⟨32, 24, false, true, 255, 255, 255, 16, 8, 0⟩] }

/-- The second `setPixelFormat`. -/
def setPixelFormatBpp (bpp : Nat) (s : PixelState) : PixelState :=
  if bpp / 8 ≠ s.bytesPixel then { s with bytesPixel := bpp / 8 } else s

/-- The state in which `processNormalProtocol` waits first, after the constructor and its own start. -/
def firstWait (server : Bpp) (options : ColorChoice) : PixelState :=
  setPixelFormatBpp (8 * server.size) (setPixelFormat options { bytesPixel := 0, written := [] })

/-- The check for a change of the options, after an update. -/
def checkFormat (s : PixelState) (options : ColorChoice) : PixelState :=
  if options.eightBitColors != decide (s.bytesPixel = 1) then setPixelFormat options s else s

/-- The states in which the viewer waits, with the options as they are at the check after each update. -/
def waits (server : Bpp) (options : ColorChoice) (later : List ColorChoice) : List PixelState :=
  later.scanl checkFormat (firstWait server options)

/-- The bytes per pixel of the format in force at the server. -/
def PixelState.inForce (server : Bpp) (s : PixelState) : Nat :=
  match s.written.getLast? with
  | some msg => msg.bitsPerPixel / 8
  | none => server.size

/-- The choice does not go from 8 to 16 bits. -/
def ColorChoice.NotFrom8To16 (a b : ColorChoice) : Prop := a = .yes → b ≠ .bits16

variable {server : Bpp} {s : PixelState}

theorem checkFormat_agrees (h : s.bytesPixel = s.inForce server) (options : ColorChoice) :
    (checkFormat s options).bytesPixel = (checkFormat s options).inForce server ↔
      (s.bytesPixel = 1 → options ≠ .bits16) := by
  cases options with
  | yes =>
    refine iff_of_true ?_ fun _ => nofun
    by_cases hone : s.bytesPixel = 1
    · simpa [checkFormat, ColorChoice.eightBitColors, hone] using hone ▸ h
    · simp [checkFormat, setPixelFormat, ColorChoice.eightBitColors, hone, PixelState.inForce]
  | no =>
    refine iff_of_true ?_ fun _ => nofun
    by_cases hone : s.bytesPixel = 1
    · simp [checkFormat, setPixelFormat, ColorChoice.eightBitColors, ColorChoice.sixteenBitColors, hone,
        PixelState.inForce]
    · simpa [checkFormat, ColorChoice.eightBitColors, hone] using h
  | bits16 =>
    by_cases hone : s.bytesPixel = 1
    · refine iff_of_false ?_ fun hne => hne hone rfl
      have hforce : s.inForce server = 1 := h.symm.trans hone
      have hcheck : checkFormat s .bits16 = { s with bytesPixel := 2 } := by
        simp [checkFormat, setPixelFormat, ColorChoice.eightBitColors, ColorChoice.sixteenBitColors, hone]
      rw [hcheck]
      intro heq
      have htwo : 2 = s.inForce server := heq
      omega
    · refine iff_of_true ?_ fun hone' => absurd hone' hone
      simpa [checkFormat, ColorChoice.eightBitColors, hone] using h
  | bits32 =>
    refine iff_of_true ?_ fun _ => nofun
    by_cases hone : s.bytesPixel = 1
    · simp [checkFormat, setPixelFormat, ColorChoice.eightBitColors, ColorChoice.sixteenBitColors, hone,
        PixelState.inForce]
    · simpa [checkFormat, ColorChoice.eightBitColors, hone] using h

/-- After a check the format has 8 bits if that is the choice. -/
theorem checkFormat_eight (options : ColorChoice) : (checkFormat s options).bytesPixel = 1 ↔ options = .yes := by
  cases options with
  | yes =>
    refine iff_of_true ?_ rfl
    by_cases hone : s.bytesPixel = 1
    · simp [checkFormat, ColorChoice.eightBitColors, hone]
    · simp [checkFormat, setPixelFormat, ColorChoice.eightBitColors, hone]
  | no =>
    refine iff_of_false ?_ nofun
    by_cases hone : s.bytesPixel = 1
    · simp [checkFormat, setPixelFormat, ColorChoice.eightBitColors, ColorChoice.sixteenBitColors, hone]
    · simp [checkFormat, ColorChoice.eightBitColors, hone]
  | bits16 =>
    refine iff_of_false ?_ nofun
    by_cases hone : s.bytesPixel = 1
    · simp [checkFormat, setPixelFormat, ColorChoice.eightBitColors, ColorChoice.sixteenBitColors, hone]
    · simp [checkFormat, ColorChoice.eightBitColors, hone]
  | bits32 =>
    refine iff_of_false ?_ nofun
    by_cases hone : s.bytesPixel = 1
    · simp [checkFormat, setPixelFormat, ColorChoice.eightBitColors, ColorChoice.sixteenBitColors, hone]
    · simp [checkFormat, ColorChoice.eightBitColors, hone]

theorem checks_agree (h : s.bytesPixel = s.inForce server) (later : List ColorChoice) :
    (∀ t ∈ later.scanl checkFormat s, t.bytesPixel = t.inForce server) ↔
      (s.bytesPixel = 1 → later.head? ≠ some .bits16) ∧ later.IsChain ColorChoice.NotFrom8To16 := by
  induction later generalizing s with
  | nil => simpa using h
  | cons options later ih =>
    have hstep := checkFormat_agrees h options
    rw [List.scanl_cons, List.forall_mem_cons, List.head?_cons]
    constructor
    · rintro ⟨-, hlater⟩
      have hnext : (checkFormat s options).bytesPixel = (checkFormat s options).inForce server := by
        apply hlater
        cases later <;> simp
      obtain ⟨hhead, hchain⟩ := (ih hnext).mp hlater
      refine ⟨fun hone heq => hstep.mp hnext hone (Option.some.inj heq), ?_⟩
      rw [List.isChain_cons]
      refine ⟨fun next hnext' hyes heq => ?_, hchain⟩
      exact hhead ((checkFormat_eight options).mpr hyes) (heq ▸ hnext')
    · rintro ⟨hhead, hchain⟩
      rw [List.isChain_cons] at hchain
      have hnext := hstep.mpr fun hone heq => hhead hone (congrArg some heq)
      refine ⟨h, (ih hnext).mpr ⟨fun hone heq => ?_, hchain.2⟩⟩
      exact hchain.1 _ heq ((checkFormat_eight options).mp hone) rfl

theorem firstWait_agrees (server : Bpp) (options : ColorChoice) :
    (firstWait server options).bytesPixel = (firstWait server options).inForce server ↔
      (options = .yes → server = .bpp8) ∧ (options = .no ∨ options = .bits32 → server = .bpp32) := by
  cases server <;> cases options <;>
    simp [firstWait, setPixelFormat, setPixelFormatBpp, ColorChoice.eightBitColors, ColorChoice.sixteenBitColors,
      PixelState.inForce, Bpp.size]

theorem firstWait_eight (server : Bpp) (options : ColorChoice) :
    (firstWait server options).bytesPixel = 1 ↔ server = .bpp8 := by
  cases server <;> cases options <;>
    simp [firstWait, setPixelFormat, setPixelFormatBpp, ColorChoice.eightBitColors, ColorChoice.sixteenBitColors,
      Bpp.size]

/-- The decoder goes by the format in force at every wait if and only if the format that is set at first is the
server's own, and the choice never goes to 16 bits from a format of 8. -/
theorem waits_agree (server : Bpp) (options : ColorChoice) (later : List ColorChoice) :
    (∀ t ∈ waits server options later, t.bytesPixel = t.inForce server) ↔
      ((options = .yes → server = .bpp8) ∧ (options = .no ∨ options = .bits32 → server = .bpp32)) ∧
        (server = .bpp8 → later.head? ≠ some .bits16) ∧ later.IsChain ColorChoice.NotFrom8To16 := by
  rw [waits, ← firstWait_agrees server options, ← firstWait_eight server options]
  constructor
  · intro h
    have hfirst : (firstWait server options).bytesPixel = (firstWait server options).inForce server := by
      apply h
      cases later <;> simp
    exact ⟨hfirst, (checks_agree hfirst later).mp h⟩
  · rintro ⟨hfirst, hlater⟩
    exact (checks_agree hfirst later).mpr hlater

theorem firstWait_disagrees :
    ¬ ∀ t ∈ waits .bpp32 .yes [], t.bytesPixel = t.inForce .bpp32 := by
  decide

end Colama.Tightvnc

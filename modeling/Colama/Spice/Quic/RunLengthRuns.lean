import Colama.Lib.Runs
import Colama.Spice.Quic.RunLengthSpec

namespace Colama.Spice.Quic

open Lib

namespace RunStates

def InRange (r : RunStates) : Prop := ∀ id, (r.get id).InRange

variable {r : RunStates} {s : RleState} {id id' : StateId}

theorem get_set_self : (r.set s id).get id = s := by
  cases id with
  | rgb => rfl
  | channel c => exact Function.update_self c s r.channels

theorem get_set_of_ne (h : id' ≠ id) : (r.set s id).get id' = r.get id' := by
  match id, id' with
  | .rgb, .rgb => exact absurd rfl h
  | .rgb, .channel _ => rfl
  | .channel _, .rgb => rfl
  | .channel c, .channel c' =>
    have hc : c' ≠ c := fun hc => h (hc ▸ rfl)
    exact Function.update_of_ne hc s r.channels

theorem InRange.set (hr : r.InRange) (hs : s.InRange) : (r.set s id).InRange := by
  intro id'
  by_cases h : id' = id
  · rw [h, get_set_self]
    exact hs
  · rw [get_set_of_ne h]
    exact hr id'

end RunStates

theorem RunEncoder.init_inRange {Io : Type} (io : Io) : (RunEncoder.init io).InRange := by
  intro id
  cases id with
  | rgb => exact RleState.init_inRange
  | channel c => exact RleState.init_inRange

namespace EncodeCall

def id : EncodeCall → StateId
  | run _ => .rgb
  | channelRun c _ => .channel c

def runlen : EncodeCall → UInt32
  | run n => n
  | channelRun _ n => n

/-- The call that reads what this one has written. -/
def back : EncodeCall → DecodeCall
  | run _ => .run
  | channelRun c _ => .channelRun c

/-- The states from that of the call on are worth more than the run. -/
def Within (e : RunEncoder BitWriter) (call : EncodeCall) : Prop :=
  call.runlen.toNat < capacity (e.get call.id).melcstate

variable (e : RunEncoder BitWriter) (call : EncodeCall)

theorem apply_eq : call.apply e = encodeAt e call.id call.runlen := by
  cases call with
  | run n => rfl
  | channelRun c n => rfl

end EncodeCall

namespace DecodeCall

def id : DecodeCall → StateId
  | run => .rgb
  | channelRun c => .channel c

/-- There are fewer ones ahead than states. -/
def Within (d : RunEncoder BitReader) (call : DecodeCall) : Prop :=
  (d.get call.id).melcstate + d.io.onesAhead < melcStates

variable (d : RunEncoder BitReader) (call : DecodeCall)

theorem apply_eq : call.apply d = decodeAt d call.id := by
  cases call with
  | run => rfl
  | channelRun c => rfl

end DecodeCall

theorem EncodeCall.back_id (call : EncodeCall) : call.back.id = call.id := by
  cases call with
  | run n => rfl
  | channelRun c n => rfl

/-- The states are in their range, and the writer's word is clear where nothing was written. -/
structure EncoderOk (e : RunEncoder BitWriter) : Prop where
  inRange : e.InRange
  io : e.io.Ok

structure DecoderOk (d : RunEncoder BitReader) : Prop where
  inRange : d.InRange
  io : d.io.Ok

section Steps

variable {e e' : RunEncoder BitWriter} {d d' : RunEncoder BitReader}

theorem EncodeCall.apply_ok {call : EncodeCall} (he : EncoderOk e) (h : call.Within e) :
    call.apply e ≠ .error .outsideJ ∧ ∀ e', call.apply e = .ok e' → EncoderOk e' := by
  obtain ⟨hits, s₁, rest, -, hfail | ⟨s', io', henc, -, hs', hio', -⟩⟩ := encodeWith_ok (he.inRange call.id) he.io h
  · have hcall : call.apply e = .error .noMoreWords := by
      rw [apply_eq]
      exact bind_eq_error.mpr (.inl hfail)
    rw [hcall]
    exact ⟨nofun, nofun⟩
  · have hcall : call.apply e = .ok ⟨e.set s' call.id, io'⟩ := by
      rw [apply_eq]
      exact bind_eq_ok.mpr ⟨_, henc, rfl⟩
    rw [hcall]
    refine ⟨nofun, fun e' h' => ?_⟩
    cases h'
    exact ⟨he.inRange.set hs', hio'⟩

theorem EncodeCall.apply_outside {call : EncodeCall} (he : EncoderOk e) (h : ¬call.Within e) :
    call.apply e = .error .outsideJ := by
  rw [apply_eq]
  exact bind_eq_error.mpr (.inl (encodeWith_outside (he.inRange call.id) (not_lt.mp h)))

theorem DecodeCall.next_ok {call : DecodeCall} (hd : DecoderOk d) (h : call.Within d) :
    call.next d ≠ .error .outsideJ ∧ ∀ d', call.next d = .ok d' → DecoderOk d' := by
  obtain hfail | ⟨r, s', io', hdec, hs', hio'⟩ := decodeWith_ok (hd.inRange call.id) hd.io h
  · have hcall : call.next d = .error .noMoreWords := by
      rw [next, apply_eq]
      exact bind_eq_error.mpr (.inl (bind_eq_error.mpr (.inl hfail)))
    rw [hcall]
    exact ⟨nofun, nofun⟩
  · have hcall : call.next d = .ok ⟨d.set s' call.id, io'⟩ := by
      rw [next, apply_eq]
      exact bind_eq_ok.mpr ⟨_, bind_eq_ok.mpr ⟨_, hdec, rfl⟩, rfl⟩
    rw [hcall]
    refine ⟨nofun, fun d' h' => ?_⟩
    cases h'
    exact ⟨hd.inRange.set hs', hio'⟩

theorem DecodeCall.next_outside {call : DecodeCall} (hd : DecoderOk d) (h : ¬call.Within d) :
    call.next d = .error .outsideJ := by
  rw [next, apply_eq]
  exact bind_eq_error.mpr (.inl (bind_eq_error.mpr (.inl (decodeWith_outside (hd.inRange call.id) hd.io (not_lt.mp h)))))

end Steps

/-- A call stays inside `J`, and what it writes is read back from the same states, to the same states. A word or more
follows it, as `flush` sees to. -/
structure RoundTrips (e : RunEncoder BitWriter) (call : EncodeCall) : Prop where
  inside : call.apply e ≠ .error .outsideJ
  back : ∀ e', call.apply e = .ok e' → ∃ written, e'.io.stream = e.io.stream ++ written ∧
    ∀ (d : RunEncoder BitReader) tail, d.toRunStates = e.toRunStates → d.io.Ok → d.io.stream = written ++ tail →
      32 ≤ tail.length → ∃ d', call.back.apply d = .ok (call.runlen.toNat, d') ∧
        d'.toRunStates = e'.toRunStates ∧ d'.io.stream = tail

theorem roundTrips_iff {e : RunEncoder BitWriter} (he : EncoderOk e) (call : EncodeCall) :
    RoundTrips e call ↔ call.Within e := by
  constructor
  · intro h
    by_contra hout
    exact h.inside (EncodeCall.apply_outside he hout)
  · intro h
    refine ⟨(EncodeCall.apply_ok he h).1, fun e' h' => ?_⟩
    rw [EncodeCall.apply_eq] at h'
    obtain ⟨⟨s', io'⟩, henc, h'⟩ := bind_eq_ok.mp h'
    cases h'
    obtain ⟨hits, s₁, rest, hsplit, hfail | ⟨s'', io'', henc', hadjust, -, -, hstream⟩⟩ :=
      encodeWith_ok (he.inRange call.id) he.io h
    · rw [henc] at hfail
      cases hfail
    · rw [henc] at henc'
      cases henc'
      refine ⟨_, hstream, fun d tail hstates hd hread htail => ?_⟩
      have hs : (d.get call.id).InRange := by
        rw [hstates]
        exact he.inRange call.id
      rw [← hstates] at hsplit
      obtain ⟨io₁, hdec, -, hleft⟩ := decodeWith_runBits hs hsplit hadjust hd hread htail
      refine ⟨⟨d.set s' call.id, io₁⟩, ?_, ?_, hleft⟩
      · rw [DecodeCall.apply_eq, call.back_id]
        exact bind_eq_ok.mpr ⟨_, hdec, rfl⟩
      · show d.set s' call.id = e.set s' call.id
        rw [hstates]

/-- A run of calls stays inside `J`, and leaves all states in their range, exactly where each call finds a state that is
good for its run, and a call's run is read back exactly where this is so. -/
theorem runCoder_inRange_iff (writer : BitWriter) (hwriter : writer.Ok) (encodes : List EncodeCall) (reader : BitReader)
    (hreader : reader.Ok) (decodes : List DecodeCall) (e : RunEncoder BitWriter) (he : EncoderOk e) (call : EncodeCall) :
    (Safe (fun e call => EncodeCall.apply e call) (fun e => e.InRange) .outsideJ encodes (RunEncoder.init writer) ↔
      Along (fun e call => EncodeCall.apply e call) EncodeCall.Within encodes (RunEncoder.init writer)) ∧
    (Safe DecodeCall.next (fun d => d.InRange) .outsideJ decodes (RunEncoder.init reader) ↔
      Along DecodeCall.next DecodeCall.Within decodes (RunEncoder.init reader)) ∧
    (RoundTrips e call ↔ call.Within e) := by
  refine ⟨?_, ?_, roundTrips_iff he call⟩
  · exact safe_iff_along EncoderOk (fun _ he => he.inRange) (fun _ _ he h => EncodeCall.apply_ok he h)
      (fun _ _ he h => EncodeCall.apply_outside he h) ⟨RunEncoder.init_inRange writer, hwriter⟩
  · exact safe_iff_along DecoderOk (fun _ hd => hd.inRange) (fun _ _ hd h => DecodeCall.next_ok hd h)
      (fun _ _ hd h => DecodeCall.next_outside hd h) ⟨RunEncoder.init_inRange reader, hreader⟩

/-- `Encoder` as `encoder_reset` leaves it for writing. -/
def emptyWriter (room : Nat) : BitWriter := ⟨32, 0, [], room, []⟩

theorem emptyWriter_ok (room : Nat) : (emptyWriter room).Ok := ⟨le_rfl, fun i _ => Nat.zero_testBit i⟩

theorem reader_init_ok (w : UInt32) (now : List UInt32) (more : List (List UInt32)) : (BitReader.init w now more).Ok :=
  ⟨Nat.zero_lt_succ 31, fun i _ => by rw [BitReader.init, Nat.zero_add]⟩

theorem runCoder_inRange_iff_start :
    (Safe (fun e call => EncodeCall.apply e call) (fun e => e.InRange) .outsideJ [.run 9]
        (RunEncoder.init (emptyWriter 4)) ↔
      Along (fun e call => EncodeCall.apply e call) EncodeCall.Within [.run 9] (RunEncoder.init (emptyWriter 4))) ∧
    (Safe DecodeCall.next (fun d => d.InRange) .outsideJ [.run] (RunEncoder.init (BitReader.init 7 [8] [])) ↔
      Along DecodeCall.next DecodeCall.Within [.run] (RunEncoder.init (BitReader.init 7 [8] []))) ∧
    (RoundTrips (RunEncoder.init (emptyWriter 4)) (.run 9) ↔
      EncodeCall.Within (RunEncoder.init (emptyWriter 4)) (.run 9)) :=
  runCoder_inRange_iff _ (emptyWriter_ok 4) _ _ (reader_init_ok 7 [8] []) _ _
    ⟨RunEncoder.init_inRange _, emptyWriter_ok 4⟩ _

/-- A run of 65820, and one of 32 ones: the state is one past the last of `J`. -/
theorem not_inRange_long_run :
    ¬Safe (fun e call => EncodeCall.apply e call) (fun e => e.InRange) .outsideJ [.run 65820]
        (RunEncoder.init (emptyWriter 4)) ∧
      ¬Safe DecodeCall.next (fun d => d.InRange) .outsideJ [.run]
        (RunEncoder.init (BitReader.init 0xffffffff [0xffffffff] [])) := by
  constructor
  · rintro ⟨-, hne, -⟩
    exact hne rfl
  · rintro ⟨-, hne, -⟩
    exact hne rfl

end Colama.Spice.Quic

import Colama.Spice.RedChannel.Outgoing

namespace Colama.Spice.Inputs

open RedChannel

def sendBufSize : Nat := 4096

/-- An answer of `cb_write`: a part of what it is given is written, which is at least a byte, or an error. -/
inductive Answer
  | wrote (more : Nat)
  | eagain
  | eintr

/-- `now` is a place in `buf`, or none where the pointer is null. -/
structure OutgoingHandler where
  buf : List UInt8
  now : Option Nat
  length : Nat

/-- The bytes at `now`, of which nothing is known for a pointer that is null. -/
def OutgoingHandler.load (handler : OutgoingHandler) (n : Nat) : List (Option UInt8) :=
  match handler.now with
  | none => List.replicate n none
  | some now => ((handler.buf.drop now).take n).map some

/-- The loop of `outgoing_write`: what the socket takes and what is left, unless the answers are too few for the
loop to end. -/
def writeLoop : List Answer → List UInt8 → Option (List UInt8 × List UInt8)
  | _, [] => some ([], [])
  | [], _ :: _ => none
  | .eagain :: _, data => some ([], data)
  | .eintr :: answers, data => writeLoop answers data
  | .wrote more :: answers, data =>
    (writeLoop answers (data.drop (more + 1))).map fun (taken, left) => (data.take (more + 1) ++ taken, left)

/-- The loop of `handle_outgoing`, with what the socket takes. -/
def handleLoop : List Answer → OutgoingHandler → Option (OutgoingHandler × List (Option UInt8))
  | [], handler => if handler.length = 0 then some (handler, []) else none
  | answer :: answers, handler =>
    if handler.length = 0 then some (handler, [])
    else
      match answer with
      | .eagain => some (handler, [])
      | .eintr => handleLoop answers handler
      | .wrote more =>
        let n := min (more + 1) handler.length
        (handleLoop answers ⟨handler.buf, handler.now.map (· + n), handler.length - n⟩).map fun (handler', taken) =>
          (handler', handler.load n ++ taken)

/-- The side of the channel that sends, with whether the watch waits until the socket can be written, what the
socket has taken, and the messages that `outgoing_write` has taken on. -/
structure InputsState where
  serial : Nat
  outHandler : OutgoingHandler
  selected : Bool
  taken : List (Option UInt8)
  accepted : List UInt8

/-- What `inputs_link` starts with. The state is allocated with zeros, and `now` is not set. -/
def inputsLink : InputsState where
  serial := 0
  outHandler := ⟨List.replicate sendBufSize 0, none, 0⟩
  selected := false
  taken := []
  accepted := []

/-- The message of `marshaller_new_for_outgoing` once `marshaller_outgoing_write` has set its size. -/
def message (serial type : Nat) (body : List UInt8) : List UInt8 :=
  DataHeader.bytes ⟨serial, type, body.length, 0⟩ ++ body

namespace InputsState

/-- `outgoing_write` of the data, unless it is too long for the assertion. -/
def outgoingWrite (s : InputsState) (data : List UInt8) (answers : List Answer) : Option InputsState :=
  if sendBufSize < data.length then none
  else if s.outHandler.length ≠ 0 then some s
  else (writeLoop answers data).map fun (taken, left) => {
    s with
    outHandler :=
      if left = [] then s.outHandler
      else ⟨left ++ s.outHandler.buf.drop left.length, s.outHandler.now, left.length⟩
    selected := if left = [] then s.selected else true
    taken := s.taken ++ taken.map some
    accepted := s.accepted ++ data }

/-- `marshaller_outgoing_write` of a new message. -/
def marshallerOutgoingWrite (s : InputsState) (type : Nat) (body : List UInt8) (answers : List Answer) :
    Option InputsState :=
  let serial := s.serial + 1
  { s with serial := serial }.outgoingWrite (message serial type body) answers

def handleOutgoing (s : InputsState) (answers : List Answer) : Option InputsState :=
  if s.outHandler.length = 0 then some s
  else (handleLoop answers s.outHandler).map fun (outHandler, taken) => {
    s with
    outHandler := outHandler
    selected := if outHandler.length = 0 then false else s.selected
    taken := s.taken ++ taken }

end InputsState

inductive Event
  | write (type : Nat) (body : List UInt8) (answers : List Answer)
  | writable (answers : List Answer)

/-- The socket is only waited for while it is selected. -/
@[grind] def step (s : InputsState) : Event → Option InputsState
  | .write type body answers => s.marshallerOutgoingWrite type body answers
  | .writable answers => if s.selected then s.handleOutgoing answers else none

def run (events : List Event) : Option InputsState := events.foldlM step inputsLink

/-- What the socket has taken is a part of the messages from their start on, and all of them if nothing is left. -/
def InputsState.Exact (s : InputsState) : Prop :=
  s.taken <+: s.accepted.map some ∧ (s.outHandler.length = 0 → s.taken = s.accepted.map some)

/-- The socket takes something before it has no more room. -/
def takes : List Answer → Bool
  | [] => false
  | .wrote _ :: _ => true
  | .eagain :: _ => false
  | .eintr :: answers => takes answers

/-- In no call of `handle_outgoing` with something left the socket takes anything. -/
def Undisturbed (events : List Event) : Prop :=
  ∀ before answers after s, events = before ++ .writable answers :: after → run before = some s →
    s.outHandler.length ≠ 0 → takes answers = false

/-- `now` is null, and what is left is at the start of the buffer. -/
structure Parked (s : InputsState) : Prop where
  now : s.outHandler.now = none
  accepted : s.accepted.map some = s.taken ++ (s.outHandler.buf.take s.outHandler.length).map some

theorem append_of_writeLoop {answers : List Answer} {data taken left : List UInt8}
    (h : writeLoop answers data = some (taken, left)) : data = taken ++ left := by
  induction answers generalizing data taken with
  | nil =>
    cases data with
    | nil =>
      cases h
      rfl
    | cons b data => cases h
  | cons answer answers ih =>
    cases data with
    | nil =>
      rw [writeLoop] at h
      cases h
      rfl
    | cons b data =>
      cases answer with
      | eagain =>
        cases h
        rfl
      | eintr => exact ih h
      | wrote more =>
        obtain ⟨⟨taken', left'⟩, hloop, heq⟩ := Option.map_eq_some_iff.mp h
        cases heq
        rw [List.append_assoc, ← ih hloop, List.take_append_drop]

/-- While the pointer is null it stays so, and the first byte that is taken is not known. -/
theorem handleLoop_null {answers : List Answer} {handler handler' : OutgoingHandler} {taken : List (Option UInt8)}
    (hnull : handler.now = none) (h : handleLoop answers handler = some (handler', taken)) :
    handler'.now = none ∧ (handler.length ≠ 0 → takes answers = true → none ∈ taken) ∧
      (takes answers = false → handler' = handler ∧ taken = []) := by
  induction answers generalizing handler taken with
  | nil =>
    rw [handleLoop] at h
    split at h
    · cases h
      exact ⟨hnull, fun _ ht => absurd ht (by decide), fun _ => ⟨rfl, rfl⟩⟩
    · cases h
  | cons answer answers ih =>
    unfold handleLoop at h
    split at h
    · rename_i hzero
      cases h
      exact ⟨hnull, fun hpos => absurd hzero hpos, fun _ => ⟨rfl, rfl⟩⟩
    · rename_i hpos
      cases answer with
      | eagain =>
        cases h
        exact ⟨hnull, fun _ ht => absurd ht Bool.false_ne_true, fun _ => ⟨rfl, rfl⟩⟩
      | eintr => exact ih hnull h
      | wrote more =>
        obtain ⟨⟨next, rest⟩, hloop, heq⟩ := Option.map_eq_some_iff.mp h
        cases heq
        obtain ⟨hnow, -, -⟩ := ih (by rw [hnull]; rfl) hloop
        refine ⟨hnow, fun _ _ => List.mem_append_left _ ?_, fun ht => absurd ht.symm Bool.false_ne_true⟩
        rw [OutgoingHandler.load, hnull]
        exact List.mem_replicate.mpr ⟨by omega, rfl⟩

theorem parked_inputsLink : Parked inputsLink := ⟨rfl, rfl⟩

theorem Parked.outgoingWrite {s s' : InputsState} (hp : Parked s) {data : List UInt8} {answers : List Answer}
    (h : s.outgoingWrite data answers = some s') : Parked s' := by
  rw [InputsState.outgoingWrite] at h
  split at h
  · cases h
  · split at h
    · cases h
      exact hp
    · rename_i hzero
      obtain ⟨⟨taken, left⟩, hloop, rfl⟩ := Option.map_eq_some_iff.mp h
      have hdata := append_of_writeLoop hloop
      have hnone := hp.accepted
      rw [Decidable.not_not.mp hzero, List.take_zero, List.map_nil, List.append_nil] at hnone
      by_cases hleft : left = []
      · refine ⟨by dsimp only; rw [if_pos hleft]; exact hp.now, ?_⟩
        dsimp only
        rw [if_pos hleft, Decidable.not_not.mp hzero, List.map_append, hnone, hdata, hleft, List.append_nil]
        simp
      · refine ⟨by dsimp only; rw [if_neg hleft]; exact hp.now, ?_⟩
        dsimp only
        rw [if_neg hleft, List.map_append, hnone, hdata, List.map_append, List.append_assoc, List.take_left]

theorem Parked.handleOutgoing {s s' : InputsState} (hp : Parked s) {answers : List Answer}
    (ht : s.outHandler.length ≠ 0 → takes answers = false) (h : s.handleOutgoing answers = some s') : Parked s' := by
  rw [InputsState.handleOutgoing] at h
  split at h
  · cases h
    exact hp
  · rename_i hpos
    obtain ⟨⟨handler, taken⟩, hloop, rfl⟩ := Option.map_eq_some_iff.mp h
    obtain ⟨-, -, hsame⟩ := handleLoop_null hp.now hloop
    obtain ⟨rfl, rfl⟩ := hsame (ht hpos)
    exact ⟨hp.now, by dsimp only; rw [List.append_nil]; exact hp.accepted⟩

/-- The pointer is never set. -/
theorem now_of_step {s s' : InputsState} {event : Event} (hnull : s.outHandler.now = none)
    (h : step s event = some s') : s'.outHandler.now = none := by
  cases event with
  | write type body answers =>
    rw [step, InputsState.marshallerOutgoingWrite, InputsState.outgoingWrite] at h
    split at h
    · cases h
    · split at h
      · cases h
        exact hnull
      · obtain ⟨⟨taken, left⟩, -, rfl⟩ := Option.map_eq_some_iff.mp h
        dsimp only
        split <;> exact hnull
  | writable answers =>
    rw [step] at h
    split at h
    · rw [InputsState.handleOutgoing] at h
      split at h
      · cases h
        exact hnull
      · obtain ⟨⟨handler, taken⟩, hloop, rfl⟩ := Option.map_eq_some_iff.mp h
        exact (handleLoop_null hnull hloop).1
    · cases h

/-- What the socket has taken it has taken for good. -/
theorem taken_prefix_of_step {s s' : InputsState} {event : Event} (h : step s event = some s') : s.taken <+: s'.taken := by
  cases event with
  | write type body answers =>
    rw [step, InputsState.marshallerOutgoingWrite, InputsState.outgoingWrite] at h
    split at h
    · cases h
    · split at h
      · cases h
        exact List.prefix_rfl
      · obtain ⟨⟨taken, left⟩, -, rfl⟩ := Option.map_eq_some_iff.mp h
        exact List.prefix_append _ _
  | writable answers =>
    rw [step] at h
    split at h
    · rw [InputsState.handleOutgoing] at h
      split at h
      · cases h
        exact List.prefix_rfl
      · obtain ⟨⟨handler, taken⟩, -, rfl⟩ := Option.map_eq_some_iff.mp h
        exact List.prefix_append _ _
    · cases h

theorem run_append_singleton {events : List Event} {event : Event} {s : InputsState} :
    run (events ++ [event]) = some s ↔ ∃ s₁, run events = some s₁ ∧ step s₁ event = some s := by
  rw [run, List.foldlM_append, ← run]
  simp only [List.foldlM_cons, List.foldlM_nil, bind_pure]
  exact Option.bind_eq_some_iff

theorem now_of_run {events : List Event} {s : InputsState} (h : run events = some s) : s.outHandler.now = none := by
  induction events using List.reverseRecOn generalizing s with
  | nil =>
    cases h
    rfl
  | append_singleton events event ih =>
    obtain ⟨s₁, hrun, hstep⟩ := run_append_singleton.1 h
    exact now_of_step (ih hrun) hstep

theorem taken_prefix_of_run {before after : List Event} {s₁ s : InputsState} (h₁ : run before = some s₁)
    (h : run (before ++ after) = some s) : s₁.taken <+: s.taken := by
  induction after using List.reverseRecOn generalizing s with
  | nil =>
    rw [List.append_nil, h₁, Option.some_inj] at h
    rw [h]
  | append_singleton after event ih =>
    rw [← List.append_assoc] at h
    obtain ⟨s₂, hrun, hstep⟩ := run_append_singleton.1 h
    exact (ih hrun).trans (taken_prefix_of_step hstep)

theorem Undisturbed.of_append {before after : List Event} (h : Undisturbed (before ++ after)) : Undisturbed before :=
  fun before' answers after' s heq hrun => h before' answers (after' ++ after) s (by rw [heq]; simp) hrun

/-- In a run that is not disturbed what is not taken is parked. -/
theorem parked_of_run {events : List Event} {s : InputsState} (h : run events = some s) (hu : Undisturbed events) :
    Parked s := by
  induction events using List.reverseRecOn generalizing s with
  | nil =>
    cases h
    exact parked_inputsLink
  | append_singleton events event ih =>
    obtain ⟨s₁, hrun, hstep⟩ := run_append_singleton.1 h
    have hp := ih hrun hu.of_append
    cases event with
    | write type body answers => exact Parked.outgoingWrite (s := { s₁ with serial := s₁.serial + 1 }) ⟨hp.now, hp.accepted⟩ hstep
    | writable answers =>
      rw [step] at hstep
      split at hstep
      · exact hp.handleOutgoing (hu events answers [] s₁ rfl hrun) hstep
      · cases hstep

theorem Parked.exact {s : InputsState} (hp : Parked s) : s.Exact := by
  refine ⟨⟨_, hp.accepted.symm⟩, fun hzero => ?_⟩
  rw [hp.accepted, hzero, List.take_zero, List.map_nil, List.append_nil]

/-- The output is exact in every state of a run if and only if `handle_outgoing` never gets the socket to take what
is left of a message. -/
theorem output_exact {events : List Event} {s : InputsState} (h : run events = some s) : s.Exact ↔ Undisturbed events := by
  refine ⟨fun hexact before answers after s₁ heq hrun hpos => ?_, fun hu => (parked_of_run h hu).exact⟩
  by_contra htakes
  subst heq
  have hrest : run ((before ++ [Event.writable answers]) ++ after) = some s := by rwa [List.append_assoc]
  have hprefix : ∃ s₂, run (before ++ [Event.writable answers]) = some s₂ := by
    rw [run, List.foldlM_append] at hrest
    obtain ⟨s₂, hs₂, -⟩ := Option.bind_eq_some_iff.mp hrest
    exact ⟨s₂, hs₂⟩
  obtain ⟨s₂, hrun₂⟩ := hprefix
  obtain ⟨s₁', hrun', hstep⟩ := run_append_singleton.1 hrun₂
  rw [hrun, Option.some_inj] at hrun'
  subst hrun'
  have hnone : none ∈ s₂.taken := by
    rw [step] at hstep
    split at hstep
    · rw [InputsState.handleOutgoing, if_neg hpos] at hstep
      obtain ⟨⟨handler, taken⟩, hloop, rfl⟩ := Option.map_eq_some_iff.mp hstep
      obtain ⟨-, hmem, -⟩ := handleLoop_null (now_of_run hrun) hloop
      exact List.mem_append_right _ (hmem hpos (by simpa using htakes))
    · cases hstep
  have hin := hexact.1.subset ((taken_prefix_of_run hrun₂ hrest).subset hnone)
  obtain ⟨b, -, hb⟩ := List.mem_map.mp hin
  cases hb

/-- A message that is cut after its first byte, and a socket that then takes another one. -/
def slowPeer : List Event := [.write 101 [2] [.wrote 0, .eagain], .writable [.wrote 0, .eagain]]

theorem output_exact_slowPeer : ∃ s, run slowPeer = some s ∧ (s.Exact ↔ Undisturbed slowPeer) :=
  ⟨_, rfl, output_exact rfl⟩

/-- The second byte that the socket takes is not one of the message. -/
theorem slowPeer_notExact : ¬ ∀ events s, run events = some s → s.Exact := by
  intro h
  have hexact := h slowPeer _ rfl
  have htaken : none ∈ [some (1 : UInt8), none] := List.mem_cons_of_mem _ List.mem_cons_self
  obtain ⟨b, -, hb⟩ := List.mem_map.mp (hexact.1.subset htaken)
  cases hb

end Colama.Spice.Inputs

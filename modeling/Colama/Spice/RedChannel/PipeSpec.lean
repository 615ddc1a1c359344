import Mathlib.Tactic
import Colama.Lib.Runs
import Colama.Spice.RedChannel.OutgoingSpec
import Colama.Spice.RedChannel.Pipe

namespace Colama.Spice.RedChannel

open Lib

variable {ι : Type*}

/-- The same message is still being sent. -/
structure Same (ch ch' : Channel ι) : Prop where
  item_eq : ch'.sendData.item = ch.sendData.item
  released_eq : ch'.released = ch.released
  size_eq : ch'.outgoing.size = ch.outgoing.size

theorem Same.rfl {ch : Channel ι} : Same ch ch := ⟨Eq.refl _, Eq.refl _, Eq.refl _⟩

theorem Same.trans {ch ch' ch'' : Channel ι} (h : Same ch ch') (h' : Same ch' ch'') : Same ch ch'' where
  item_eq := h'.item_eq.trans h.item_eq
  released_eq := h'.released_eq.trans h.released_eq
  size_eq := h'.size_eq.trans h.size_eq

/-- How `red_peer_handle_outgoing` ends for the message of `ch`. -/
inductive Sent (ch : Channel ι) : Outcome ι → Prop
  | blocked {ch' : Channel ι} (same : Same ch ch') (hb : ch'.sendData.blocked = true) :
    Sent ch (.returned ch')
  | done {ch' : Channel ι} (idle : ch'.Idle) (item_eq : ch'.sendData.item = none)
    (released_eq : ch'.released = ch.released ++ ch.sendData.item.toList) : Sent ch (.returned ch')
  | disconnected {ch' : Channel ι} (same : Same ch ch') : Sent ch (.disconnected ch')
  | aborted {ch' : Channel ι} (same : Same ch ch') : Sent ch (.aborted ch')

theorem Sent.of_same {ch ch' : Channel ι} {o : Outcome ι} (h : Same ch ch') (hs : Sent ch' o) :
    Sent ch o := by
  cases hs with
  | blocked same hb => exact .blocked (h.trans same) hb
  | done idle item_eq released_eq =>
    exact .done idle item_eq (by rw [released_eq, h.released_eq, h.item_eq])
  | disconnected same => exact .disconnected (h.trans same)
  | aborted same => exact .aborted (h.trans same)

theorem prepare_same (ch : Channel ι) :
    (∃ ch', prepare ch = .writing ch' ∧ Same ch ch') ∨ prepare ch = .aborted ch := by
  rw [prepare, redChannelFillIovec]
  split
  · next h =>
    split at h
    · cases h
    · exact .inr rfl
  · next vec d h =>
    split at h
    · cases h
      exact .inl ⟨_, rfl, rfl, rfl, rfl⟩
    · cases h

theorem outgoingTurn_sent (ch : Channel ι) (a : Answer) :
    (∃ ch', outgoingTurn ch a = .writing ch' ∧ Same ch ch') ∨ Sent ch (outgoingTurn ch a) := by
  cases a with
  | eagain => exact .inr (.blocked ⟨rfl, rfl, rfl⟩ rfl)
  | eintr => exact .inl ⟨ch, rfl, .rfl⟩
  | failed => exact .inr (.disconnected .rfl)
  | room k =>
    rw [outgoingTurn, afterWrite]
    have hsame : Same ch (ch.accept (accepted ch.outgoing.vec k)) := ⟨rfl, rfl, rfl⟩
    split
    · split
      · exact .inr (.done ⟨rfl, rfl, rfl, rfl⟩ rfl rfl)
      · obtain ⟨ch', e, h⟩ | e := prepare_same (ch.accept (accepted ch.outgoing.vec k))
        · exact .inl ⟨ch', e, hsame.trans h⟩
        · rw [e]
          exact .inr (.aborted hsame)
    · exact .inl ⟨_, rfl, hsame⟩

theorem outgoingLoop_sent (ch : Channel ι) (as : List Answer) : Sent ch (outgoingLoop ch as).1 := by
  induction as generalizing ch with
  | nil => exact .blocked ⟨rfl, rfl, rfl⟩ rfl
  | cons a as ih =>
    rw [outgoingLoop]
    obtain ⟨ch', e, h⟩ | h := outgoingTurn_sent ch a
    · rw [e]
      exact .of_same h (ih ch')
    · revert h
      cases outgoingTurn ch a with
      | writing ch' => nofun
      | returned ch' => exact id
      | disconnected ch' => exact id
      | aborted ch' => exact id

variable [DecidableEq ι] (message : ι → Message)

/-- The message of an item is not a multiple of 2 ^ 32 bytes long. -/
def Sized (item : ι) : Prop :=
  (sizeofDataHeader + (message item).bufs.flatten.length) % 2 ^ 32 ≠ 0

/-- What holds of the pipe, and of all items when `ch` has the one that is being sent. -/
structure Pending (s : RedChannel ι) (ch : Channel ι) : Prop where
  alive : s.status = .alive
  pipeSize_eq : s.pipeSize = s.pipe.length
  length_lt : s.pipe.length < 2 ^ 32
  sized : ∀ x ∈ s.pipe, Sized message x
  ledger : ∀ x, s.added.count x = ch.released.count x + s.removed.count x + s.pipe.count x +
    ch.sendData.item.toList.count x

inductive Inv (s : RedChannel ι) : Prop
  | idle (pending : Pending message s s.channel) (idle : s.channel.Idle)
    (item_eq : s.channel.sendData.item = none) : Inv s
  | blocked (pending : Pending message s s.channel) (hb : s.channel.sendData.blocked = true)
    (size_ne : s.channel.outgoing.size ≠ 0) : Inv s
  | destroyed (h : s.status = .destroyed) (pipe_eq : s.pipe = [])
    (settled : ∀ x, s.channel.released.count x + s.removed.count x = s.added.count x) : Inv s
  | aborted (h : s.status = .aborted)
    (le : ∀ x, s.channel.released.count x + s.removed.count x + s.pipe.count x ≤ s.added.count x) : Inv s

variable {message} {s : RedChannel ι} {ch ch' : Channel ι}

theorem Pending.same (h : Pending message s ch) (hs : Same ch ch') :
    Pending message { s with channel := ch' } ch' where
  alive := h.alive
  pipeSize_eq := h.pipeSize_eq
  length_lt := h.length_lt
  sized := h.sized
  ledger := by rw [hs.item_eq, hs.released_eq]; exact h.ledger

theorem Pending.destroy (h : Pending message s s.channel) : Inv message (redChannelDestroy s) := by
  refine .destroyed rfl rfl fun x => ?_
  change (s.channel.released ++ _).count x + s.removed.count x = s.added.count x
  rw [h.ledger, List.count_append, List.count_append]
  omega

theorem Pending.le (h : Pending message s ch) (x : ι) :
    ch.released.count x + s.removed.count x + s.pipe.count x ≤ s.added.count x := by
  rw [h.ledger]
  omega

theorem Pending.after (h : Pending message s ch) (hsize : ch.outgoing.size ≠ 0) (as : List Answer) :
    Inv message (afterOutgoing s (.writing ch) as).1 := by
  have hsent := outgoingLoop_sent ch as
  rw [afterOutgoing]
  revert hsent
  rcases outgoingLoop ch as with ⟨o, as'⟩
  intro hsent
  cases hsent with
  | blocked same hb => exact .blocked (h.same same) hb (by rw [same.size_eq]; exact hsize)
  | @done ch' idle item_eq released_eq =>
    refine .idle ⟨h.alive, h.pipeSize_eq, h.length_lt, h.sized, fun x => ?_⟩ idle item_eq
    change s.added.count x = ch'.released.count x + s.removed.count x + s.pipe.count x + _
    rw [h.ledger, item_eq, released_eq, List.count_append, Option.toList_none, List.count_nil]
    omega
  | disconnected same => exact (h.same same).destroy
  | aborted same => exact .aborted rfl (h.same same).le

theorem Pending.send (h : Pending message s s.channel) (hsize : s.channel.outgoing.size ≠ 0)
    (as : List Answer) : Inv message (redChannelSend s as).1 := by
  rw [redChannelSend, redPeerHandleOutgoing, if_neg hsize]
  exact h.after hsize as

omit [DecidableEq ι] in
theorem redChannelPipeGet_eq {x : ι} {s' : RedChannel ι} (h : redChannelPipeGet s = some (x, s')) :
    s.channel.sendData.blocked = false ∧ s.pipe = s'.pipe ++ [x] ∧ s' = { s with
      pipe := s'.pipe
      pipeSize := (s.pipeSize + (2 ^ 32 - 1)) % 2 ^ 32 } := by
  rw [redChannelPipeGet] at h
  split at h
  · cases h
  · next hfree =>
    split at h
    · cases h
    · next item hlast =>
      cases h
      refine ⟨by simpa using fun hb => hfree (.inl hb), ?_, rfl⟩
      exact (List.dropLast_append_getLast? x hlast).symm

/-- An item is taken from the pipe and sent. -/
theorem sendItem_inv {x : ι} {s' : RedChannel ι} (h : Pending message s s.channel)
    (hidle : s.channel.Idle) (hitem : s.channel.sendData.item = none)
    (hget : redChannelPipeGet s = some (x, s')) (as : List Answer) :
    Inv message (sendItem message s' x as).1 := by
  obtain ⟨-, hpipe, hs'⟩ := redChannelPipeGet_eq hget
  have hlen : s.pipe.length = s'.pipe.length + 1 := by
    rw [hpipe, List.length_append, List.length_singleton]
  have hcount (y : ι) : s.pipe.count y = s'.pipe.count y + [x].count y := by
    rw [hpipe, List.count_append]
  have hlt := h.length_lt
  have hch : s'.channel = s.channel := by rw [hs']
  rw [sendItem]
  split
  · -- the message has too many buffers
    refine .aborted rfl fun y => ?_
    have := h.le y
    have := hcount y
    rw [hs']
    change s.channel.released.count y + s.removed.count y + s'.pipe.count y ≤ s.added.count y
    omega
  · next d hd =>
    have hf := fillMessage_filled hd
    rw [hch] at hf
    have hsized : Sized message x := h.sized x (by rw [hpipe]; exact List.mem_append_right _ List.mem_cons_self)
    have hsize : (d.header.size + sizeofDataHeader) % 2 ^ 32 ≠ 0 := by
      rw [hf.size_eq, Nat.mod_add_mod, Nat.add_comm]
      exact hsized
    let ch₁ : Channel ι := { s.channel with
      sendData := { d with size := (d.header.size + sizeofDataHeader) % 2 ^ 32 }
      outgoing := { s.channel.outgoing with
        vec := []
        size := (d.header.size + sizeofDataHeader) % 2 ^ 32 } }
    have hbegin : redChannelBeginSendMessage { s'.channel with sendData := d } = prepare ch₁ := by
      rw [hch]
      exact (if_pos hidle.size_eq).trans (if_neg hsize)
    rw [hbegin]
    have hpending : Pending message { s' with messagesWindow := (s'.messagesWindow + 1) % 2 ^ 32 } ch₁ := by
      rw [hs']
      exact {
        alive := h.alive
        pipeSize_eq := by
          change (s.pipeSize + _) % _ = s'.pipe.length
          rw [h.pipeSize_eq]
          omega
        length_lt := by
          change s'.pipe.length < _
          omega
        sized := fun y hy => h.sized y (by rw [hpipe]; exact List.mem_append_left _ hy)
        ledger := fun y => by
          change s.added.count y = s.channel.released.count y + s.removed.count y + s'.pipe.count y +
            d.item.toList.count y
          rw [h.ledger, hitem, hf.item_eq, hcount, Option.toList_none, List.count_nil, Option.toList_some]
          omega }
    obtain ⟨ch', e, hsame⟩ | e := prepare_same ch₁
    · rw [e]
      refine Pending.after ?_ (by rw [hsame.size_eq]; exact hsize) as
      exact ⟨hpending.alive, hpending.pipeSize_eq, hpending.length_lt, hpending.sized, by
        rw [hsame.item_eq, hsame.released_eq]; exact hpending.ledger⟩
    · rw [e]
      exact .aborted rfl hpending.le

theorem pushLoop_inv (n : Nat) (h : Inv message s) (as : List Answer) :
    Inv message (pushLoop message n s as) := by
  induction n generalizing s as with
  | zero => exact h
  | succ n ih =>
    rw [pushLoop]
    split
    · exact h
    · next halive =>
      split
      · exact h
      · next x s' hget =>
        cases h with
        | idle pending idle item_eq => exact ih (sendItem_inv pending idle item_eq hget as) _
        | blocked pending hb size_ne =>
          rw [(redChannelPipeGet_eq hget).1] at hb
          cases hb
        | destroyed h => exact absurd (by rw [h]; nofun) halive
        | aborted h => exact absurd (by rw [h]; nofun) halive

/-- Only the items and the channel matter. -/
theorem Inv.congr {s' : RedChannel ι} (h : Inv message s) (hchannel : s'.channel = s.channel)
    (hpipe : s'.pipe = s.pipe) (hsize : s'.pipeSize = s.pipeSize) (hstatus : s'.status = s.status)
    (hadded : s'.added = s.added) (hremoved : s'.removed = s.removed) : Inv message s' := by
  have hpending (h : Pending message s s.channel) : Pending message s' s'.channel := by
    refine ⟨?_, ?_, ?_, ?_, ?_⟩
    · rw [hstatus, h.alive]
    · rw [hsize, hpipe, h.pipeSize_eq]
    · rw [hpipe]
      exact h.length_lt
    · rw [hpipe]
      exact h.sized
    · rw [hadded, hchannel, hremoved, hpipe]
      exact h.ledger
  cases h with
  | idle pending idle item_eq => exact .idle (hpending pending) (by rwa [hchannel]) (by rwa [hchannel])
  | blocked pending hb size_ne => exact .blocked (hpending pending) (by rwa [hchannel]) (by rwa [hchannel])
  | destroyed h pipe_eq settled =>
    exact .destroyed (by rwa [hstatus]) (by rwa [hpipe]) (by rwa [hchannel, hremoved, hadded])
  | aborted h le => exact .aborted (by rwa [hstatus]) (by rwa [hchannel, hremoved, hpipe, hadded])

theorem push_inv (h : Inv message s) (halive : s.status = .alive) (as : List Answer) :
    Inv message (redChannelPush message s as) := by
  rw [redChannelPush]
  split
  · exact h
  · have h' : Inv message { s with duringSend := true } := h.congr rfl rfl rfl rfl rfl rfl
    refine (pushLoop_inv _ ?_ _).congr rfl rfl rfl rfl rfl rfl
    split
    · next hb =>
      cases h' with
      | idle pending idle item_eq => exact absurd (hb.symm.trans idle.unblocked) nofun
      | blocked pending hb size_ne => exact pending.send size_ne as
      | destroyed h => exact absurd (halive.symm.trans h) nofun
      | aborted h => exact absurd (halive.symm.trans h) nofun
    · exact h'

/-- An item is linked, wherever. -/
theorem Inv.add (h : Inv message s) (halive : s.status = .alive) {x : ι} {pipe : List ι}
    (hpipe : pipe.Perm (x :: s.pipe)) (hx : Sized message x) (hlt : s.pipe.length + 1 < 2 ^ 32) :
    Inv message { s with
      pipeSize := (s.pipeSize + 1) % 2 ^ 32
      pipe := pipe
      added := x :: s.added } := by
  have hlen : pipe.length = s.pipe.length + 1 := hpipe.length_eq
  have hpending (h : Pending message s s.channel) : Pending message { s with
      pipeSize := (s.pipeSize + 1) % 2 ^ 32
      pipe := pipe
      added := x :: s.added } s.channel := by
    refine ⟨h.alive, ?_, ?_, fun y hy => ?_, fun y => ?_⟩
    · change (s.pipeSize + 1) % _ = pipe.length
      rw [h.pipeSize_eq, hlen, Nat.mod_eq_of_lt hlt]
    · change pipe.length < _
      rwa [hlen]
    · obtain rfl | hy := List.mem_cons.mp (hpipe.mem_iff.mp hy)
      · exact hx
      · exact h.sized y hy
    · change (x :: s.added).count y = s.channel.released.count y + s.removed.count y + pipe.count y + _
      rw [hpipe.count_eq, List.count_cons, List.count_cons, h.ledger]
      omega
  cases h with
  | idle pending idle item_eq => exact .idle (hpending pending) idle item_eq
  | blocked pending hb size_ne => exact .blocked (hpending pending) hb size_ne
  | destroyed h => exact absurd (halive.symm.trans h) nofun
  | aborted h => exact absurd (halive.symm.trans h) nofun

theorem Inv.destroy (h : Inv message s) (halive : s.status = .alive) :
    Inv message (redChannelDestroy s) := by
  cases h with
  | idle pending => exact pending.destroy
  | blocked pending => exact pending.destroy
  | destroyed h => exact absurd (halive.symm.trans h) nofun
  | aborted h => exact absurd (halive.symm.trans h) nofun

/-- A shutdown that finds nothing to release. -/
theorem Inv.shutdown (h : Inv message s)
    (hnone : s.shutdown = true ∨ s.pipe = [] ∧ s.channel.sendData.item = none) :
    Inv message (redChannelShutdown s) := by
  rw [redChannelShutdown]
  split
  · exact h
  · next hs =>
    obtain ⟨hpipe, hitem⟩ := hnone.resolve_left hs
    refine h.congr ?_ hpipe.symm rfl rfl rfl rfl
    rw [redChannelPipeClear, hpipe, hitem, Option.toList_none, List.append_nil, List.append_nil]

variable (message)

/-- No item is removed from the pipe, a shutdown finds nothing to release, fewer than 2 ^ 32 items are in
the pipe, and no message is a multiple of 2 ^ 32 bytes long. -/
def Op.Accountable (s : RedChannel ι) : Op ι → Prop
  | .pipeAdd item _ | .pipeAddTail item _ | .pipeAddType item _ _ =>
    Sized message item ∧ s.pipe.length + 1 < 2 ^ 32
  | .pipeItemRemove _ => False
  | .shutdown => s.shutdown = true ∨ s.pipe = [] ∧ s.channel.sendData.item = none
  | _ => True

instance (x : ι) : Decidable (Sized message x) := inferInstanceAs (Decidable (_ ≠ _))

instance (s : RedChannel ι) : (op : Op ι) → Decidable (op.Accountable message s)
  | .pipeAdd item _ | .pipeAddTail item _ | .pipeAddType item _ _ =>
    inferInstanceAs (Decidable (Sized message item ∧ s.pipe.length + 1 < 2 ^ 32))
  | .shutdown =>
    inferInstanceAs (Decidable (s.shutdown = true ∨ s.pipe = [] ∧ s.channel.sendData.item = none))
  | .pipeItemRemove _ => inferInstanceAs (Decidable False)
  | .push _ | .initWindow _ | .ack _ | .ackSync _ | .destroy => inferInstanceAs (Decidable True)

variable {message}

theorem pipeAdd_inv (h : Inv message s) (halive : s.status = .alive) {x : ι}
    (hx : Sized message x ∧ s.pipe.length + 1 < 2 ^ 32) (as : List Answer) :
    Inv message (redChannelPipeAdd message s x as) :=
  push_inv (h.add halive (.refl _) hx.1 hx.2) halive as

theorem pipeAddTail_inv (h : Inv message s) (halive : s.status = .alive) {x : ι}
    (hx : Sized message x ∧ s.pipe.length + 1 < 2 ^ 32) (as : List Answer) :
    Inv message (redChannelPipeAddTail message s x as) :=
  push_inv (h.add halive (List.perm_append_singleton x s.pipe) hx.1 hx.2) halive as

theorem perform_inv (h : Inv message s) (halive : s.status = .alive) {op : Op ι}
    (hop : op.Accountable message s) : Inv message (s.perform message op) := by
  cases op with
  | pipeAdd x as => exact pipeAdd_inv h halive hop as
  | pipeAddTail x as => exact pipeAddTail_inv h halive hop as
  | pipeAddType x as as' =>
    have h' := pipeAdd_inv h halive hop as
    change Inv message (if _ then _ else _)
    split
    · next halive' => exact push_inv h' halive' as'
    · exact h'
  | pipeItemRemove x => exact hop.elim
  | push as => exact push_inv h halive as
  | initWindow as =>
    have h' : Inv message { s with messagesWindow := 0 } := h.congr rfl rfl rfl rfl rfl rfl
    exact push_inv h' halive as
  | ack as =>
    rw [RedChannel.perform, handleAck]
    split
    · have h' : Inv message { s with
          messagesWindow := (s.messagesWindow + (2 ^ 32 - clientAckWindow)) % 2 ^ 32 } :=
        h.congr rfl rfl rfl rfl rfl rfl
      exact push_inv h' halive as
    · exact h
  | ackSync generation => exact h.congr rfl rfl rfl rfl rfl rfl
  | shutdown => exact h.shutdown hop
  | destroy => exact h.destroy halive

theorem create_inv (handleAcks : Bool) : Inv message (redChannelCreate handleAcks) :=
  .idle ⟨rfl, rfl, Nat.two_pow_pos 32, nofun, fun _ => rfl⟩ create_idle rfl

/-- The pipe and the items of a channel: none is released twice, none is lost, and all are released when
the channel is destroyed. -/
structure Accounted (s : RedChannel ι) : Prop where
  pipeSize_eq : s.status = .alive → s.pipeSize = s.pipe.length
  at_most_once : ∀ x, s.channel.released.count x + s.removed.count x + s.pipe.count x ≤ s.added.count x
  not_lost : s.status = .alive → ∀ x, s.added.count x = s.channel.released.count x + s.removed.count x +
    s.pipe.count x + s.channel.sendData.item.toList.count x
  exactly_once : s.status = .destroyed →
    ∀ x, s.channel.released.count x + s.removed.count x = s.added.count x

theorem Inv.accounted (h : Inv message s) : Accounted s := by
  have hpending (h : Pending message s s.channel) : Accounted s :=
    ⟨fun _ => h.pipeSize_eq, h.le, fun _ => h.ledger, fun hd => absurd (h.alive.symm.trans hd) nofun⟩
  cases h with
  | idle pending => exact hpending pending
  | blocked pending => exact hpending pending
  | destroyed h pipe_eq settled =>
    refine ⟨fun ha => absurd (ha.symm.trans h) nofun, fun x => ?_, fun ha => absurd (ha.symm.trans h) nofun,
      fun _ => settled⟩
    rw [pipe_eq, settled, List.count_nil]
    omega
  | aborted h le =>
    exact ⟨fun ha => absurd (ha.symm.trans h) nofun, le, fun ha => absurd (ha.symm.trans h) nofun,
      fun ha => absurd (ha.symm.trans h) nofun⟩

/-- Every item is accounted for over whole runs. -/
theorem reachable_accounted {handleAcks : Bool}
    (h : Reachable (Step message) (fun s op => op.Accountable message s) (redChannelCreate handleAcks) s) :
    Accounted s := by
  refine Inv.accounted (h.invariant (Inv message) (create_inv handleAcks) ?_)
  rintro s op s' hinv hop ⟨alive, -⟩
  exact perform_inv hinv alive hop

theorem performed {s₀ : RedChannel ι}
    (h : Reachable (Step message) (fun s op => op.Accountable message s) s₀ s) (op : Op ι)
    (halive : s.status = .alive) (hvalid : op.Valid s) (hop : op.Accountable message s) :
    Reachable (Step message) (fun s op => op.Accountable message s) s₀ (s.perform message op) :=
  h.step hop (.perform halive hvalid)

/-- A message with one byte behind its header, for any item. -/
def byteMessage (item : Nat) : Message := ⟨item, [[0]]⟩

def performAll (s : RedChannel Nat) (ops : List (Op Nat)) : RedChannel Nat :=
  ops.foldl (fun s op => s.perform byteMessage op) s

/-- A run in which one item is sent, one is still waiting for the socket, and one is left in the pipe. -/
theorem accounted_sample : Accounted (performAll (redChannelCreate false)
    [.pipeAdd 1 [.room 10, .eintr, .room 9], .pipeAdd 2 [.room 3], .pipeAddTail 3 [], .destroy]) := by
  have h₀ : Reachable (Step byteMessage) (fun s op => op.Accountable byteMessage s)
    (redChannelCreate false) (redChannelCreate false) := .init
  have h₁ := performed h₀ (.pipeAdd 1 [.room 10, .eintr, .room 9]) rfl (by decide) (by decide)
  have h₂ := performed h₁ (.pipeAdd 2 [.room 3]) rfl (by decide) (by decide)
  have h₃ := performed h₂ (.pipeAddTail 3 []) rfl (by decide) (by decide)
  exact reachable_accounted (performed h₃ .destroy rfl (by decide) (by decide))

/-- An item that is removed stays counted, and a shutdown while an item is being sent releases it, which
`red_channel_destroy` does again. -/
theorem not_accounted : ¬ Accounted (performAll (redChannelCreate true) [.pipeAdd 1 [], .pipeItemRemove 1]) ∧
    ¬ Accounted (performAll (redChannelCreate false) [.pipeAdd 1 [], .shutdown, .destroy]) := by
  constructor
  · intro h
    exact absurd (h.pipeSize_eq rfl) (by decide)
  · intro h
    exact absurd (h.exactly_once rfl 1) (by decide)

end Colama.Spice.RedChannel

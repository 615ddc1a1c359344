import Mathlib.Tactic
import Colama.Spice.VdiPort.Tokens

namespace Colama.Spice.AgentTokens

open Colama.Lib

/-- What has gone out on each link: its own messages, from its `INIT` message on. -/
structure SentOk (links : Nat) (sent : List Piece) : Prop where
  own : ∀ p ∈ sent, p.item.link = p.link
  le : ∀ p ∈ sent, p.link ≤ links
  first : ∀ l p, sent.find? (·.link = l) = some p → p.item.type = .init ∧ p.item.left = p.item.type.size

/-- So has what is queued for the last link. -/
structure OutOk (links : Nat) (queue : List OutItem) (sent : List Piece) : Prop extends SentOk links sent where
  link : ∀ i ∈ queue, i.link = links
  head : (∀ p ∈ sent, p.link ≠ links) →
    ∃ i, queue.head? = some i ∧ i.type = .init ∧ i.left = i.type.size

namespace OutOk

variable {links : Nat} {item : OutItem} {queue pipe : List OutItem} {sent : List Piece}

theorem find_append (h : OutOk links (item :: pipe) sent) {l : Nat} {p : Piece}
    (hp : (sent ++ [Piece.mk links item]).find? (·.link = l) = some p) :
    p.item.type = .init ∧ p.item.left = p.item.type.size := by
  rw [List.find?_append] at hp
  cases hs : sent.find? (·.link = l) with
  | some q =>
    rw [hs] at hp
    obtain rfl : q = p := by simpa using hp
    exact h.first l q hs
  | none =>
    rw [hs] at hp
    obtain ⟨rfl, rfl⟩ : links = l ∧ Piece.mk links item = p := by
      simpa [List.find?_singleton] using hp
    obtain ⟨i, hi, hinit⟩ := h.head (by simpa using hs)
    obtain rfl : item = i := by simpa using hi
    exact hinit

/-- Bytes of the oldest item have gone out, all that were left or not. -/
theorem send (h : OutOk links (item :: pipe) sent) (hq : ∀ i ∈ queue, i.link = links) :
    OutOk links queue (sent ++ [⟨links, item⟩]) where
  own := by
    simp only [List.mem_append, List.mem_singleton]
    rintro p (hp | rfl)
    · exact h.own p hp
    · exact h.link item List.mem_cons_self
  le := by
    simp only [List.mem_append, List.mem_singleton]
    rintro p (hp | rfl)
    · exact h.le p hp
    · exact Nat.le_refl links
  first := fun _ _ => h.find_append
  link := hq
  head := fun hn => absurd rfl (hn ⟨links, item⟩ (by simp))

theorem push (h : OutOk links queue sent) (hi : item.link = links) : OutOk links (queue ++ [item]) sent where
  toSentOk := h.toSentOk
  link := by
    simp only [List.mem_append, List.mem_singleton]
    rintro i (h' | rfl)
    · exact h.link i h'
    · exact hi
  head := fun hn => by
    obtain ⟨i, hq, hinit⟩ := h.head hn
    exact ⟨i, by rw [List.head?_append, hq]; rfl, hinit⟩

end OutOk

/-- A new link starts with its first message. -/
theorem SentOk.newLink {links : Nat} {sent : List Piece} (h : SentOk links sent) :
    OutOk (links + 1) [⟨.init, links + 1, MsgType.init.size⟩] sent where
  own := h.own
  le := fun p hp => Nat.le_succ_of_le (h.le p hp)
  first := h.first
  link := by simp
  head := fun _ => ⟨_, rfl, rfl, rfl⟩

/-- No answer is a failure. -/
def NoFail (socket : List Answer) : Prop := .fail ∉ socket

/-- Neither does the socket fail nor is it full. -/
def Taken (socket : List Answer) : Prop := .again ∉ socket ∧ .fail ∉ socket

namespace Reds

def queued (s : Reds) : List OutItem := s.item.toList ++ s.pipe

def Good (s : Reds) : Prop := OutOk s.links s.queued s.sent

/-- What sending changes. -/
structure Sends (s s' : Reds) : Prop where
  eq : s' = { s with item := s'.item, pipe := s'.pipe, sent := s'.sent, socket := s'.socket }
  good : s.Good → s'.Good
  socket : s'.socket <:+ s.socket

theorem Sends.refl (s : Reds) : s.Sends s := ⟨rfl, id, List.suffix_refl _⟩

theorem Sends.trans {s s' s'' : Reds} (h : s.Sends s') (h' : s'.Sends s'') : s.Sends s'' :=
  ⟨by rw [h'.eq, h.eq], h'.good ∘ h.good, h'.socket.trans h.socket⟩

/-- Either all is well, or a write has failed and `disc` was called. -/
def SendsOr (disc : Reds → Reds) (s r : Reds) : Prop :=
  ∃ s', s.Sends s' ∧ (r = s' ∨ .fail ∈ s.socket ∧ s'.item.isSome ∧ r = disc s')

variable {disc : Reds → Reds} {s : Reds}

/-- The item goes out wholly, or the socket is full, or a write has failed. -/
structure Outcome (disc : Reds → Reds) (s : Reds) (socket : List Answer) (r : Bool × Reds) : Prop where
  cases : (∃ sent socket', r = (true, { s with item := none, socket := socket', sent := sent }) ∧
        OutOk s.links s.pipe sent ∧ socket' <:+ socket) ∨
      ∃ item' sent socket' r', r = (false, r') ∧ OutOk s.links (item' :: s.pipe) sent ∧ socket' <:+ socket ∧
        (.again ∈ socket ∧ r' = { s with item := some item', socket := socket', sent := sent } ∨
          .fail ∈ socket ∧ r' = disc { s with item := some item', socket := socket', sent := sent })

theorem Outcome.cons {socket : List Answer} {r : Bool × Reds} (h : Outcome disc s socket r) (a : Answer) :
    Outcome disc s (a :: socket) r := by
  obtain ⟨sent, socket', hr, hg, hs⟩ | ⟨item', sent, socket', r', hr, hg, hs, h⟩ := h.cases
  · exact ⟨.inl ⟨sent, socket', hr, hg, hs.trans (List.suffix_cons a socket)⟩⟩
  · exact ⟨.inr ⟨item', sent, socket', r', hr, hg, hs.trans (List.suffix_cons a socket),
      h.imp (And.imp (List.mem_cons_of_mem a) id) (And.imp (List.mem_cons_of_mem a) id)⟩⟩

theorem sendLoop_outcome (disc : Reds → Reds) {item : OutItem} (socket : List Answer) (hg : OutOk s.links (item :: s.pipe) s.sent) :
    Outcome disc s socket (sendLoop disc socket item s) := by
  have hpipe : ∀ i ∈ s.pipe, i.link = s.links := fun i hi => hg.link i (List.mem_cons_of_mem _ hi)
  induction socket generalizing item s with
  | nil => exact ⟨.inl ⟨_, [], rfl, hg.send hpipe, List.suffix_refl _⟩⟩
  | cons a socket ih =>
    cases a with
    | took n =>
      rw [sendLoop]
      split
      · exact ⟨.inl ⟨_, socket, rfl, hg.send hpipe, List.suffix_cons _ socket⟩⟩
      · have hlink : ∀ i ∈ { item with left := item.left - n } :: s.pipe, i.link = s.links :=
          List.forall_mem_cons.mpr ⟨hg.link item List.mem_cons_self, hpipe⟩
        split
        · next h0 =>
          subst h0
          exact (ih hg hpipe).cons _
        · exact Outcome.cons (s := s) ⟨(ih (s := { s with sent := s.sent ++ [⟨s.links, item⟩] })
            (hg.send hlink) hpipe).cases⟩ _
    | again =>
      exact ⟨.inr ⟨item, s.sent, socket, _, rfl, hg, List.suffix_cons _ socket, .inl ⟨List.mem_cons_self, rfl⟩⟩⟩
    | intr => exact (ih hg hpipe).cons _
    | fail =>
      exact ⟨.inr ⟨item, s.sent, socket, _, rfl, hg, List.suffix_cons _ socket, .inr ⟨List.mem_cons_self, rfl⟩⟩⟩

theorem Good.ofSome {item : OutItem} (hg : s.Good) (hi : s.item = some item) :
    OutOk s.links (item :: s.pipe) s.sent := by
  rw [Good, queued, hi] at hg
  exact hg

/-- A step of sending: it is done, and nothing is at hand any more or the socket is full, or it has failed. -/
theorem redsSendData_cases (disc : Reds → Reds) (hp : s.peer) (hg : s.Good) :
    (∃ s', s.Sends s' ∧ redsSendData disc s = (true, s') ∧ s'.item = none ∧ s'.pipe = s.pipe) ∨
      ∃ s', s.Sends s' ∧ s'.item.isSome ∧ ∃ r, redsSendData disc s = (false, r) ∧
        (r = s' ∨ .fail ∈ s.socket ∧ r = disc s') := by
  rw [redsSendData]
  cases hi : s.item with
  | none => exact .inl ⟨s, .refl s, rfl, hi, rfl⟩
  | some item =>
    have hgi := hg.ofSome hi
    simp only [hp, if_true]
    obtain ⟨sent, socket', hr, hg', hs⟩ | ⟨item', sent, socket', r', hr, hg', hs, h⟩ :=
      (sendLoop_outcome disc s.socket hgi).cases
    · exact .inl ⟨{ s with item := none, socket := socket', sent := sent }, ⟨rfl, fun _ => hg', hs⟩, hr, rfl, rfl⟩
    · exact .inr ⟨{ s with item := some item', socket := socket', sent := sent }, ⟨rfl, fun _ => hg', hs⟩, rfl, r', hr,
        h.imp And.right id⟩

/-- After a failure the loop of `reds_push` stops. -/
def Stops (disc : Reds → Reds) : Prop := ∀ s, s.item.isSome → (disc s).peer = false ∨ (disc s).item.isSome

theorem pushLoop_of_stopped (n : Nat) (h : s.peer = false ∨ s.item.isSome) : pushLoop disc n s = s := by
  cases n with
  | zero => rfl
  | succ n =>
    rw [pushLoop]
    split
    · next hp hi _ => simp [hp, hi] at h
    · rfl

theorem pushLoop_sendsOr (hdisc : Stops disc) (n : Nat) (hg : s.Good) : s.SendsOr disc (pushLoop disc n s) := by
  induction n generalizing s with
  | zero => exact ⟨s, .refl s, .inl rfl⟩
  | succ n ih =>
    rw [pushLoop]
    split
    · next item pipe hp hi hpi =>
      have hg' : ({ s with item := some item, pipe := pipe } : Reds).Good := by
        rw [Good, queued, hi, hpi] at hg
        exact hg
      have h₀ : s.Sends { s with item := some item, pipe := pipe } := ⟨rfl, fun _ => hg', List.suffix_refl _⟩
      obtain ⟨s', hs, hr, -⟩ | ⟨s', hs, hi', r, hr, rfl | ⟨hf, rfl⟩⟩ :=
        redsSendData_cases (s := { s with item := some item, pipe := pipe }) disc hp hg'
      · rw [hr]
        obtain ⟨s'', hs', h⟩ := ih (hs.good hg')
        exact ⟨s'', h₀.trans (hs.trans hs'), h.imp id (And.imp (fun hf => hs.socket.subset hf) id)⟩
      · rw [hr, pushLoop_of_stopped n (.inr hi')]
        exact ⟨_, h₀.trans hs, .inl rfl⟩
      · rw [hr, pushLoop_of_stopped n (hdisc _ hi')]
        exact ⟨s', h₀.trans hs, .inr ⟨hf, hi', rfl⟩⟩
    · exact ⟨s, .refl s, .inl rfl⟩

theorem redsPushPipeItem_sendsOr (hdisc : Stops disc) (hg : s.Good) {item : OutItem} (hi : item.link = s.links) :
    s.SendsOr disc (redsPushPipeItem disc s item) := by
  have hg' : ({ s with pipe := s.pipe ++ [item] } : Reds).Good := by
    have := hg.push hi
    rwa [queued, List.append_assoc] at this
  obtain ⟨s', hs, h⟩ := pushLoop_sendsOr hdisc (s.pipe ++ [item]).length hg'
  exact ⟨s', ⟨hs.eq, fun _ => hs.good hg', hs.socket⟩, h⟩

/-- A client is connected, and no disconnection is going on. -/
structure Open (s : Reds) : Prop where
  disconnecting : s.disconnecting = false
  fault : s.fault = false
  peer : s.peer
  good : s.Good
  bufs : s.externalBufs + s.writeQueue.length = redsAgentWindowSize
  vdagent : s.connected → s.vdagent

/-- All tokens are accounted for but `k` that the call at hand is about to give back. -/
structure Tokens (k : Nat) (s : Reds) : Prop where
  sum : s.numClientTokens + s.numTokens + s.writeQueue.length + k = redsAgentWindowSize
  lt : s.numTokens < redsTokensToSend

/-- No client is connected, and nothing is left for the next one. -/
structure Closed (s : Reds) : Prop where
  disconnecting : s.disconnecting = false
  fault : s.fault = false
  peer : s.peer = false
  item : s.item = none
  pipe : s.pipe = []
  connected : s.connected = false
  writeQueue : s.writeQueue = []
  externalBufs : s.externalBufs = redsAgentWindowSize
  sent : SentOk s.links s.sent

theorem freeExternalAgentBuff_few (d : Reds → Reds) (h : s.numTokens + 1 < redsTokensToSend) :
    freeExternalAgentBuff d s = { s with numTokens := s.numTokens + 1, externalBufs := s.externalBufs + 1 } :=
  if_neg h.ne

theorem resetQueue_few (d : Reds → Reds) (n : Nat) (hn : s.writeQueue.length ≤ n)
    (h : s.numTokens + s.writeQueue.length < redsTokensToSend) :
    resetQueue d n s = { s with
      numTokens := s.numTokens + s.writeQueue.length
      externalBufs := s.externalBufs + s.writeQueue.length
      writeQueue := [] } := by
  induction n generalizing s with
  | zero =>
    have hq := List.eq_nil_of_length_eq_zero (Nat.le_zero.mp hn)
    rw [resetQueue, hq]
    simp only [List.length_nil, Nat.add_zero]
    rw [← hq]
  | succ n ih =>
    rw [resetQueue]
    split
    · next hq =>
      simp only [hq, List.length_nil, Nat.add_zero]
      rw [← hq]
    · next len queue hq =>
      rw [hq, List.length_cons] at hn h
      have hfree := freeExternalAgentBuff_few (s := { s with writeQueue := queue }) d
        (show s.numTokens + 1 < _ by omega)
      rw [hfree, ih (Nat.le_of_succ_le_succ hn) (show s.numTokens + 1 + queue.length < _ by omega), hq]
      simp only [List.length_cons, Nat.add_assoc, Nat.add_comm 1]

theorem redsResetVdp_few (d : Reds → Reds) (h : s.numTokens + s.writeQueue.length < redsTokensToSend) :
    redsResetVdp d s = { s with
      numTokens := s.numTokens + s.writeQueue.length
      externalBufs := s.externalBufs + s.writeQueue.length
      writeQueue := []
      clientAgentStarted := false } := by
  rw [redsResetVdp, resetQueue_few d _ (Nat.le_refl _) h]
  rfl

/-- Disconnecting leaves nothing behind where the tokens it gives back are too few to be sent. -/
theorem Open.disconnect (h : s.Open) (hq : s.connected = false → s.writeQueue = [])
    (hfew : s.connected → s.numTokens + s.writeQueue.length < redsTokensToSend) : s.redsDisconnect.Closed := by
  have hsent := h.good.toSentOk
  have hbufs := h.bufs
  rw [redsDisconnect, if_neg (by simp [h.peer, h.disconnecting])]
  by_cases hc : s.connected
  · have hagent : disconnectAgent { s with disconnecting := true }.redsResetOutgoing = _ := if_pos hc
    rw [hagent, redsResetVdp_few]
    · have hfault : (s.fault || !s.vdagent) = false := by rw [h.fault, h.vdagent hc]; rfl
      exact ⟨rfl, hfault, rfl, rfl, rfl, rfl, rfl, hbufs, hsent⟩
    · exact hfew hc
  · have hagent : disconnectAgent { s with disconnecting := true }.redsResetOutgoing =
        { s with disconnecting := true }.redsResetOutgoing := if_neg hc
    have hc : s.connected = false := by simpa using hc
    have hq := hq hc
    rw [hq] at hbufs
    rw [hagent]
    exact ⟨rfl, h.fault, rfl, rfl, rfl, hc, hq, hbufs, hsent⟩

/-- A client is being disconnected and takes what is still sent. -/
structure Leaving (s : Reds) : Prop where
  fault : s.fault = false
  peer : s.peer
  item : s.item = none
  pipe : s.pipe = []
  connected : s.connected = false
  out : OutOk s.links [] s.sent
  socket : Taken s.socket
  sum : s.numClientTokens + s.numTokens + s.writeQueue.length ≤ redsAgentWindowSize
  bufs : s.externalBufs + s.writeQueue.length = redsAgentWindowSize

theorem Leaving.push (h : s.Leaving) (d : Reds → Reds) {item : OutItem} (hi : item.link = s.links) :
    ∃ sent socket, redsPushPipeItem d s item = { s with sent := sent, socket := socket } ∧
      { s with sent := sent, socket := socket }.Leaving := by
  have hpush : redsPushPipeItem d s item = (redsSendData d { s with item := some item }).2 := by
    rw [redsPushPipeItem, redsPush, h.pipe, List.nil_append, List.length_singleton, pushLoop]
    simp only [h.peer, h.item, pushLoop]
  have hout : OutOk s.links (item :: s.pipe) s.sent := h.pipe ▸ h.out.push hi
  have hsend : redsSendData d { s with item := some item } = sendLoop d s.socket item { s with item := some item } :=
    if_pos h.peer
  rw [hpush, hsend]
  obtain ⟨sent, socket, hr, ho, hs⟩ | ⟨_, _, _, _, _, _, _, ⟨ha, _⟩ | ⟨hf, _⟩⟩ :=
    (sendLoop_outcome (s := { s with item := some item }) d s.socket hout).cases
  · have heq : { s with item := none, socket := socket, sent := sent } = { s with sent := sent, socket := socket } := by
      rw [← h.item]
    rw [hr]
    refine ⟨sent, socket, heq, ⟨h.fault, h.peer, h.item, h.pipe, h.connected, ?_, ?_, h.sum, h.bufs⟩⟩
    · exact h.pipe ▸ ho
    · exact ⟨fun ha => h.socket.1 (hs.subset ha), fun hf => h.socket.2 (hs.subset hf)⟩
  · exact absurd ha h.socket.1
  · exact absurd hf h.socket.2

/-- A buffer of the queue is given back. -/
theorem Leaving.free (h : s.Leaving) (d : Reds → Reds) {len : Nat} {queue : List Nat} (hq : s.writeQueue = len :: queue) :
    ∃ s', freeExternalAgentBuff d { s with writeQueue := queue } = s' ∧ s'.Leaving ∧ s'.writeQueue = queue ∧
      s'.links = s.links := by
  have hsum := h.sum
  have hbufs := h.bufs
  rw [hq, List.length_cons] at hsum hbufs
  have hb : s.externalBufs + 1 + queue.length = redsAgentWindowSize := by omega
  rw [freeExternalAgentBuff, addToken]
  split
  · have hfault : ¬ redsAgentWindowSize < s.numClientTokens + (s.numTokens + 1) := by omega
    rw [redsSendTokens, if_pos h.peer]
    have hl : ({ s with
        writeQueue := queue
        externalBufs := s.externalBufs + 1
        numClientTokens := s.numClientTokens + (s.numTokens + 1)
        fault := s.fault || redsAgentWindowSize < s.numClientTokens + (s.numTokens + 1)
        numTokens := 0 } : Reds).Leaving :=
      ⟨by simp [h.fault, hfault], h.peer, h.item, h.pipe, h.connected, h.out, h.socket,
        show s.numClientTokens + (s.numTokens + 1) + 0 + queue.length ≤ _ by omega, hb⟩
    obtain ⟨sent, socket, hr, hl'⟩ := hl.push d (show (s.newOutItem (.agentToken (s.numTokens + 1))).link = s.links from rfl)
    exact ⟨_, hr, hl', rfl, rfl⟩
  · exact ⟨_, rfl, ⟨h.fault, h.peer, h.item, h.pipe, h.connected, h.out, h.socket,
      show s.numClientTokens + (s.numTokens + 1) + queue.length ≤ _ by omega, hb⟩, rfl, rfl⟩

theorem Leaving.resetQueue (h : s.Leaving) (d : Reds → Reds) (n : Nat) (hn : s.writeQueue.length ≤ n) :
    (resetQueue d n s).Leaving ∧ (Reds.resetQueue d n s).writeQueue = [] := by
  induction n generalizing s with
  | zero => exact ⟨h, List.eq_nil_of_length_eq_zero (Nat.le_zero.mp hn)⟩
  | succ n ih =>
    rw [Reds.resetQueue]
    split
    · next hq => exact ⟨h, hq⟩
    · next len queue hq =>
      obtain ⟨s', hs', hl, hq', -⟩ := h.free d hq
      rw [hs']
      rw [hq, List.length_cons] at hn
      exact ih hl (by rw [hq']; omega)

/-- So does disconnecting where the client has got `INIT` and takes what is still sent. -/
theorem Open.disconnect_taken (h : s.Open) (hc : s.connected)
    (hsum : s.numClientTokens + s.numTokens + s.writeQueue.length ≤ redsAgentWindowSize) (hs : Taken s.socket)
    (hg : ∃ p ∈ s.sent, p.link = s.links) : s.redsDisconnect.Closed := by
  have hout : OutOk s.links [] s.sent :=
    ⟨h.good.toSentOk, by simp, fun hn => by obtain ⟨p, hp, hl⟩ := hg; exact absurd hl (hn p hp)⟩
  have hl : ({ { s with disconnecting := true }.redsResetOutgoing with
      connected := false, fault := s.fault || !s.vdagent } : Reds).Leaving :=
    ⟨by rw [h.fault, h.vdagent hc]; rfl, h.peer, rfl, rfl, rfl, hout, hs, hsum, h.bufs⟩
  have hagent : disconnectAgent { s with disconnecting := true }.redsResetOutgoing = _ := if_pos hc
  rw [redsDisconnect, if_neg (by simp [h.peer, h.disconnecting]), hagent]
  obtain ⟨hl', hq⟩ := hl.resetQueue id _ (Nat.le_refl _)
  have hbufs := hl'.bufs
  rw [hq] at hbufs
  exact ⟨rfl, hl'.fault, rfl, hl'.item, hl'.pipe, hl'.connected, hq, hbufs, hl'.out.toSentOk⟩

theorem stops_redsDisconnect : Stops redsDisconnect := by
  intro s hi
  rw [redsDisconnect]
  split
  · exact .inr hi
  · exact .inl rfl

/-- What giving a token back changes. -/
structure Returns (s s' : Reds) : Prop where
  eq : s' = { s with
    numTokens := s'.numTokens
    numClientTokens := s'.numClientTokens
    item := s'.item
    pipe := s'.pipe
    sent := s'.sent
    socket := s'.socket }
  socket : s'.socket <:+ s.socket
  le : s.numClientTokens ≤ s'.numClientTokens

/-- What a failing write must find: nothing that the disconnection would send. -/
def FailsWell (s : Reds) : Prop :=
  NoFail s.socket ∨ (s.connected → 1 ≤ s.numClientTokens) ∧ (s.connected = false → s.writeQueue = [])

theorem Open.sends {s' : Reds} (h : s.Open) (hs : s.Sends s') : s'.Open := by
  have hg := hs.good h.good
  rw [hs.eq] at hg ⊢
  exact ⟨h.disconnecting, h.fault, h.peer, hg, h.bufs, h.vdagent⟩

theorem addToken_cases (h : s.Open) (ht : s.Tokens 1) (hf : s.FailsWell) :
    (.fail ∈ s.socket ∧ (addToken redsDisconnect s).Closed) ∨
      ∃ s', addToken redsDisconnect s = s' ∧ s'.Open ∧ s'.Tokens 0 ∧ s.Returns s' := by
  have hsum := ht.sum
  have hlt := ht.lt
  rw [addToken]
  split
  · next he =>
    have he : s.numTokens + 1 = redsTokensToSend := he
    have hfault : ¬ redsAgentWindowSize < s.numClientTokens + (s.numTokens + 1) := by omega
    rw [redsSendTokens, if_pos h.peer]
    have ho : ({ s with
        numClientTokens := s.numClientTokens + (s.numTokens + 1)
        fault := s.fault || redsAgentWindowSize < s.numClientTokens + (s.numTokens + 1)
        numTokens := 0 } : Reds).Open :=
      ⟨h.disconnecting, by simp [h.fault, hfault], h.peer, h.good, h.bufs, h.vdagent⟩
    obtain ⟨s', hs, hr⟩ := redsPushPipeItem_sendsOr stops_redsDisconnect ho.good
      (show (s.newOutItem (.agentToken (s.numTokens + 1))).link = s.links from rfl)
    have hs' := ho.sends hs
    have heq := hs.eq
    obtain hr | ⟨hfail, -, hr⟩ := hr
    · refine .inr ⟨s', hr, hs', ?_, ?_⟩
      · rw [heq]
        refine ⟨?_, show 0 < redsTokensToSend by decide⟩
        show s.numClientTokens + (s.numTokens + 1) + 0 + s.writeQueue.length + 0 = redsAgentWindowSize
        omega
      · refine ⟨?_, hs.socket, ?_⟩
        · rw [heq]
          simp [h.fault, hfault]
        · rw [heq]
          exact Nat.le_add_right _ _
    · obtain ⟨hpos, hquiet⟩ := hf.resolve_left (not_not.mpr hfail)
      refine .inl ⟨hfail, hr ▸ hs'.disconnect ?_ ?_⟩
      · rw [heq]
        exact hquiet
      · rw [heq]
        intro hc
        have : 1 ≤ s.numClientTokens := hpos hc
        have hw : redsAgentWindowSize = 10 := rfl
        have ht : redsTokensToSend = 5 := rfl
        show 0 + s.writeQueue.length < redsTokensToSend
        omega
  · next hne =>
    refine .inr ⟨_, rfl, ⟨h.disconnecting, h.fault, h.peer, h.good, h.bufs, h.vdagent⟩, ⟨?_, ?_⟩,
      ⟨rfl, List.suffix_refl _, Nat.le_refl _⟩⟩
    · show s.numClientTokens + (s.numTokens + 1) + s.writeQueue.length + 0 = redsAgentWindowSize
      omega
    · have hne : s.numTokens + 1 ≠ redsTokensToSend := hne
      show s.numTokens + 1 < redsTokensToSend
      omega

/-- Between two calls, with a client. -/
structure Ready (s : Reds) : Prop extends s.Open where
  tokens : s.Tokens 0
  agent : s.vdagent = s.connected
  quiet : s.connected = false → s.writeQueue = []
  idle : s.clientAgentStarted = false → s.writeQueue = []

def Rest (s : Reds) : Prop := s.Ready ∨ s.Closed

theorem Ready.setAnswers (h : s.Ready) (socket : List Answer) (device : List Nat) :
    { s with socket := socket, device := device }.Ready :=
  ⟨⟨h.disconnecting, h.fault, h.peer, h.good, h.bufs, h.toOpen.vdagent⟩, ⟨h.tokens.sum, h.tokens.lt⟩, h.agent, h.quiet, h.idle⟩

theorem Closed.setAnswers (h : s.Closed) (socket : List Answer) (device : List Nat) :
    { s with socket := socket, device := device }.Closed :=
  ⟨h.disconnecting, h.fault, h.peer, h.item, h.pipe, h.connected, h.writeQueue, h.externalBufs, h.sent⟩

theorem Rest.setAnswers (h : s.Rest) (socket : List Answer) (device : List Nat) :
    { s with socket := socket, device := device }.Rest :=
  h.imp (·.setAnswers socket device) (·.setAnswers socket device)

theorem Ready.sends {s' : Reds} (h : s.Ready) (hs : s.Sends s') : s'.Ready := by
  have ho := h.toOpen.sends hs
  rw [hs.eq] at ho ⊢
  exact ⟨ho, ⟨h.tokens.sum, h.tokens.lt⟩, h.agent, h.quiet, h.idle⟩

theorem Closed.disconnect (h : s.Closed) : s.redsDisconnect.Closed := by
  rw [redsDisconnect, if_pos (.inl (by simp [h.peer]))]
  exact h

/-- The tokens that a disconnection would give back are too few to be sent. -/
def Few (s : Reds) : Prop := s.connected → s.numTokens + s.writeQueue.length < redsTokensToSend

/-- Or the client has got `INIT` and takes them. -/
def Quits (s : Reds) (socket : List Answer) : Prop := s.Few ∨ Taken socket ∧ ∃ p ∈ s.sent, p.link = s.links

theorem Open.quit (h : s.Open) (hsum : s.numClientTokens + s.numTokens + s.writeQueue.length ≤ redsAgentWindowSize)
    (hq : s.connected = false → s.writeQueue = []) (hquit : s.Quits s.socket) : s.redsDisconnect.Closed := by
  by_cases hc : s.connected
  · obtain hf | ⟨ht, hg⟩ := hquit
    · exact h.disconnect hq hf
    · exact h.disconnect_taken hc hsum ht hg
  · exact h.disconnect hq fun hn => absurd hn hc

theorem Rest.disconnect (h : s.Rest) (hf : s.peer → s.Quits s.socket) : s.redsDisconnect.Closed :=
  h.elim (fun h => h.toOpen.quit h.tokens.sum.le h.quiet (hf h.peer)) Closed.disconnect

/-- A message is queued. A failing write must find few tokens. -/
theorem push_cases (item : OutItem) (h : s.Open) (hq : s.connected = false → s.writeQueue = [])
    (hf : NoFail s.socket ∨ s.Few) (hi : item.link = s.links) :
    (redsPushPipeItem redsDisconnect s item).Closed ∨
      ∃ s', redsPushPipeItem redsDisconnect s item = s' ∧ s.Sends s' := by
  obtain ⟨s', hs, hr | ⟨hfail, -, hr⟩⟩ := redsPushPipeItem_sendsOr stops_redsDisconnect h.good hi
  · exact .inr ⟨s', hr, hs⟩
  · have hfew := hf.resolve_left (not_not.mpr hfail)
    have ho := h.sends hs
    have heq := hs.eq
    refine .inl (hr ▸ ho.disconnect ?_ ?_)
    · rw [heq]
      exact hq
    · rw [heq]
      exact hfew

theorem writeLoop_closed (device : List Nat) (h : s.Closed) : (writeLoop device s).Closed := by
  cases device with
  | nil => exact h.setAnswers s.socket []
  | cons n device =>
    rw [writeLoop]
    split
    · next hc _ =>
      rw [h.connected] at hc
      cases hc
    · exact h

theorem NoFail.of_suffix {l l' : List Answer} (h : NoFail l) (hl : l' <:+ l) : NoFail l' := fun hm => h (hl.subset hm)

theorem writeLoop_rest (device : List Nat) (h : s.Ready) (hf : NoFail s.socket ∨ 1 ≤ s.numClientTokens) :
    (writeLoop device s).Rest := by
  induction device generalizing s with
  | nil => exact .inl (h.setAnswers s.socket [])
  | cons n device ih =>
    rw [writeLoop]
    split
    · next len queue hc hq =>
      have hbufs := h.bufs
      have hsum := h.tokens.sum
      have hidle := h.idle
      rw [hq] at hbufs hsum hidle
      rw [List.length_cons] at hbufs hsum
      split
      · exact .inl (h.setAnswers s.socket device)
      · split
        · obtain ⟨-, hcl⟩ | ⟨s', hs', ho, ht, hret⟩ := addToken_cases
            (s := { s with writeQueue := queue, externalBufs := s.externalBufs + 1 })
            ⟨h.disconnecting, h.fault, h.peer, h.good, show s.externalBufs + 1 + queue.length = _ by omega, h.toOpen.vdagent⟩
            ⟨show s.numClientTokens + s.numTokens + queue.length + 1 = _ by omega, h.tokens.lt⟩
            (hf.imp id fun h1 => ⟨fun _ => h1, fun hn => absurd (hc.symm.trans hn) (by decide)⟩)
          · exact .inr (writeLoop_closed device hcl)
          · rw [freeExternalAgentBuff, hs']
            have heq := hret.eq
            refine ih ?_ (hf.imp (fun hn => NoFail.of_suffix hn hret.socket) fun h1 => le_trans h1 hret.le)
            refine ⟨ho, ht, ?_, ?_, ?_⟩
            · rw [heq]
              exact h.agent
            · rw [heq]
              exact fun hn => absurd (hc.symm.trans hn) (by decide)
            · rw [heq]
              exact fun hn => absurd (hidle hn) (List.cons_ne_nil _ _)
        · refine ih ⟨⟨h.disconnecting, h.fault, h.peer, h.good, ?_, h.toOpen.vdagent⟩, ⟨?_, h.tokens.lt⟩, h.agent, ?_, ?_⟩ hf
          · exact hbufs
          · exact hsum
          · exact fun hn => absurd (hc.symm.trans hn) (by decide)
          · exact fun hn => absurd (hidle hn) (List.cons_ne_nil _ _)
    · exact .inl h

/-- The mouse mode functions change their own fields and then push a message or do not. -/
theorem redsUpdateMouseMode_cases (s : Reds) : ∃ allowed mode,
    s.redsUpdateMouseMode = { s with isClientMouseAllowed := allowed, mouseMode := mode } ∨
      s.peer ∧ s.redsUpdateMouseMode = redsPushPipeItem redsDisconnect
        { s with isClientMouseAllowed := allowed, mouseMode := mode } (s.newOutItem .mouseMode) := by
  have hsend (t : Reds) : t.redsSendMouseMode = t ∨
      t.peer ∧ t.redsSendMouseMode = redsPushPipeItem redsDisconnect t (t.newOutItem .mouseMode) := by
    rw [redsSendMouseMode]
    split
    · next hp => exact .inr ⟨hp, rfl⟩
    · exact .inl rfl
  rw [redsUpdateMouseMode]
  split
  · exact ⟨s.isClientMouseAllowed, s.mouseMode, .inl rfl⟩
  · dsimp only
    split
    · rw [redsSetMouseMode]
      split
      · exact ⟨_, s.mouseMode, .inl rfl⟩
      · exact ⟨_, .server, hsend _⟩
    · exact ⟨_, s.mouseMode, hsend _⟩

/-- Other fields than those of the mouse mode and the socket keep their values. -/
structure Mouses (s s' : Reds) : Prop where
  eq : s' = { s with
    isClientMouseAllowed := s'.isClientMouseAllowed
    mouseMode := s'.mouseMode
    item := s'.item
    pipe := s'.pipe
    sent := s'.sent
    socket := s'.socket }
  good : s.Good → s'.Good
  socket : s'.socket <:+ s.socket

theorem redsUpdateMouseMode_mouses (hg : s.Good) (hn : s.peer → NoFail s.socket) : s.Mouses s.redsUpdateMouseMode := by
  obtain ⟨allowed, mode, h | ⟨hp, h⟩⟩ := s.redsUpdateMouseMode_cases
  · rw [h]
    exact ⟨rfl, id, List.suffix_refl _⟩
  · obtain ⟨s', hs, hr | ⟨hf, -⟩⟩ := redsPushPipeItem_sendsOr
      (s := { s with isClientMouseAllowed := allowed, mouseMode := mode }) stops_redsDisconnect hg
      (show (s.newOutItem .mouseMode).link = s.links from rfl)
    · have heq := hs.eq
      rw [h, hr]
      refine ⟨?_, hs.good, hs.socket⟩
      rw [heq]
    · exact absurd hf (hn hp)

theorem redsUpdateMouseMode_open (h : s.Open) (hq : s.connected = false → s.writeQueue = [])
    (hf : NoFail s.socket ∨ s.Few) : s.redsUpdateMouseMode.Closed ∨ s.Mouses s.redsUpdateMouseMode := by
  obtain ⟨allowed, mode, hm | ⟨-, hm⟩⟩ := s.redsUpdateMouseMode_cases
  · rw [hm]
    exact .inr ⟨rfl, id, List.suffix_refl _⟩
  · obtain hc | ⟨s', hr, hs⟩ := push_cases (s := { s with isClientMouseAllowed := allowed, mouseMode := mode })
      (s.newOutItem .mouseMode) ⟨h.disconnecting, h.fault, h.peer, h.good, h.bufs, h.vdagent⟩ hq hf rfl
    · exact .inl (hm ▸ hc)
    · have heq := hs.eq
      rw [hm, hr]
      refine .inr ⟨?_, hs.good, hs.socket⟩
      rw [heq]

theorem Open.mouses {s' : Reds} (h : s.Open) (hs : s.Mouses s') : s'.Open := by
  have hg := hs.good h.good
  rw [hs.eq] at hg ⊢
  exact ⟨h.disconnecting, h.fault, h.peer, hg, h.bufs, h.vdagent⟩

/-- What the call must find. Where it disconnects, few tokens are out or the client takes them. No write fails that
it makes while it takes the agent away, nor while it gives tokens back of which the disconnection gives back more. -/
def Clear (s : Reds) : Act → Prop
  | .link old _ => s.peer → s.Quits old
  | .disconnect socket => s.peer → s.Quits socket
  | .agentStart => True
  | .agentData size _ socket => s.peer → s.connected →
    if s.numClientTokens = 0 then s.Quits socket
    else s.clientAgentStarted →
      if spiceAgentMaxDataSize < size then s.Quits socket else NoFail socket ∨ 2 ≤ s.numClientTokens
  | .attach _ => True
  | .remove socket _ => s.peer → s.vdagent → NoFail socket
  | .writeTimer _ socket => s.connected → NoFail socket ∨ 1 ≤ s.numClientTokens
  | .eventWrite socket => s.peer → NoFail socket ∨ s.Few

/-- A state of rest where few tokens have been given back. -/
def RestFew (s : Reds) : Prop := s.Ready ∧ s.Few ∨ s.Closed

theorem RestFew.rest (h : s.RestFew) : s.Rest := h.imp And.left id

theorem Sends.few {s' : Reds} (h : s.Sends s') (hf : s.Few) : s'.Few := by
  rw [h.eq]
  exact hf

theorem Ready.sends_disconnect {s' : Reds} (h : s.Ready) (hs : s.Sends s') (hf : s.Few) : s'.redsDisconnect.Closed :=
  (h.sends hs).toOpen.disconnect (h.sends hs).quiet (hs.few hf)

theorem redsPush_cases (h : s.Ready) (hf : NoFail s.socket ∨ s.Few) :
    (redsPush redsDisconnect s).Closed ∨ ∃ s', redsPush redsDisconnect s = s' ∧ s.Sends s' := by
  obtain ⟨s', hs, hr | ⟨hfail, -, hr⟩⟩ := pushLoop_sendsOr stops_redsDisconnect s.pipe.length h.good
  · exact .inr ⟨s', hr, hs⟩
  · rw [redsPush, hr]
    exact .inl (h.sends_disconnect hs (hf.resolve_left (not_not.mpr hfail)))

theorem redsPush_restFew (h : s.Ready) (hf : s.Few) : (redsPush redsDisconnect s).RestFew := by
  obtain hc | ⟨s', hr, hs⟩ := redsPush_cases h (.inr hf)
  · exact .inr hc
  · rw [hr]
    exact .inl ⟨h.sends hs, hs.few hf⟩

theorem Ready.push (h : s.Ready) {item : OutItem} (hi : item.link = s.links) :
    { s with pipe := s.pipe ++ [item] }.Ready := by
  have hg := h.good.push hi
  rw [queued, List.append_assoc] at hg
  exact ⟨⟨h.disconnecting, h.fault, h.peer, hg, h.bufs, h.toOpen.vdagent⟩, ⟨h.tokens.sum, h.tokens.lt⟩, h.agent, h.quiet,
    h.idle⟩

theorem RestFew.sendPing (h : s.RestFew) (size : Nat) : (s.sendPing size).RestFew := by
  rw [Reds.sendPing]
  split
  · next hp =>
    obtain ⟨hr, hf⟩ := h.resolve_right fun hc => by simp [hc.peer] at hp
    exact redsPush_restFew (hr.push rfl) hf
  · exact h

/-- The first message of a new link is about to be pushed. -/
theorem Closed.newLink (h : s.Closed) (answers : List Answer) :
    ({ s with
      numTokens := 0
      peer := true
      links := s.links + 1
      connected := s.vdagent || s.connected
      numClientTokens := redsAgentWindowSize
      socket := answers
      pipe := s.pipe ++ [⟨.init, s.links + 1, MsgType.init.size⟩] } : Reds).Ready := by
  refine ⟨⟨h.disconnecting, h.fault, rfl, ?_, ?_, ?_⟩, ⟨?_, show 0 < redsTokensToSend by decide⟩, ?_,
    fun _ => h.writeQueue, fun _ => h.writeQueue⟩
  · rw [Good, queued, h.item, h.pipe]
    exact h.sent.newLink
  · rw [h.externalBufs, h.writeQueue]
    rfl
  · simp [h.connected]
  · rw [h.writeQueue]
    rfl
  · simp [h.connected]

theorem Rest.link (h : s.Rest) (hc : s.peer → s.Quits s.socket) (answers : List Answer) : (s.redsHandleMainLink answers).Rest := by
  have hcl := h.disconnect hc
  have hready := hcl.newLink answers
  refine RestFew.rest (((redsPush_restFew hready ?_).sendPing 0).sendPing 0 |>.sendPing _)
  intro _
  show 0 + s.redsDisconnect.writeQueue.length < redsTokensToSend
  rw [hcl.writeQueue]
  decide

theorem Rest.agentStart (h : s.Rest) : s.mainAgentStart.Rest := by
  rw [mainAgentStart]
  split
  · next hp =>
    have hr := h.resolve_right fun hc => by simp [hc.peer] at hp
    exact .inl ⟨⟨hr.disconnecting, hr.fault, hr.peer, hr.good, hr.bufs, hr.toOpen.vdagent⟩, ⟨hr.tokens.sum, hr.tokens.lt⟩,
      hr.agent, hr.quiet, fun hn => by cases hn⟩
  · exact h

theorem Rest.writeTimer (h : s.Rest) (hc : s.connected → NoFail s.socket ∨ 1 ≤ s.numClientTokens) :
    s.writeToVdiPort.Rest := by
  obtain h | h := h
  · by_cases hconn : s.connected
    · exact writeLoop_rest s.device h (hc hconn)
    · rw [writeToVdiPort]
      cases hd : s.device with
      | nil => exact .inl (h.setAnswers s.socket [])
      | cons n device =>
        rw [writeLoop]
        split
        · next hc' _ => exact absurd hc' hconn
        · exact .inl h
  · exact .inr (writeLoop_closed s.device h)

theorem Rest.eventWrite (h : s.Rest) (hc : s.peer → NoFail s.socket ∨ s.Few) : s.mainEventWrite.Rest := by
  obtain h | h := h
  · have hf := hc h.peer
    rw [mainEventWrite]
    obtain ⟨s', hs, hr, -⟩ | ⟨s', hs, -, r, hr, rfl | ⟨hfail, rfl⟩⟩ := redsSendData_cases redsDisconnect h.peer h.good
    · rw [hr]
      have hf' : NoFail s'.socket ∨ s'.Few := hf.imp (NoFail.of_suffix · hs.socket) hs.few
      obtain hcl | ⟨s'', hr', hs'⟩ := redsPush_cases (h.sends hs) hf'
      · exact .inr hcl
      · show (redsPush redsDisconnect s').Rest
        rw [hr']
        exact .inl ((h.sends hs).sends hs')
    · rw [hr]
      exact .inl (h.sends hs)
    · rw [hr]
      exact .inr (h.sends_disconnect hs (hf.resolve_left (not_not.mpr hfail)))
  · have hsend : redsSendData redsDisconnect s = (true, s) := by rw [redsSendData, h.item]
    have hpush : redsPush redsDisconnect s = s := pushLoop_of_stopped _ (.inl h.peer)
    rw [mainEventWrite, hsend]
    show (redsPush redsDisconnect s).Rest
    rw [hpush]
    exact .inr h

/-- The token that is taken is given back at once where the queue is empty. -/
theorem Ready.tokenBack (h : s.Ready) (hq : s.writeQueue = []) :
    (addToken redsDisconnect { s with numClientTokens := s.numClientTokens - 1 }).Rest := by
  have hsum := h.tokens.sum
  have hlt := h.tokens.lt
  have hw : redsAgentWindowSize = 10 := rfl
  have hts : redsTokensToSend = 5 := rfl
  rw [hq, List.length_nil] at hsum
  obtain ⟨-, hcl⟩ | ⟨s', hs', ho, ht, hret⟩ := addToken_cases (s := { s with numClientTokens := s.numClientTokens - 1 })
    ⟨h.disconnecting, h.fault, h.peer, h.good, h.bufs, h.toOpen.vdagent⟩
    ⟨show s.numClientTokens - 1 + s.numTokens + s.writeQueue.length + 1 = _ by rw [hq, List.length_nil]; omega, hlt⟩
    (.inr ⟨fun _ => show 1 ≤ s.numClientTokens - 1 by omega, fun _ => hq⟩)
  · exact .inr hcl
  · rw [hs']
    have heq := hret.eq
    refine .inl ⟨ho, ht, ?_, ?_, ?_⟩
    · rw [heq]
      exact h.agent
    · rw [heq]
      exact h.quiet
    · rw [heq]
      exact h.idle

/-- A message of the client is queued. -/
theorem Ready.enqueue (h : s.Ready) (hc : s.numClientTokens ≠ 0) (he : s.externalBufs ≠ 0) (hconn : s.connected)
    (hst : s.clientAgentStarted) (len : Nat) :
    ({ s with
      numClientTokens := s.numClientTokens - 1
      externalBufs := s.externalBufs - 1
      writeQueue := s.writeQueue ++ [len] } : Reds).Ready := by
  have hsum := h.tokens.sum
  have hbufs := h.bufs
  refine ⟨⟨h.disconnecting, h.fault, h.peer, h.good, ?_, h.toOpen.vdagent⟩, ⟨?_, h.tokens.lt⟩, h.agent,
    fun hn => absurd (hconn.symm.trans hn) (by decide), fun hn => absurd (hst.symm.trans hn) (by decide)⟩
  · show s.externalBufs - 1 + (s.writeQueue ++ [len]).length = _
    rw [List.length_append, List.length_singleton]
    omega
  · show s.numClientTokens - 1 + s.numTokens + (s.writeQueue ++ [len]).length + 0 = _
    rw [List.length_append, List.length_singleton]
    omega

theorem Rest.agentData (h : s.Rest) {size : Nat} (hp : s.peer) (hc : s.connected →
      if s.numClientTokens = 0 then s.Quits s.socket
      else s.clientAgentStarted →
        if spiceAgentMaxDataSize < size then s.Quits s.socket else NoFail s.socket ∨ 2 ≤ s.numClientTokens) :
    (s.mainAgentData size).Rest := by
  have hr := h.resolve_right fun hc => by simp [hc.peer] at hp
  have hsum := hr.tokens.sum
  rw [mainAgentData]
  split
  · next h0 =>
    refine .inr (hr.toOpen.quit hsum.le hr.quiet ?_)
    by_cases hconn : s.connected
    · have hc := hc hconn
      rwa [if_pos h0] at hc
    · exact .inl fun hn => absurd hn hconn
  · next hpos =>
    dsimp only
    split
    · next hv => exact hr.tokenBack (hr.quiet (by simpa [hr.agent] using hv))
    · next hv =>
      have hconn : s.connected := by simpa [hr.agent] using hv
      have hc := hc hconn
      rw [if_neg hpos] at hc
      split
      · next hst => exact hr.tokenBack (hr.idle (by simpa using hst))
      · next hst =>
        have hst : s.clientAgentStarted := by simpa using hst
        have hc := hc hst
        split
        · next hsize =>
          rw [if_pos hsize] at hc
          exact .inr (Open.quit ⟨hr.disconnecting, hr.fault, hr.peer, hr.good, hr.bufs, hr.toOpen.vdagent⟩
            (show s.numClientTokens - 1 + s.numTokens + s.writeQueue.length ≤ _ by omega) hr.quiet hc)
        · next hsize =>
          rw [if_neg hsize] at hc
          split
          · next hext =>
            -- as many tokens are out as there are buffers
            have hext : s.externalBufs = 0 := hext
            have hbufs := hr.bufs
            omega
          · next hext =>
            exact writeLoop_rest _ (hr.enqueue hpos hext hconn hst (size + 8))
              (hc.imp id fun h2 => show 1 ≤ s.numClientTokens - 1 by omega)

theorem Closed.setAgent (h : s.Closed) (vdagent : Bool) : { s with vdagent := vdagent }.Closed :=
  ⟨h.disconnecting, h.fault, h.peer, h.item, h.pipe, h.connected, h.writeQueue, h.externalBufs, h.sent⟩

theorem Closed.redsUpdateMouseMode (h : s.Closed) : s.redsUpdateMouseMode.Closed := by
  obtain ⟨allowed, mode, hm | ⟨hp, -⟩⟩ := s.redsUpdateMouseMode_cases
  · rw [hm]
    exact ⟨h.disconnecting, h.fault, h.peer, h.item, h.pipe, h.connected, h.writeQueue, h.externalBufs, h.sent⟩
  · simp [h.peer] at hp

theorem Ready.attached (h : s.Ready) : ({ s with vdagent := true } : Reds).Open :=
  ⟨h.disconnecting, h.fault, h.peer, h.good, h.bufs, fun _ => rfl⟩

theorem Rest.attach (h : s.Rest) (hv : s.vdagent = false) : s.attachToRedAgent.Rest := by
  have hmode : { s with vdagent := true }.redsUpdateMouseMode.Closed ∨
      s.Ready ∧ ({ s with vdagent := true } : Reds).Mouses { s with vdagent := true }.redsUpdateMouseMode := by
    obtain h | h := h
    · have hconn : s.connected = false := h.agent.symm.trans hv
      have hfew : ({ s with vdagent := true } : Reds).Few := fun hc => absurd (hconn.symm.trans hc) (by decide)
      exact (redsUpdateMouseMode_open h.attached h.quiet (.inr hfew)).imp id fun hm => ⟨h, hm⟩
    · exact .inl (h.setAgent true).redsUpdateMouseMode
  rw [attachToRedAgent]
  generalize { s with vdagent := true }.redsUpdateMouseMode = t at hmode
  dsimp only
  obtain hcl | ⟨h, hm⟩ := hmode
  · rw [if_neg (by simp [hcl.peer])]
    exact .inr hcl
  · have hconn : s.connected = false := h.agent.symm.trans hv
    have hq := h.quiet hconn
    have ho := h.attached.mouses hm
    have hready : { t with connected := true }.Ready := by
      have hg := ho.good
      have heq := hm.eq
      rw [heq] at hg ⊢
      exact ⟨⟨h.disconnecting, h.fault, h.peer, hg, h.bufs, fun _ => rfl⟩, ⟨h.tokens.sum, h.tokens.lt⟩, rfl,
        (fun hn => nomatch hn), fun _ => hq⟩
    have hfew : { t with connected := true }.Few := by
      rw [hm.eq]
      intro _
      show s.numTokens + s.writeQueue.length < redsTokensToSend
      rw [hq]
      exact h.tokens.lt
    rw [if_pos ho.peer]
    exact (redsPush_restFew (hready.push rfl) hfew).rest

/-- What giving the buffers of the queue back leaves, where no write fails. -/
theorem resetQueue_open (n : Nat) (hn : s.writeQueue.length ≤ n) (h : s.Open) (ht : s.Tokens 0) (hs : NoFail s.socket) :
    ∃ s', resetQueue redsDisconnect n s = s' ∧ s'.Open ∧ s'.Tokens 0 ∧ s'.writeQueue = [] ∧
      s'.connected = s.connected ∧ s'.vdagent = s.vdagent := by
  induction n generalizing s with
  | zero => exact ⟨s, rfl, h, ht, List.eq_nil_of_length_eq_zero (Nat.le_zero.mp hn), rfl, rfl⟩
  | succ n ih =>
    rw [resetQueue]
    split
    · next hq => exact ⟨s, rfl, h, ht, hq, rfl, rfl⟩
    · next len queue hq =>
      have hbufs := h.bufs
      have hsum := ht.sum
      rw [hq, List.length_cons] at hbufs hsum hn
      obtain ⟨hf, -⟩ | ⟨s', hs', ho, ht', hret⟩ := addToken_cases
        (s := { s with writeQueue := queue, externalBufs := s.externalBufs + 1 })
        ⟨h.disconnecting, h.fault, h.peer, h.good, show s.externalBufs + 1 + queue.length = _ by omega, h.vdagent⟩
        ⟨show s.numClientTokens + s.numTokens + queue.length + 1 = _ by omega, ht.lt⟩ (.inl hs)
      · exact absurd hf hs
      · have hqueue : s'.writeQueue = queue := by rw [hret.eq]
        obtain ⟨s'', hr, ho', ht'', hq', hc, hv⟩ := ih (by rw [hqueue]; omega) ho ht' (NoFail.of_suffix hs hret.socket)
        refine ⟨s'', by rw [freeExternalAgentBuff, hs', hr], ho', ht'', hq', ?_, ?_⟩
        · rw [hc, hret.eq]
        · rw [hv, hret.eq]

theorem Rest.remove (h : s.Rest) (hv : s.vdagent) (hc : s.peer → NoFail s.socket) (last : List Answer) :
    (s.redsAgentRemove last).Rest := by
  rw [redsAgentRemove]
  dsimp only
  obtain h | h := h
  · have hn := hc h.peer
    have hm := redsUpdateMouseMode_mouses (s := { s with vdagent := false }) h.good fun _ => hn
    have hg := hm.good h.good
    have hsocket := NoFail.of_suffix hn hm.socket
    generalize { s with vdagent := false }.redsUpdateMouseMode = t at hm hg hsocket
    have heq := hm.eq
    have hpeer : t.peer := by rw [heq]; exact h.peer
    have hconn : s.connected := h.agent ▸ hv
    have ho : ({ t with fault := t.fault || !t.connected, connected := false } : Reds).Open := by
      rw [heq] at hg ⊢
      exact ⟨h.disconnecting, by simp [h.fault, hconn], h.peer, hg, h.bufs, fun hn => by cases hn⟩
    have ht : ({ t with fault := t.fault || !t.connected, connected := false } : Reds).Tokens 0 := by
      rw [heq]
      exact ⟨h.tokens.sum, h.tokens.lt⟩
    rw [if_neg (by simp [hpeer, hv]), redsResetVdp]
    obtain ⟨s', hr, ho', ht', hq, hc', hv'⟩ := resetQueue_open _ (Nat.le_refl _) ho ht hsocket
    have hc' : s'.connected = false := hc'
    have hready : ({ s'.stopAgent with socket := last } : Reds).Ready :=
      ⟨⟨ho'.disconnecting, ho'.fault, ho'.peer, ho'.good, ho'.bufs, ho'.vdagent⟩, ⟨ht'.sum, ht'.lt⟩,
        hv'.trans ((congrArg vdagent heq).trans hc'.symm), fun _ => hq, fun _ => hq⟩
    have hfew : ({ s'.stopAgent with socket := last } : Reds).Few := fun hc => absurd (hc'.symm.trans hc) Bool.false_ne_true
    rw [hr]
    exact (redsPush_restFew (hready.push rfl) hfew).rest
  · have hcl := (h.setAgent false).redsUpdateMouseMode
    rw [if_pos (.inl (by simp [hcl.peer]))]
    exact .inr hcl

theorem Rest.step (h : s.Rest) (a : Act) (hc : s.Clear a) : (s.step a).Rest := by
  cases a with
  | link old answers => exact (h.setAnswers old s.device).link hc answers
  | disconnect socket => exact .inr ((h.setAnswers socket s.device).disconnect hc)
  | agentStart => exact h.agentStart
  | agentData size device socket =>
    rw [Reds.step]
    split
    · next hp => exact (h.setAnswers socket device).agentData hp (hc hp)
    · exact h
  | attach socket =>
    rw [Reds.step]
    split
    · exact h
    · next hv => exact (h.setAnswers socket s.device).attach (by simpa using hv)
  | remove socket last =>
    rw [Reds.step]
    split
    · next hv => exact (h.setAnswers socket s.device).remove hv (fun hp => hc hp hv) last
    · exact h
  | writeTimer device socket => exact (h.setAnswers socket device).writeTimer hc
  | eventWrite socket => exact (h.setAnswers socket s.device).eventWrite hc

/-- While a client is connected no token is lost, `reds_send_tokens` has not failed, and each link has got its own
messages only, from `INIT` on. -/
structure TokensKept (s : Reds) : Prop where
  tokens : s.peer → s.numClientTokens + s.numTokens + s.writeQueue.length = redsAgentWindowSize ∧
    s.numTokens < redsTokensToSend
  fault : s.fault = false
  own : ∀ p ∈ s.sent, p.item.link = p.link
  first : ∀ l p, s.sent.find? (·.link = l) = some p → p.item.type = .init ∧ p.item.left = p.item.type.size

theorem Rest.tokensKept (h : s.Rest) : s.TokensKept := by
  obtain h | h := h
  · exact ⟨fun _ => ⟨h.tokens.sum, h.tokens.lt⟩, h.fault, h.good.own, h.good.first⟩
  · exact ⟨fun hp => by simp [h.peer] at hp, h.fault, h.sent.own, h.sent.first⟩

theorem init_rest (tabletAllowed dispatcherAllowsClientMouse : Bool) :
    (init tabletAllowed dispatcherAllowsClientMouse).Rest :=
  .inr ⟨rfl, rfl, rfl, rfl, rfl, rfl, rfl, rfl, ⟨by simp [init], by simp [init], by simp [init]⟩⟩

/-- In every run whose calls find what they must, tokens are kept and no client gets a message of another one. -/
theorem run_tokensKept (tabletAllowed dispatcherAllowsClientMouse : Bool) (s : Reds)
    (h : Reachable (fun s a s' => s.step a = s') Clear (init tabletAllowed dispatcherAllowsClientMouse) s) :
    s.TokensKept := by
  refine (h.invariant Rest (init_rest tabletAllowed dispatcherAllowsClientMouse) ?_).tokensKept
  rintro s a s' hs ha rfl
  exact hs.step a ha

instance (socket : List Answer) : Decidable (NoFail socket) := inferInstanceAs (Decidable (¬ .fail ∈ socket))

instance (socket : List Answer) : Decidable (Taken socket) :=
  inferInstanceAs (Decidable (.again ∉ socket ∧ .fail ∉ socket))

instance (s : Reds) : Decidable s.Few :=
  inferInstanceAs (Decidable (s.connected → s.numTokens + s.writeQueue.length < redsTokensToSend))

instance (s : Reds) (socket : List Answer) : Decidable (s.Quits socket) :=
  inferInstanceAs (Decidable (s.Few ∨ Taken socket ∧ ∃ p ∈ s.sent, p.link = s.links))

instance (s : Reds) : (a : Act) → Decidable (s.Clear a)
  | .link old _ => inferInstanceAs (Decidable (s.peer → s.Quits old))
  | .disconnect socket => inferInstanceAs (Decidable (s.peer → s.Quits socket))
  | .agentStart => inferInstanceAs (Decidable True)
  | .agentData size _ socket => inferInstanceAs (Decidable (s.peer → s.connected →
    if s.numClientTokens = 0 then s.Quits socket
    else s.clientAgentStarted →
      if spiceAgentMaxDataSize < size then s.Quits socket else NoFail socket ∨ 2 ≤ s.numClientTokens))
  | .attach _ => inferInstanceAs (Decidable True)
  | .remove socket _ => inferInstanceAs (Decidable (s.peer → s.vdagent → NoFail socket))
  | .writeTimer _ socket => inferInstanceAs (Decidable (s.connected → NoFail socket ∨ 1 ≤ s.numClientTokens))
  | .eventWrite socket => inferInstanceAs (Decidable (s.peer → NoFail socket ∨ s.Few))

/-- A client that has sent five messages the device does not take. -/
def fiveMessages : List Act :=
  [.attach [], .link [] [], .agentStart, .agentData 1 [0] [], .agentData 1 [0] [], .agentData 1 [0] [],
    .agentData 1 [0] [], .agentData 1 [0] []]

/-- The device takes them, the client breaks off while it is being sent to, and another client links. -/
def relink : List Act :=
  fiveMessages ++ [.writeTimer [9, 9, 4, 5, 9, 9] [.took 10, .again], .agentData 40 [0] [], .eventWrite [.fail], .link [] []]

theorem run_tokensKept_relink : (relink.foldl step (init false true)).TokensKept :=
  run_tokensKept false true _ (.foldl relink (by decide))

/-- The agent is removed, its tokens find a broken connection, and another client links. -/
def brokenRemove : List Act := fiveMessages ++ [.remove [.fail] [], .link [] []]

/-- The message for the first client that the agent is gone is the first one that the second client gets. -/
theorem not_tokensKept_brokenRemove : ¬ ∀ tabletAllowed dispatcherAllowsClientMouse s,
    Reachable (fun s a s' => s.step a = s') (fun _ _ => True) (init tabletAllowed dispatcherAllowsClientMouse) s →
      s.TokensKept := by
  intro h
  exact absurd (h true true _ (.foldl brokenRemove fun _ _ => trivial)).own (by decide)

end Reds

end Colama.Spice.AgentTokens

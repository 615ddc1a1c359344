import Mathlib.Tactic
import Colama.Spice.RedChannel.AckWindow

namespace Colama.Spice.AckWindow

/-- The generation that the server holds for the client once it has received the messages. -/
@[grind] def syncAfter (c : UInt32) : List ToServer → UInt32
  | [] => c
  | .ackSync g :: l => syncAfter g l
  | .ack :: l => syncAfter c l
  | .disconnecting :: l => syncAfter c l

/-- How many of the ACKs count for the generation `g`. -/
@[grind] def liveAcks (g c : UInt32) : List ToServer → Nat
  | [] => 0
  | .ackSync g' :: l => liveAcks g g' l
  | .ack :: l => (if c = g then 1 else 0) + liveAcks g c l
  | .disconnecting :: l => liveAcks g c l

theorem syncAfter_append (c : UInt32) (l m : List ToServer) :
    syncAfter c (l ++ m) = syncAfter (syncAfter c l) m := by
  induction l generalizing c with
  | nil => rfl
  | cons x l ih => cases x <;> exact ih _

theorem liveAcks_append (g c : UInt32) (l m : List ToServer) :
    liveAcks g c (l ++ m) = liveAcks g c l + liveAcks g (syncAfter c l) m := by
  induction l generalizing c with
  | nil => simp [liveAcks, syncAfter]
  | cons x l ih => cases x <;> simp [liveAcks, syncAfter, ih, Nat.add_assoc]

@[simp] theorem syncAfter_replicate (c : UInt32) (n : Nat) : syncAfter c (List.replicate n .ack) = c := by
  induction n with
  | zero => rfl
  | succ n ih => exact ih

@[simp] theorem liveAcks_replicate (g c : UInt32) (n : Nat) :
    liveAcks g c (List.replicate n .ack) = if c = g then n else 0 := by
  induction n with
  | zero => simp [liveAcks]
  | succ n ih =>
    rw [List.replicate_succ, liveAcks, ih]
    split <;> omega

theorem exists_ack_of_liveAcks_pos {g c : UInt32} {l : List ToServer} (h : 0 < liveAcks g c l) :
    ∃ pre rest, l = pre ++ .ack :: rest ∧ syncAfter c pre = g := by
  induction l generalizing c with
  | nil => simp [liveAcks] at h
  | cons x l ih =>
    have cons {c' : UInt32} (hc : ∀ pre, syncAfter c (x :: pre) = syncAfter c' pre) (h : 0 < liveAcks g c' l) :
        ∃ pre rest, x :: l = pre ++ .ack :: rest ∧ syncAfter c pre = g := by
      obtain ⟨pre, rest, rfl, hpre⟩ := ih h
      exact ⟨x :: pre, rest, rfl, by rw [hc, hpre]⟩
    cases x with
    | ackSync g' => exact cons (fun _ => rfl) h
    | disconnecting => exact cons (fun _ => rfl) h
    | ack =>
      by_cases hc : c = g
      · exact ⟨[], l, rfl, hc⟩
      · exact cons (fun _ => rfl) (by simpa [liveAcks, hc] using h)

namespace ClientChannel

/-- The client has had a `SET_ACK` with the window. -/
structure Started (w : UInt32) (cl : ClientChannel) : Prop where
  window : cl.messageAckWindow = w
  pos : cl.messageAckCount ≠ 0
  le : cl.messageAckCount ≤ w

/-- A message either counts down or, as the last of the window, is answered by an ACK. -/
theorem Started.onMessageRecived {w : UInt32} {cl : ClientChannel} (h : cl.Started w) :
    ∃ n cl', cl.onMessageRecived = (List.replicate n .ack, cl') ∧ cl'.Started w ∧
      w.toNat * n + cl.messageAckCount.toNat = cl'.messageAckCount.toNat + 1 := by
  by_cases hc : cl.messageAckCount = 1
  · have hw : w ≠ 0 := by
      rintro rfl
      have := h.le
      simp [hc] at this
    refine ⟨1, ⟨w, w⟩, ?_, ⟨rfl, hw, UInt32.le_refl w⟩, ?_⟩
    · rw [ClientChannel.onMessageRecived, if_neg h.pos, hc, if_pos (by decide), h.window]
      rfl
    · simp [hc]
  · have hle : (1 : UInt32) ≤ cl.messageAckCount := by
      have := h.pos
      grind
    have hsub : (cl.messageAckCount - 1).toNat = cl.messageAckCount.toNat - 1 :=
      UInt32.toNat_sub_of_le _ _ hle
    have h1 : 1 ≤ cl.messageAckCount.toNat := UInt32.le_iff_toNat_le.mp hle
    have hne : cl.messageAckCount - 1 ≠ 0 := by grind
    refine ⟨0, { cl with messageAckCount := cl.messageAckCount - 1 }, ?_, ⟨h.window, hne, ?_⟩, ?_⟩
    · rw [ClientChannel.onMessageRecived, if_neg h.pos, if_neg hne]
      rfl
    · have := UInt32.le_iff_toNat_le.mp h.le
      rw [UInt32.le_iff_toNat_le, hsub]
      omega
    · rw [hsub]
      omega

theorem Started.fresh {w : UInt32} (hw : w ≠ 0) : (⟨w, w⟩ : ClientChannel).Started w :=
  ⟨rfl, hw, UInt32.le_refl w⟩

end ClientChannel

namespace Flow

/-- Nothing has been sent yet. -/
structure Fresh (f : Flow) : Prop where
  taken : f.taken = false
  head : f.server.pipe.head? = some .setAck
  toClient : f.toClient = []
  toServer : ∀ m ∈ f.toServer, m = .disconnecting
  client : f.client = ⟨0, 0⟩
  sentSince : f.sentSince = 0
  accepted : f.accepted = 0

/-- The last `SET_ACK` is on its way to the client; no ACK that is under way counts for it. -/
structure Awaiting (f : Flow) (before after : List ToClient) : Prop where
  toClient : f.toClient = before ++ .setAck f.server.ackGeneration f.server.clientAckWindow :: after
  notBefore : ∀ w, .setAck f.server.ackGeneration w ∉ before
  notAfter : ∀ g w, .setAck g w ∉ after
  sentSince : f.sentSince = after.length + 1
  accepted : f.accepted = 0
  liveAcks : liveAcks f.server.ackGeneration f.server.clientAckGeneration f.toServer = 0
  client : f.client = ⟨0, 0⟩ ∨ syncAfter f.server.clientAckGeneration f.toServer ≠ f.server.ackGeneration

/-- The client has had the last `SET_ACK`, and what it acknowledges counts for it. -/
structure Answered (f : Flow) : Prop where
  toClient : ∀ g w, .setAck g w ∉ f.toClient
  client : f.client.Started f.server.clientAckWindow
  syncAfter : syncAfter f.server.clientAckGeneration f.toServer = f.server.ackGeneration
  sentSince : f.sentSince + f.client.messageAckCount.toNat =
    1 + f.toClient.length + f.server.clientAckWindow.toNat * (f.accepted +
      liveAcks f.server.ackGeneration f.server.clientAckGeneration f.toServer + 1)

structure Inv (f : Flow) : Prop where
  window : f.server.clientAckWindow = 20 ∨ f.server.clientAckWindow = 40
  phase : f.Fresh ∨ f.taken ∧ ((∃ before after, f.Awaiting before after) ∨ f.Answered)
  closed : f.opened = false → f.Fresh ∧ f.server.messagesWindow = ~~~0
  messagesWindow : f.opened →
    f.server.messagesWindow.toNat + f.server.clientAckWindow.toNat * f.accepted = f.sentSince
  le : f.opened → f.server.messagesWindow.toNat ≤ 2 * f.server.clientAckWindow.toNat + 1
  setAck : ∀ g w, .setAck g w ∈ f.toClient → g ∈ f.generations ∧ w = f.server.clientAckWindow
  client : f.client = ⟨0, 0⟩ ∧ (∀ m ∈ f.toServer, m = .disconnecting) ∨
    f.client.Started f.server.clientAckWindow ∧
      AckWindow.syncAfter f.server.clientAckGeneration f.toServer ∈ f.generations
  live : ∀ g ∉ f.generations, AckWindow.liveAcks g f.server.clientAckGeneration f.toServer = 0

theorem inv_init (lowBandwidth : Bool) : (init lowBandwidth).Inv where
  window := by cases lowBandwidth <;> decide
  phase := .inl ⟨rfl, rfl, rfl, by simp [init], rfl, rfl, rfl⟩
  closed := fun _ => ⟨⟨rfl, rfl, rfl, by simp [init], rfl, rfl, rfl⟩, rfl⟩
  messagesWindow := nofun
  le := nofun
  setAck := by simp [init]
  client := .inl ⟨rfl, by simp [init]⟩
  live := fun _ _ => rfl

variable {f : Flow}

theorem Inv.windowToNat (h : f.Inv) : (f.server.clientAckWindow * 2).toNat = 2 * f.server.clientAckWindow.toNat := by
  rcases h.window with h | h <;> rw [h] <;> rfl

theorem Inv.windowToNat_lt (h : f.Inv) :
    0 < f.server.clientAckWindow.toNat ∧ f.server.clientAckWindow.toNat ≤ 40 := by
  rcases h.window with h | h <;> rw [h] <;> decide

theorem Inv.opened_of_not_windowFull (h : f.Inv) (hw : ¬ f.server.windowFull) : f.opened := by
  by_contra ho
  have hm := (h.closed (by simpa using ho)).2
  refine hw ?_
  rw [RedChannel.windowFull, hm]
  rcases h.window with h | h <;> rw [h] <;> decide

theorem Fresh.setPipe {p : List PipeItem} {b : Bool} (h : f.Fresh) (hp : p.head? = some .setAck) :
    { f with server := { f.server with pipe := p, blocked := b } }.Fresh :=
  ⟨h.taken, hp, h.toClient, h.toServer, h.client, h.sentSince, h.accepted⟩

theorem Inv.setPipe {p : List PipeItem} {b : Bool} (h : f.Inv) (hp : f.Fresh → p.head? = some .setAck) :
    { f with server := { f.server with pipe := p, blocked := b } }.Inv where
  window := h.window
  phase := by
    rcases h.phase with hf | ⟨ht, ⟨before, after, ha⟩ | ha⟩
    · exact .inl (hf.setPipe (hp hf))
    · exact .inr ⟨ht, .inl ⟨before, after, ⟨ha.1, ha.2, ha.3, ha.4, ha.5, ha.6, ha.7⟩⟩⟩
    · exact .inr ⟨ht, .inr ⟨ha.1, ha.2, ha.3, ha.4⟩⟩
  closed := fun ho => ⟨(h.closed ho).1.setPipe (hp (h.closed ho).1), (h.closed ho).2⟩
  messagesWindow := h.messagesWindow
  le := h.le
  setAck := h.setAck
  client := h.client
  live := h.live

theorem Inv.open (h : f.Inv) (ho : f.opened = false) :
    { f with server := { f.server with messagesWindow := 0 }, opened := true }.Inv where
  window := h.window
  phase := by
    have hf := (h.closed ho).1
    exact .inl ⟨hf.1, hf.2, hf.3, hf.4, hf.5, hf.6, hf.7⟩
  closed := nofun
  messagesWindow := by
    have hf := (h.closed ho).1
    simp [hf.sentSince, hf.accepted]
  le := by simp
  setAck := h.setAck
  client := h.client
  live := h.live

theorem Inv.toNat_succ (h : f.Inv) (hw : ¬ f.server.windowFull) :
    (f.server.messagesWindow + 1).toNat = f.server.messagesWindow.toNat + 1 ∧
      f.server.messagesWindow.toNat ≤ 2 * f.server.clientAckWindow.toNat := by
  have hle : f.server.messagesWindow.toNat ≤ 2 * f.server.clientAckWindow.toNat := by
    rw [← h.windowToNat]
    exact UInt32.le_iff_toNat_le.mp (UInt32.not_lt.mp hw)
  have := h.windowToNat_lt
  refine ⟨?_, hle⟩
  rw [UInt32.toNat_add, show (1 : UInt32).toNat = 1 from rfl, Nat.mod_eq_of_lt (by omega)]

theorem Inv.sendMessage {b : Bool} (h : f.Inv) (ht : f.taken) (hw : ¬ f.server.windowFull) :
    (f.send b f.server .message).Inv where
  window := h.window
  phase := by
    rcases h.phase with hf | ⟨-, ⟨before, after, ha⟩ | ha⟩
    · simp [hf.taken] at ht
    · refine .inr ⟨rfl, .inl ⟨before, after ++ [.message], ?_, ha.notBefore, ?_, ?_, ha.accepted, ha.liveAcks,
        ha.client⟩⟩
      · simp [send, RedChannel.beginSendMessage, ha.toClient]
      · simp [ha.notAfter]
      · simp [send, ha.sentSince]
    · refine .inr ⟨rfl, .inr ⟨?_, ha.client, ha.syncAfter, ?_⟩⟩
      · simp [send, ha.toClient]
      · have := ha.sentSince
        simp only [send, RedChannel.beginSendMessage, List.length_append, List.length_singleton]
        omega
  closed := fun ho => absurd (h.opened_of_not_windowFull hw) (by simpa [send] using ho)
  messagesWindow := fun ho => by
    have := h.messagesWindow ho
    have := (h.toNat_succ hw).1
    simp only [send, RedChannel.beginSendMessage]
    omega
  le := fun ho => by
    have := h.toNat_succ hw
    simp only [send, RedChannel.beginSendMessage]
    omega
  setAck := by simpa [send, RedChannel.beginSendMessage] using h.setAck
  client := h.client
  live := h.live

theorem Inv.sendSetAck {b : Bool} (h : f.Inv) (hw : ¬ f.server.windowFull)
    (hn : f.server.ackGeneration + 1 ∉ f.generations) : (f.send b f.server .setAck).Inv where
  window := h.window
  phase := by
    refine .inr ⟨rfl, .inl ⟨f.toClient, [], rfl, fun w hm => hn (h.setAck _ _ hm).1, by simp, rfl, rfl,
      h.live _ hn, ?_⟩⟩
    rcases h.client with ⟨hc, -⟩ | ⟨-, hs⟩
    · exact .inl hc
    · exact .inr fun he => hn (by rw [← show _ = f.server.ackGeneration + 1 from he]; exact hs)
  closed := fun ho => absurd (h.opened_of_not_windowFull hw) (by simpa [send] using ho)
  messagesWindow := fun _ => by simp [send, RedChannel.sendSetAck, RedChannel.beginSendMessage]
  le := fun _ => by simp [send, RedChannel.sendSetAck, RedChannel.beginSendMessage]
  setAck := by
    intro g w hm
    simp only [send, RedChannel.sendSetAck, RedChannel.beginSendMessage, List.mem_append, List.mem_singleton,
      ToClient.setAck.injEq] at hm ⊢
    rcases hm with hm | ⟨rfl, rfl⟩
    · exact ⟨List.mem_cons_of_mem _ (h.setAck g w hm).1, (h.setAck g w hm).2⟩
    · exact ⟨List.mem_cons_self, rfl⟩
  client := h.client.imp id fun ⟨hs, hg⟩ => ⟨hs, List.mem_cons_of_mem _ hg⟩
  live := fun g hg => h.live g fun hm => hg (List.mem_cons_of_mem _ hm)

/-- What `red_pipe_get` leaves: the channel may be blocked, or the oldest item is gone and may be sent. -/
theorem pipeGet_cases (ch : RedChannel) :
    (∃ b, ch.pipeGet = (none, { ch with blocked := b })) ∨
      ∃ item pipe, ch.pipe = item :: pipe ∧ ¬ ch.windowFull ∧
        ch.pipeGet = (some item, { ch with pipe := pipe, blocked := ch.blocked }) := by
  rw [RedChannel.pipeGet]
  split
  · exact .inl ⟨ch.blocked, rfl⟩
  · split
    · exact .inl ⟨ch.blocked, rfl⟩
    · next item pipe hp =>
      split
      · exact .inl ⟨true, rfl⟩
      · next hw => exact .inr ⟨item, pipe, hp, hw, rfl⟩

theorem Inv.taken_of_head (h : f.Inv) (hp : f.server.pipe.head? ≠ some .setAck) : f.taken := by
  rcases h.phase with hf | ⟨ht, -⟩
  · exact absurd hf.head hp
  · exact ht

theorem Inv.push {b : Bool} {f' : Flow} (h : f.Inv) (hn : f.NewGeneration (.push b))
    (hs : f.step (.push b) = some f') : f'.Inv := by
  rcases pipeGet_cases f.server with ⟨b', hg⟩ | ⟨item, pipe, hp, hw, hg⟩
  · simp only [step, hg, Option.some.injEq] at hs
    subst hs
    exact h.setPipe Fresh.head
  · simp only [step, hg, Option.some.injEq] at hs
    subst hs
    cases item with
    | message =>
      have ht : f.taken := h.taken_of_head (by simp [hp])
      have h' := h.setPipe (p := pipe) (b := f.server.blocked) fun hf => by simp [hf.taken] at ht
      exact h'.sendMessage ht hw
    | setAck =>
      have hn := hn (by rw [hg])
      have h' := h.sendSetAck (b := b) hw hn
      exact h'.setPipe (p := pipe) (b := b) fun hf => by simpa [send] using hf.taken

theorem Inv.pushNothing {f' : Flow} (h : f.Inv) (hs : f.step .pushNothing = some f') : f'.Inv := by
  rcases pipeGet_cases f.server with ⟨b', hg⟩ | ⟨item, pipe, hp, hw, hg⟩
  · simp only [step, hg, Option.some.injEq] at hs
    subst hs
    exact h.setPipe Fresh.head
  · simp only [step, hg, Option.ite_none_right_eq_some, Option.some.injEq] at hs
    obtain ⟨rfl, rfl⟩ := hs
    have ht : f.taken := h.taken_of_head (by simp [hp])
    have h' := h.setPipe (p := pipe) (b := f.server.blocked) fun hf => by simp [hf.taken] at ht
    simpa only [ht] using h'

theorem Inv.window_ne_zero (h : f.Inv) : f.server.clientAckWindow ≠ 0 := by
  rcases h.window with h | h <;> rw [h] <;> decide

/-- Receiving a message, the client posts an ACK or none, and the live ACKs and its counter make up for it. -/
theorem Inv.exists_acks (h : f.Inv) : ∃ n cl, f.client.onMessageRecived = (List.replicate n .ack, cl) ∧
    (f.client = ⟨0, 0⟩ → n = 0 ∧ cl = ⟨0, 0⟩) ∧
    (f.client.Started f.server.clientAckWindow → cl.Started f.server.clientAckWindow ∧
      f.server.clientAckWindow.toNat * n + f.client.messageAckCount.toNat = cl.messageAckCount.toNat + 1) := by
  rcases h.client with ⟨hc, -⟩ | ⟨hs, -⟩
  · refine ⟨0, ⟨0, 0⟩, by rw [hc]; rfl, fun _ => ⟨rfl, rfl⟩, fun hs => absurd ?_ hs.pos⟩
    rw [hc]
  · obtain ⟨n, cl, ho, hcl, hn⟩ := hs.onMessageRecived
    refine ⟨n, cl, ho, fun hc => absurd ?_ hs.pos, fun _ => ⟨hcl, hn⟩⟩
    rw [hc]

theorem Inv.liveAcks_acks (h : f.Inv) {g : UInt32} {n : Nat} (hg : g ∉ f.generations)
    (hn : f.client = ⟨0, 0⟩ → n = 0) :
    liveAcks g f.server.clientAckGeneration (f.toServer ++ List.replicate n .ack) = 0 := by
  rw [liveAcks_append, h.live g hg, liveAcks_replicate, Nat.zero_add]
  rcases h.client with ⟨hc, -⟩ | ⟨-, hs⟩
  · rw [hn hc, ite_self]
  · refine if_neg fun he => hg ?_
    rwa [he] at hs

theorem Awaiting.liveAcks_acks {before after : List ToClient} {n : Nat} (h : f.Awaiting before after)
    (hn : f.client = ⟨0, 0⟩ → n = 0) :
    AckWindow.liveAcks f.server.ackGeneration f.server.clientAckGeneration
      (f.toServer ++ List.replicate n .ack) = 0 := by
  rw [liveAcks_append, h.liveAcks, liveAcks_replicate, Nat.zero_add]
  rcases h.client with hc | hs
  · rw [hn hc, ite_self]
  · exact if_neg hs

theorem Inv.reciveMessage {f' : Flow} {rest : List ToClient} (h : f.Inv) (ht : f.toClient = .message :: rest)
    (hs : f.step .clientRecive = some f') : f'.Inv := by
  obtain ⟨n, cl, ho, hfresh, hstarted⟩ := h.exists_acks
  simp only [step, ht, ClientChannel.recive, ho, ClientChannel.handleMessage, List.append_nil,
    Option.some.injEq] at hs
  subst hs
  have hne : ¬ f.Fresh := fun hf => by simp [hf.toClient] at ht
  exact
  { window := h.window
    phase := by
      rcases h.phase with hf | ⟨htk, ⟨before, after, ha⟩ | ha⟩
      · exact absurd hf hne
      · cases before with
        | nil => simp [ha.toClient] at ht
        | cons m before =>
          have hb := ha.notBefore
          obtain ⟨rfl, rfl⟩ : m = .message ∧ rest = before ++ .setAck _ _ :: after := by
            simpa [ha.toClient, eq_comm] using ht
          refine .inr ⟨htk, .inl ⟨before, after, rfl, fun w hm => hb w (List.mem_cons_of_mem _ hm), ha.notAfter,
            ha.sentSince, ha.accepted, ha.liveAcks_acks fun hc => (hfresh hc).1, ?_⟩⟩
          refine ha.client.imp (fun hc => (hfresh hc).2) fun hsync => ?_
          simpa [syncAfter_append] using hsync
      · obtain ⟨hcl, hn⟩ := hstarted ha.client
        refine .inr ⟨htk, .inr ⟨fun g w hm => ha.toClient g w (ht ▸ List.mem_cons_of_mem _ hm), hcl, ?_, ?_⟩⟩
        · simpa [syncAfter_append] using ha.syncAfter
        · have hsent := ha.sentSince
          simp only [liveAcks_append, liveAcks_replicate, ha.syncAfter, if_pos, ht, List.length_cons,
            Nat.mul_add] at hsent ⊢
          omega
    closed := fun hcl => absurd (h.closed hcl).1 hne
    messagesWindow := h.messagesWindow
    le := h.le
    setAck := fun g w hm => h.setAck g w (ht ▸ List.mem_cons_of_mem _ hm)
    client := by
      rcases h.client with ⟨hc, hi⟩ | ⟨hst, hg⟩
      · refine .inl ⟨(hfresh hc).2, ?_⟩
        simpa [(hfresh hc).1] using hi
      · refine .inr ⟨(hstarted hst).1, ?_⟩
        simpa [syncAfter_append] using hg
    live := fun g hg => h.liveAcks_acks hg fun hc => (hfresh hc).1 }

theorem Inv.reciveSetAck {f' : Flow} {g w : UInt32} {rest : List ToClient} (h : f.Inv)
    (ht : f.toClient = .setAck g w :: rest) (hs : f.step .clientRecive = some f') : f'.Inv := by
  obtain ⟨n, cl, ho, hfresh, hstarted⟩ := h.exists_acks
  obtain ⟨hg, rfl⟩ := h.setAck g w (ht ▸ List.mem_cons_self)
  simp only [step, ht, ClientChannel.recive, ho, ClientChannel.handleMessage, Option.some.injEq] at hs
  subst hs
  have hne : ¬ f.Fresh := fun hf => by simp [hf.toClient] at ht
  have hst := ClientChannel.Started.fresh h.window_ne_zero
  have hsync : AckWindow.syncAfter f.server.clientAckGeneration
      (f.toServer ++ (List.replicate n ToServer.ack ++ [ToServer.ackSync g])) = g := by
    simp [syncAfter_append, syncAfter]
  have hlive (g' : UInt32) : AckWindow.liveAcks g' f.server.clientAckGeneration
      (f.toServer ++ (List.replicate n ToServer.ack ++ [ToServer.ackSync g])) =
      AckWindow.liveAcks g' f.server.clientAckGeneration (f.toServer ++ List.replicate n ToServer.ack) := by
    rw [← List.append_assoc, liveAcks_append _ _ (f.toServer ++ _)]
    rfl
  exact
  { window := h.window
    phase := by
      rcases h.phase with hf | ⟨htk, ⟨before, after, ha⟩ | ha⟩
      · exact absurd hf hne
      · have hl := ha.liveAcks_acks (n := n) fun hc => (hfresh hc).1
        cases before with
        | nil =>
          obtain ⟨rfl, rfl⟩ : g = f.server.ackGeneration ∧ rest = after := by
            simpa [ha.toClient, eq_comm] using ht
          refine .inr ⟨htk, .inr ⟨ha.notAfter, hst, hsync, ?_⟩⟩
          simp only [hlive, hl, ha.sentSince, ha.accepted]
          omega
        | cons m before =>
          have hb := ha.notBefore
          obtain ⟨rfl, rfl⟩ : m = .setAck g f.server.clientAckWindow ∧ rest = before ++ .setAck _ _ :: after := by
            simpa [ha.toClient, eq_comm] using ht
          refine .inr ⟨htk, .inl ⟨before, after, rfl, fun w hm => hb w (List.mem_cons_of_mem _ hm), ha.notAfter,
            ha.sentSince, ha.accepted, (hlive _).trans hl, .inr ?_⟩⟩
          intro he
          refine hb f.server.clientAckWindow ?_
          rw [← show g = f.server.ackGeneration from hsync.symm.trans he]
          exact List.mem_cons_self
      · exact absurd (ht ▸ List.mem_cons_self) (ha.toClient g f.server.clientAckWindow)
    closed := fun hcl => absurd (h.closed hcl).1 hne
    messagesWindow := h.messagesWindow
    le := h.le
    setAck := fun g' w hm => h.setAck g' w (ht ▸ List.mem_cons_of_mem _ hm)
    client := .inr ⟨hst, by rw [hsync]; exact hg⟩
    live := fun g' hg' => (hlive g').trans (h.liveAcks_acks hg' fun hc => (hfresh hc).1) }

theorem Inv.disconnecting (h : f.Inv) : { f with toServer := f.toServer ++ [ToServer.disconnecting] }.Inv := by
  have hsync (c : UInt32) : AckWindow.syncAfter c (f.toServer ++ [ToServer.disconnecting]) =
      AckWindow.syncAfter c f.toServer := by
    rw [syncAfter_append]
    rfl
  have hlive (g c : UInt32) : liveAcks g c (f.toServer ++ [ToServer.disconnecting]) = liveAcks g c f.toServer := by
    rw [liveAcks_append]
    rfl
  have hidle (hi : ∀ m ∈ f.toServer, m = .disconnecting) :
      ∀ m ∈ f.toServer ++ [ToServer.disconnecting], m = .disconnecting := by
    simpa [or_imp, forall_and] using hi
  have hfresh (hf : f.Fresh) : { f with toServer := f.toServer ++ [ToServer.disconnecting] }.Fresh :=
    ⟨hf.1, hf.2, hf.3, hidle hf.4, hf.5, hf.6, hf.7⟩
  exact
  { window := h.window
    phase := by
      rcases h.phase with hf | ⟨ht, ⟨before, after, ha⟩ | ha⟩
      · exact .inl (hfresh hf)
      · refine .inr ⟨ht, .inl ⟨before, after, ⟨ha.1, ha.2, ha.3, ha.4, ha.5, (hlive _ _).trans ha.6, ?_⟩⟩⟩
        exact ha.client.imp id fun hs => (hsync _).trans_ne hs
      · exact .inr ⟨ht, .inr ⟨ha.1, ha.2, (hsync _).trans ha.3, by simpa only [hlive] using ha.4⟩⟩
    closed := fun ho => ⟨hfresh (h.closed ho).1, (h.closed ho).2⟩
    messagesWindow := h.messagesWindow
    le := h.le
    setAck := h.setAck
    client := by simpa only [hsync] using h.client.imp (And.imp id hidle) id
    live := fun g hg => (hlive _ _).trans (h.live g hg) }

/-- An ACK of the current generation takes a whole window off. -/
theorem Answered.window_le {rest : List ToServer} (h : f.Answered) (hi : f.Inv) (ho : f.opened)
    (ht : f.toServer = .ack :: rest) (hg : f.server.clientAckGeneration = f.server.ackGeneration) :
    f.server.clientAckWindow ≤ f.server.messagesWindow := by
  have hsent := h.sentSince
  have hwin := hi.messagesWindow ho
  have hcount := UInt32.le_iff_toNat_le.mp h.client.le
  rw [UInt32.le_iff_toNat_le]
  simp only [ht, AckWindow.liveAcks, hg, if_pos, Nat.mul_add] at hsent
  omega

theorem Inv.answered_of_ack {rest : List ToServer} (h : f.Inv) (ht : f.toServer = .ack :: rest)
    (hg : f.server.clientAckGeneration = f.server.ackGeneration) : f.Answered ∧ f.opened := by
  have hne : ¬ f.Fresh := fun hf => by simpa using hf.toServer .ack (ht ▸ List.mem_cons_self)
  have ho : f.opened := by
    by_contra ho
    exact hne (h.closed (by simpa using ho)).1
  rcases h.phase with hf | ⟨-, ⟨before, after, ha⟩ | ha⟩
  · exact absurd hf hne
  · have := ha.liveAcks
    simp only [ht, AckWindow.liveAcks, hg, if_pos] at this
    omega
  · exact ⟨ha, ho⟩

theorem handleMessage_of_not_hit {ch : RedChannel} {m : ToServer}
    (hm : ¬ (m = .ack ∧ ch.clientAckGeneration = ch.ackGeneration)) :
    ch.handleMessage m = { ch with clientAckGeneration := syncAfter ch.clientAckGeneration [m] } := by
  cases m with
  | ackSync g => rfl
  | ack => exact if_neg fun hg => hm ⟨rfl, hg⟩
  | disconnecting => rfl

theorem liveAcks_cons (g c : UInt32) (m : ToServer) (l : List ToServer) :
    liveAcks g c (m :: l) = (if m = .ack ∧ c = g then 1 else 0) + liveAcks g (AckWindow.syncAfter c [m]) l := by
  cases m <;> simp [liveAcks, AckWindow.syncAfter]

theorem syncAfter_cons (c : UInt32) (m : ToServer) (l : List ToServer) :
    AckWindow.syncAfter c (m :: l) = AckWindow.syncAfter (AckWindow.syncAfter c [m]) l :=
  syncAfter_append c [m] l

theorem Fresh.serverRecive {m : ToServer} {rest : List ToServer} (h : f.Fresh) (ht : f.toServer = m :: rest) :
    { f with server := f.server.handleMessage m, toServer := rest }.Fresh := by
  obtain rfl := h.toServer m (ht ▸ List.mem_cons_self)
  exact ⟨h.1, h.2, h.3, fun m hm => h.toServer m (ht ▸ List.mem_cons_of_mem _ hm), h.5, h.6, h.7⟩

/-- A message of the client that takes nothing off the window. -/
theorem Inv.reciveOther {m : ToServer} {rest : List ToServer} (h : f.Inv) (ht : f.toServer = m :: rest)
    (hm : ¬ (m = .ack ∧ f.server.clientAckGeneration = f.server.ackGeneration)) :
    { f with server := f.server.handleMessage m, toServer := rest }.Inv := by
  have hsync : AckWindow.syncAfter f.server.clientAckGeneration f.toServer =
      AckWindow.syncAfter (AckWindow.syncAfter f.server.clientAckGeneration [m]) rest := by
    rw [ht, syncAfter_cons]
  have hlive (g : UInt32) := ht ▸ liveAcks_cons g f.server.clientAckGeneration m rest
  have hlive' := hlive f.server.ackGeneration
  rw [if_neg hm, Nat.zero_add] at hlive'
  have hfresh (hf : f.Fresh) := hf.serverRecive ht
  rw [handleMessage_of_not_hit hm] at hfresh ⊢
  exact
  { window := h.window
    phase := by
      rcases h.phase with hf | ⟨htk, ⟨before, after, ha⟩ | ha⟩
      · exact .inl (hfresh hf)
      · refine .inr ⟨htk, .inl ⟨before, after, ⟨ha.1, ha.2, ha.3, ha.4, ha.5, hlive'.symm.trans ha.6, ?_⟩⟩⟩
        exact ha.client.imp id fun hs => hsync.symm.trans_ne hs
      · exact .inr ⟨htk, .inr ⟨ha.1, ha.2, hsync.symm.trans ha.3, by simpa only [hlive'] using ha.4⟩⟩
    closed := fun ho => ⟨hfresh (h.closed ho).1, (h.closed ho).2⟩
    messagesWindow := h.messagesWindow
    le := h.le
    setAck := h.setAck
    client := by
      refine h.client.imp (And.imp id fun hi m hm => hi m (ht ▸ List.mem_cons_of_mem _ hm)) ?_
      rw [hsync]
      exact id
    live := fun g hg => by
      have := h.live g hg
      rw [hlive] at this
      exact (Nat.add_eq_zero_iff.mp this).2 }

theorem Inv.reciveAck {rest : List ToServer} (h : f.Inv) (ht : f.toServer = .ack :: rest)
    (hg : f.server.clientAckGeneration = f.server.ackGeneration) :
    { f with server := f.server.handleMessage .ack, toServer := rest, accepted := f.accepted + 1 }.Inv := by
  obtain ⟨ha, ho⟩ := h.answered_of_ack ht hg
  have hle := ha.window_le h ho ht hg
  have hsub := UInt32.toNat_sub_of_le _ _ hle
  have hle := UInt32.le_iff_toNat_le.mp hle
  rw [show f.server.handleMessage .ack = _ from if_pos hg]
  exact
  { window := h.window
    phase := by
      refine .inr ⟨?_, .inr ⟨ha.toClient, ha.client, ?_, ?_⟩⟩
      · rcases h.phase with hf | ⟨htk, -⟩
        · exact absurd (hf.toServer .ack (ht ▸ List.mem_cons_self)) (by simp)
        · exact htk
      · exact (ht ▸ ha.syncAfter :)
      · have := ha.sentSince
        simp only [ht, AckWindow.liveAcks, hg, if_pos] at this ⊢
        rw [this, Nat.add_assoc f.accepted 1]
    closed := fun hcl => absurd ho (by simpa using hcl)
    messagesWindow := fun _ => by
      have := h.messagesWindow ho
      simp only [hsub, Nat.mul_add]
      omega
    le := fun _ => by
      have := h.le ho
      simp only [hsub]
      omega
    setAck := h.setAck
    client := by
      refine .inr ⟨ha.client, ?_⟩
      rcases h.client with ⟨-, hi⟩ | ⟨-, hs⟩
      · exact absurd (hi .ack (ht ▸ List.mem_cons_self)) (by simp)
      · exact (ht ▸ hs :)
    live := fun g hg' => by
      have := h.live g hg'
      rw [ht, AckWindow.liveAcks] at this
      exact (Nat.add_eq_zero_iff.mp this).2 }

theorem Inv.step {a : Act} {f' : Flow} (h : f.Inv) (hn : f.NewGeneration a) (hs : f.step a = some f') : f'.Inv := by
  cases a with
  | «open» =>
    simp only [Flow.step, Option.ite_none_left_eq_some, Option.some.injEq] at hs
    obtain ⟨ho, rfl⟩ := hs
    exact h.open (by simpa using ho)
  | pipeAdd k item =>
    simp only [Flow.step, Option.ite_none_right_eq_some, Option.some.injEq] at hs
    obtain ⟨hk, rfl⟩ := hs
    refine h.setPipe fun hf => ?_
    have hk : 0 < k := by simpa [hf.taken] using hk
    obtain ⟨k, rfl⟩ := Nat.exists_eq_succ_of_ne_zero hk.ne'
    have hhead := hf.head
    cases hp : f.server.pipe with
    | nil => simp [hp] at hhead
    | cons x pipe => simpa [hp] using hhead
  | pipeRemove k =>
    simp only [Flow.step, Option.ite_none_right_eq_some, Option.some.injEq] at hs
    obtain ⟨hk, rfl⟩ := hs
    refine h.setPipe fun hf => ?_
    have hhead := hf.head
    cases hp : f.server.pipe with
    | nil => simp [hp] at hhead
    | cons x pipe =>
      cases k with
      | zero => simp_all
      | succ k => simpa [hp] using hhead
  | push b => exact h.push hn hs
  | pushNothing => exact h.pushNothing hs
  | unblock =>
    obtain rfl : _ = f' := by simpa [Flow.step] using hs
    exact h.setPipe Fresh.head
  | clientRecive =>
    cases ht : f.toClient with
    | nil => simp [Flow.step, ht] at hs
    | cons m rest =>
      cases m with
      | setAck g w => exact h.reciveSetAck ht hs
      | message => exact h.reciveMessage ht hs
  | clientDisconnecting =>
    obtain rfl : _ = f' := by simpa [Flow.step] using hs
    exact h.disconnecting
  | serverRecive =>
    cases ht : f.toServer with
    | nil => simp [Flow.step, ht] at hs
    | cons m rest =>
      simp only [Flow.step, ht, Option.some.injEq] at hs
      subst hs
      split
      · next hm =>
        obtain ⟨rfl, hg⟩ := hm
        exact h.reciveAck ht hg
      · next hm => exact h.reciveOther ht hm

theorem Run.inv {lowBandwidth : Bool} (h : Run lowBandwidth f) : f.Inv :=
  Lib.Reachable.invariant Inv h (inv_init lowBandwidth) fun _ _ _ hi hn hs => hi.step hn hs

/-- A window that is full waits for a message that is on its way or for an ACK that will count. -/
theorem Inv.inFlight (h : f.Inv) (ho : f.opened) (hw : f.server.windowFull) :
    f.toClient ≠ [] ∨ ∃ pre rest, f.toServer = pre ++ .ack :: rest ∧
      syncAfter f.server.clientAckGeneration pre = f.server.ackGeneration := by
  have hlt := UInt32.lt_iff_toNat_lt.mp hw
  rw [h.windowToNat] at hlt
  have hwin := h.messagesWindow ho
  rcases h.phase with hf | ⟨-, ⟨before, after, ha⟩ | ha⟩
  · have := hf.sentSince
    omega
  · left
    simp [ha.toClient]
  · by_cases hc : f.toClient = []
    · right
      refine exists_ack_of_liveAcks_pos (Nat.pos_of_ne_zero fun hl => ?_)
      have hsent := ha.sentSince
      have hpos : f.client.messageAckCount.toNat ≠ 0 := fun h0 => ha.client.pos (UInt32.toNat_inj.mp h0)
      simp only [hc, hl, List.length_nil, Nat.mul_add] at hsent
      omega
    · exact .inl hc

/-- The window as a run leaves it: it takes no ACK that it does not hold, it is the messages sent from the last
`SET_ACK` on less the windows acknowledged since, and while it is full something that will open it is under way. -/
theorem run_flowControl {lowBandwidth : Bool} (h : Run lowBandwidth f) :
    (∀ rest, f.toServer = .ack :: rest → f.server.clientAckGeneration = f.server.ackGeneration →
      f.server.clientAckWindow ≤ f.server.messagesWindow) ∧
    (f.opened → (f.server.messagesWindow.toNat : Int) =
      f.sentSince - f.server.clientAckWindow.toNat * f.accepted) ∧
    (f.opened → f.server.windowFull → f.toClient ≠ [] ∨ ∃ pre rest, f.toServer = pre ++ .ack :: rest ∧
      syncAfter f.server.clientAckGeneration pre = f.server.ackGeneration) := by
  have hi := h.inv
  refine ⟨fun rest ht hg => ?_, fun ho => ?_, hi.inFlight⟩
  · obtain ⟨ha, ho⟩ := hi.answered_of_ack ht hg
    exact ha.window_le hi ho ht hg
  · have := hi.messagesWindow ho
    omega

theorem run_flowControl_setAck : ∃ f, Run false f ∧ f.sentSince = 1 ∧
    (f.server.messagesWindow.toNat : Int) = f.sentSince - f.server.clientAckWindow.toNat * f.accepted := by
  have h : Run false (((init false).step .open).get rfl) := .step (a := .open) .init trivial rfl
  have hn : (((init false).step .open).get rfl).NewGeneration (.push false) := fun _ => List.not_mem_nil
  have h' : Run false (((((init false).step .open).get rfl).step (.push false)).get rfl) := h.step hn rfl
  exact ⟨_, h', rfl, (run_flowControl h').2.1 rfl⟩

end Flow

end Colama.Spice.AckWindow

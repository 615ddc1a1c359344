import Mathlib.Tactic
import Colama.Spice.VdiPort.Read

namespace Colama.Spice.VdiPort

open Lib

/-- A chunk as the agent writes it, to one of the two ports. -/
structure Chunk where
  port : UInt32
  data : List UInt8
  port_valid : port = vdpClientPort ∨ port = vdpServerPort
  size_lt : data.length < 2 ^ 32

namespace Chunk

def header (c : Chunk) : VDIChunkHeader := ⟨c.port, .ofNat c.data.length⟩

def bytes (c : Chunk) : List UInt8 := c.header.bytes ++ c.data

def forClient (c : Chunk) (data : List UInt8) : List UInt8 := if c.port = vdpClientPort then data else []

theorem toNat_size (c : Chunk) : c.header.size.toNat = c.data.length :=
  UInt32.toNat_ofNat_of_lt' c.size_lt

theorem forClient_append (c : Chunk) (p q : List UInt8) : c.forClient (p ++ q) = c.forClient p ++ c.forClient q := by
  rw [forClient, forClient, forClient]
  split <;> simp

end Chunk

theorem VDIChunkHeader.length_bytes (h : VDIChunkHeader) : h.bytes.length = sizeofChunkHeader := by
  simp [bytes, sizeofChunkHeader]

theorem VDIChunkHeader.ofBytes_bytes (h : VDIChunkHeader) : ofBytes h.bytes = h := by
  have htake : h.bytes.take 4 = littleEndian h.port.toNat 4 := by
    rw [bytes, List.take_left' (length_littleEndian ..)]
  have hdrop : h.bytes.drop 4 = littleEndian h.size.toNat 4 := by
    rw [bytes, List.drop_left' (length_littleEndian ..)]
  have hp := h.port.toNat_lt
  have hs := h.size.toNat_lt
  rw [ofBytes, htake, hdrop, ofLittleEndian_littleEndian, ofLittleEndian_littleEndian, Nat.mod_eq_of_lt (by simpa using hp),
    Nat.mod_eq_of_lt (by simpa using hs), UInt32.ofNat_toNat, UInt32.ofNat_toNat]

def stream (cs : List Chunk) : List UInt8 := cs.flatMap Chunk.bytes

def clientPayload (cs : List Chunk) : List UInt8 := cs.flatMap fun c => c.forClient c.data

@[simp] theorem clientPayload_append (cs ds : List Chunk) :
    clientPayload (cs ++ ds) = clientPayload cs ++ clientPayload ds := List.flatMap_append

/-- What has been read of the stream, and what the port makes of it. -/
structure View where
  readState : ReadState
  headerBytes : List UInt8
  reciveLen : Nat
  messageReciveLen : Nat
  vdiChunkHeader : VDIChunkHeader
  currentBuf : Option VDIReadBuf
  queued : List UInt8
  future : List UInt8

namespace View

/-- The chunks of `done` are dealt with; a part of the header of the next one may have been read. -/
structure AtHeader (v : View) (done rest : List Chunk) : Prop where
  readState : v.readState = .readHader
  currentBuf : v.currentBuf = none
  queued : v.queued = clientPayload done
  future : v.headerBytes ++ v.future = stream rest
  length : v.headerBytes.length + v.reciveLen = sizeofChunkHeader
  reciveLen : v.reciveLen ≠ 0

/-- The data `p` of the chunk is dispatched and a buffer is needed for `q`. -/
structure AtBuff (v : View) (done : List Chunk) (c : Chunk) (rest : List Chunk) (p q : List UInt8) : Prop where
  readState : v.readState = .getBuff
  currentBuf : v.currentBuf = none
  header : v.vdiChunkHeader = c.header
  data : c.data = p ++ q
  pending : q = [] → p = []
  messageReciveLen : v.messageReciveLen = q.length
  queued : v.queued = clientPayload done ++ c.forClient p
  future : v.future = q ++ stream rest

/-- The data `p` of the chunk is dispatched and the current buffer has `buf.data`; `q` is to be read. -/
structure InData (v : View) (done : List Chunk) (c : Chunk) (rest : List Chunk) (p q : List UInt8)
    (buf : VDIReadBuf) : Prop where
  readState : v.readState = .readData
  currentBuf : v.currentBuf = some buf
  header : v.vdiChunkHeader = c.header
  data : c.data = p ++ buf.data ++ q
  len : buf.len = buf.data.length + v.reciveLen
  length : v.reciveLen + v.messageReciveLen = q.length
  pending : v.reciveLen = 0 → c.data = []
  queued : v.queued = clientPayload done ++ c.forClient p
  future : v.future = q ++ stream rest

/-- The port is somewhere in the stream, behind chunks none of which was empty. -/
def Placed (cs : List Chunk) (v : View) : Prop :=
  ∃ done rest, cs = done ++ rest ∧ (∀ c ∈ done, c.data ≠ []) ∧
    (v.AtHeader done rest ∨
      ∃ c rest' p q, rest = c :: rest' ∧ (v.AtBuff done c rest' p q ∨ ∃ buf, v.InData done c rest' p q buf))

end View

namespace Port

/-- What has not been read yet, written or not. -/
def future (cs : List Chunk) (s : Port) : List UInt8 := s.available ++ (stream cs).drop s.written.length

def view (cs : List Chunk) (s : Port) : View where
  readState := s.readState
  headerBytes := s.headerBytes
  reciveLen := s.reciveLen
  messageReciveLen := s.messageReciveLen
  vdiChunkHeader := s.vdiChunkHeader
  currentBuf := s.currentReadBuf.map s.bufs
  queued := s.queued
  future := s.future cs

/-- Each buffer is in one place. -/
def Accounted (s : Port) : Prop :=
  (s.readBufs ++ s.currentReadBuf.toList ++ s.outgoing).Perm (List.range redsVdiPortNumReciveBuffs)

structure Inv (cs : List Chunk) (s : Port) : Prop where
  connected : s.connected
  migTarget : s.migTarget = false
  written : s.written <+: stream cs
  accounted : s.Accounted
  placed : (s.view cs).Placed cs

/-- What the agent writes stays within the stream. -/
def AgentWrites (cs : List Chunk) (s : Port) : Act → Prop
  | .agentWrite bytes => s.written ++ bytes <+: stream cs
  | _ => True

abbrev Run (cs : List Chunk) : Port → Prop :=
  Reachable (fun s a s' => s.step a = some s') (AgentWrites cs) init

variable {cs : List Chunk} {s : Port}

theorem inv_init (cs : List Chunk) : (init).Inv cs where
  connected := rfl
  migTarget := rfl
  written := List.nil_prefix
  accounted := by
    rw [Accounted]
    decide
  placed := ⟨[], cs, rfl, by simp, .inl ⟨rfl, rfl, rfl, rfl, rfl, Nat.succ_ne_zero 7⟩⟩

theorem Inv.of_view_eq {s' : Port} (h : s.Inv cs) (hc : s'.connected = s.connected) (hm : s'.migTarget = s.migTarget)
    (hw : s'.written <+: stream cs) (ha : s'.Accounted) (hv : s'.view cs = s.view cs) : s'.Inv cs :=
  ⟨hc ▸ h.connected, hm ▸ h.migTarget, hw, ha, hv ▸ h.placed⟩

theorem Inv.withCall (h : s.Inv cs) (call : Option Nat) : { s with call := call }.Inv cs :=
  h.of_view_eq rfl rfl h.written h.accounted rfl

theorem Inv.quitLoop (h : s.Inv cs) : s.quitLoop.Inv cs := by
  rw [Port.quitLoop]
  split
  · exact h.withCall none
  · exact h.withCall (some 0)
  · exact h

theorem Inv.agentWrite {bytes : List UInt8} (h : s.Inv cs) (hw : s.written ++ bytes <+: stream cs) :
    { s with available := s.available ++ bytes, written := s.written ++ bytes }.Inv cs := by
  refine h.of_view_eq rfl rfl hw h.accounted ?_
  obtain ⟨rest, hrest⟩ := hw
  have hlen : (stream cs).drop (s.written ++ bytes).length = rest := by
    rw [← hrest, List.drop_left]
  have hlen' : (stream cs).drop s.written.length = bytes ++ rest := by
    rw [← hrest, List.append_assoc, List.drop_left]
  simp only [view, future, hlen, hlen', List.append_assoc]
  rfl

theorem Inv.release {buf : Nat} {outgoing : List Nat} (h : s.Inv cs) (ho : s.outgoing = buf :: outgoing) :
    { s with sent := s.sent ++ s.payload buf, outgoing := outgoing, readBufs := buf :: s.readBufs }.Inv cs := by
  refine h.of_view_eq rfl rfl h.written ?_ ?_
  · have hp := h.accounted
    rw [Accounted, ho] at hp
    refine List.Perm.trans ?_ hp
    simp only [List.cons_append]
    exact List.perm_middle.symm
  · have hq : ({ s with sent := s.sent ++ s.payload buf, outgoing := outgoing, readBufs := buf :: s.readBufs } : Port).queued
        = s.queued := by
      rw [queued, queued, ho, List.flatMap_cons, ← List.append_assoc]
      rfl
    simp only [view, hq]
    rfl

theorem Inv.nodup (h : s.Inv cs) : (s.readBufs ++ s.currentReadBuf.toList ++ s.outgoing).Nodup :=
  h.accounted.nodup_iff.mpr List.nodup_range

theorem flatMap_update_of_notMem {bufs : Nat → VDIReadBuf} {buf : Nat} {b : VDIReadBuf} {l : List Nat} (h : buf ∉ l) :
    (l.flatMap fun x => (Function.update bufs buf b x).data.take (Function.update bufs buf b x).len) =
      l.flatMap fun x => (bufs x).data.take (bufs x).len := by
  refine List.flatMap_congr fun x hx => ?_
  rw [Function.update_of_ne (by rintro rfl; exact h hx)]

theorem take_future (cs : List Chunk) {n : Nat} (h : n ≤ s.available.length) : (s.future cs).take n = s.available.take n :=
  List.take_append_of_le_length h

theorem drop_future {n : Nat} (h : n ≤ s.available.length) :
    (s.future cs).drop n = s.available.drop n ++ (stream cs).drop s.written.length :=
  List.drop_append_of_le_length h

/-- Reading the header, the port stays in it or comes to the data of the chunk. -/
theorem Inv.readHeader {n : Nat} {done rest : List Chunk} (h : s.Inv cs) (hn : s.MayRead n)
    (hcs : cs = done ++ rest) (hd : ∀ c ∈ done, c.data ≠ []) (hp : (s.view cs).AtHeader done rest) :
    (s.readHeader n).Inv cs := by
  obtain ⟨hle, hav, -⟩ := hn
  have hfuture : s.headerBytes ++ s.available.take n ++ (s.available.drop n ++ (stream cs).drop s.written.length) =
      stream rest := by
    rw [← hp.future, ← drop_future hav, ← take_future cs hav, List.append_assoc, List.take_append_drop]
    rfl
  have hlen : (s.headerBytes ++ s.available.take n).length + (s.reciveLen - n) = sizeofChunkHeader := by
    have : s.headerBytes.length + s.reciveLen = sizeofChunkHeader := hp.length
    rw [List.length_append, List.length_take]
    omega
  rw [Port.readHeader]
  split
  · next hr =>
    exact Inv.quitLoop ⟨h.connected, h.migTarget, h.written, h.accounted, done, rest, hcs, hd,
      .inl ⟨hp.readState, hp.currentBuf, hp.queued, hfuture, hlen, hr⟩⟩
  · next hr =>
    have hr : s.reciveLen - n = 0 := not_not.mp hr
    rw [hr, Nat.add_zero] at hlen
    cases rest with
    | nil =>
      have := congrArg List.length hfuture
      rw [List.length_append, hlen] at this
      simp [stream, sizeofChunkHeader] at this
    | cons c rest =>
      obtain ⟨hb, hf⟩ := List.append_inj
        (hfuture.trans (List.append_assoc c.header.bytes c.data (stream rest)))
        (hlen.trans c.header.length_bytes.symm)
      refine ⟨h.connected, h.migTarget, h.written, h.accounted, done, _, hcs, hd,
        .inr ⟨c, rest, [], c.data, rfl, .inl ⟨rfl, hp.currentBuf, ?_, rfl, fun _ => rfl, ?_, ?_, hf⟩⟩⟩
      · exact (congrArg _ hb).trans c.header.ofBytes_bytes
      · simp only [view, hb, VDIChunkHeader.ofBytes_bytes]
        exact c.toNat_size
      · have := hp.queued
        simp only [view] at this ⊢
        rw [show c.forClient [] = [] from ite_self [], List.append_nil]
        exact this

theorem Inv.getBuff {done rest : List Chunk} {c : Chunk} {p q : List UInt8} (h : s.Inv cs)
    (hcs : cs = done ++ c :: rest) (hd : ∀ c ∈ done, c.data ≠ []) (hp : (s.view cs).AtBuff done c rest p q) :
    s.getBuff.Inv cs := by
  rw [Port.getBuff]
  split
  · exact h.quitLoop
  · next buf readBufs hr =>
    have hcur : s.currentReadBuf = none := Option.map_eq_none_iff.mp hp.currentBuf
    have hnodup := h.nodup
    have hacc := h.accounted
    rw [hr, hcur] at hnodup
    rw [Accounted, hr, hcur] at hacc
    have hbuf : buf ∉ s.outgoing := by
      simp only [List.cons_append, List.nodup_cons, List.mem_append, not_or] at hnodup
      exact hnodup.1.2
    have hm : s.messageReciveLen = q.length := hp.messageReciveLen
    refine ⟨h.connected, h.migTarget, h.written, ?_, done, _, hcs, hd,
      .inr ⟨c, rest, p, q, rfl, .inr ⟨⟨min s.messageReciveLen spiceAgentMaxDataSize, []⟩, rfl, ?_, hp.header, ?_, ?_, ?_,
        fun h0 => ?_, ?_, hp.future⟩⟩⟩
    · refine List.Perm.trans ?_ hacc
      simp
    · simp [view]
    · simpa using hp.data
    · simp [view]
    · simp only [view]
      omega
    · have hq : q = [] := by
        have : spiceAgentMaxDataSize = 2048 := rfl
        simp only [view] at h0
        exact List.eq_nil_of_length_eq_zero (by omega)
      rw [hp.data, hp.pending hq, hq]
      rfl
    · have := hp.queued
      simp only [view, queued] at this ⊢
      rw [← this]
      exact congrArg _ (flatMap_update_of_notMem hbuf)

/-- The buffer is full and goes to the client or, with what came to the server port, back to the others. -/
theorem dispatch_queued {c : Chunk} (buf : Nat) :
    (s.dispatchVdiPortData c.port buf).queued = s.queued ++ c.forClient (s.payload buf) := by
  rw [dispatchVdiPortData, Chunk.forClient]
  rcases c.port_valid with hc | hc
  · rw [if_pos hc, if_pos hc]
    simp [queued, payload]
    rfl
  · have hne : ¬ c.port = vdpClientPort := by rw [hc]; decide
    rw [if_neg hne, if_neg hne, if_pos hc, List.append_nil]
    rfl

theorem dispatch_accounted {c : Chunk} {buf : Nat} (hcur : s.currentReadBuf = none)
    (h : (s.readBufs ++ [buf] ++ s.outgoing).Perm (List.range redsVdiPortNumReciveBuffs)) :
    (s.dispatchVdiPortData c.port buf).Accounted := by
  rw [dispatchVdiPortData]
  rcases c.port_valid with hc | hc
  · rw [if_pos hc]
    refine List.Perm.trans ?_ h
    simp only [hcur, Option.toList_none, List.append_nil, List.append_assoc]
    exact (List.perm_append_comm).append_left _
  · have hne : ¬ c.port = vdpClientPort := by rw [hc]; decide
    rw [if_neg hne, if_pos hc]
    refine List.Perm.trans ?_ h
    simp only [hcur, Option.toList_none, List.append_nil, List.append_assoc, List.cons_append, List.nil_append]
    exact List.perm_middle.symm

/-- What else the dispatch of a chunk of the stream leaves as it is. -/
theorem dispatch_keeps (cs : List Chunk) (s : Port) (c : Chunk) (buf : Nat) :
    (s.dispatchVdiPortData c.port buf).view cs =
        { s.view cs with queued := (s.dispatchVdiPortData c.port buf).queued } ∧
      (s.dispatchVdiPortData c.port buf).connected = s.connected ∧
      (s.dispatchVdiPortData c.port buf).migTarget = s.migTarget ∧
      (s.dispatchVdiPortData c.port buf).written = s.written := by
  rw [dispatchVdiPortData]
  rcases c.port_valid with hc | hc
  · rw [if_pos hc]
    exact ⟨rfl, rfl, rfl, rfl⟩
  · have hne : ¬ c.port = vdpClientPort := by rw [hc]; decide
    rw [if_neg hne, if_pos hc]
    exact ⟨rfl, rfl, rfl, rfl⟩

theorem Inv.dispatch {c : Chunk} {port : UInt32} {buf : Nat} (hport : port = c.port) (hconn : s.connected) (hmig : s.migTarget = false)
    (hw : s.written <+: stream cs) (hcur : s.currentReadBuf = none)
    (ha : (s.readBufs ++ [buf] ++ s.outgoing).Perm (List.range redsVdiPortNumReciveBuffs))
    (hp : View.Placed cs { s.view cs with queued := s.queued ++ c.forClient (s.payload buf) }) :
    (s.dispatchVdiPortData port buf).Inv cs := by
  subst hport
  obtain ⟨hv, hc, hm, hwr⟩ := dispatch_keeps cs s c buf
  refine ⟨hc ▸ hconn, hm ▸ hmig, hwr ▸ hw, dispatch_accounted hcur ha, ?_⟩
  rw [hv, dispatch_queued]
  exact hp

theorem Inv.readData {n buf : Nat} {done rest : List Chunk} {c : Chunk} {p q : List UInt8} {b : VDIReadBuf}
    (h : s.Inv cs) (hn : s.MayRead n) (h0 : n ≠ 0) (hcur : s.currentReadBuf = some buf)
    (hcs : cs = done ++ c :: rest) (hd : ∀ c ∈ done, c.data ≠ [])
    (hp : (s.view cs).InData done c rest p q b) : (s.readData buf n).Inv cs := by
  obtain ⟨hle, hav, -⟩ := hn
  have hb : s.bufs buf = b := by
    have := hp.currentBuf
    simpa [view, hcur] using this
  have hnodup := h.nodup
  rw [hcur] at hnodup
  have hbuf : buf ∉ s.outgoing := fun hm =>
    List.disjoint_of_nodup_append hnodup (List.mem_append_right _ (by simp)) hm
  have hlength : s.reciveLen + s.messageReciveLen = q.length := hp.length
  have hfut : s.future cs = q ++ stream rest := hp.future
  have htake : s.available.take n = q.take n := by
    rw [← take_future cs hav, hfut, List.take_append_of_le_length (by omega)]
  have hdrop : s.available.drop n ++ (stream cs).drop s.written.length = q.drop n ++ stream rest := by
    rw [← drop_future hav, hfut, List.drop_append_of_le_length (by omega)]
  have hdata : c.data = p ++ (b.data ++ q.take n) ++ q.drop n := by
    rw [hp.data]
    simp
  have hq : q ≠ [] := by
    rintro rfl
    simp only [List.length_nil] at hlength
    omega
  have hqueued (b' : VDIReadBuf) :
      s.sent ++ s.outgoing.flatMap (fun x => (Function.update s.bufs buf b' x).data.take (Function.update s.bufs buf b' x).len) =
        clientPayload done ++ c.forClient p := by
    rw [flatMap_update_of_notMem hbuf]
    exact hp.queued
  rw [Port.readData]
  split
  · next hr =>
    refine ⟨h.connected, h.migTarget, h.written, h.accounted, done, _, hcs, hd, .inr ⟨c, rest, p, q.drop n, rfl,
      .inr ⟨⟨b.len, b.data ++ q.take n⟩, hp.readState, ?_, hp.header, hdata, ?_, ?_, fun hr' => absurd hr' hr, ?_, hdrop⟩⟩⟩
    · simp [view, hcur, hb, htake]
    · have := hp.len
      simp only [view, List.length_append, List.length_take] at this ⊢
      omega
    · simp only [view, List.length_drop]
      omega
    · exact hqueued _
  · next hr =>
    have hr : s.reciveLen - n = 0 := not_not.mp hr
    have hport : s.vdiChunkHeader.port = c.port := congrArg VDIChunkHeader.port hp.header
    have hlen : b.len = (b.data ++ q.take n).length := by
      have := hp.len
      simp only [view, List.length_append, List.length_take] at this ⊢
      omega
    have hfull : ((s.bufs buf).data ++ s.available.take n).take (s.bufs buf).len = b.data ++ q.take n := by
      rw [hb, htake, hlen, List.take_length]
    have hnew (b' : VDIReadBuf) (hb' : b'.data.take b'.len = b.data ++ q.take n) :
        s.sent ++ s.outgoing.flatMap (fun x => (Function.update s.bufs buf b' x).data.take (Function.update s.bufs buf b' x).len) ++
            c.forClient ((Function.update s.bufs buf b' buf).data.take (Function.update s.bufs buf b' buf).len) =
          clientPayload done ++ c.forClient (p ++ (b.data ++ q.take n)) := by
      rw [hqueued, Function.update_self, hb', c.forClient_append p, List.append_assoc]
    have hacc := h.accounted
    rw [Accounted, hcur, Option.toList_some] at hacc
    by_cases hm : s.messageReciveLen = 0
    · simp only [if_pos hm]
      have hdropNil : q.drop n = [] := List.drop_eq_nil_of_le (by omega)
      rw [hdropNil, List.append_nil] at hdata
      refine Inv.dispatch hport h.connected h.migTarget h.written rfl hacc ?_
      refine ⟨done ++ [c], rest, by simpa using hcs, ?_,
        .inl ⟨rfl, rfl, ?_, ?_, rfl, Nat.succ_ne_zero 7⟩⟩
      · intro x hx
        obtain hx | rfl := by simpa using hx
        · exact hd x hx
        · rw [hp.data]
          simp [hq]
      · refine (hnew _ hfull).trans ?_
        rw [← hdata, clientPayload_append]
        simp [clientPayload]
      · simpa [view, future, hdropNil] using hdrop
    · simp only [if_neg hm]
      refine Inv.dispatch hport h.connected h.migTarget h.written rfl hacc ?_
      refine ⟨done, _, hcs, hd,
        .inr ⟨c, rest, p ++ (b.data ++ q.take n), q.drop n, rfl, .inl ⟨rfl, rfl, hp.header, hdata, ?_, ?_, ?_, hdrop⟩⟩⟩
      · intro hq'
        have := congrArg List.length hq'
        simp only [List.length_drop, List.length_nil] at this
        omega
      · simp only [view, List.length_drop]
        omega
      · exact hnew _ hfull

theorem Inv.step {a : Act} {s' : Port} (h : s.Inv cs) (hw : s.AgentWrites cs a) (hs : s.step a = some s') :
    s'.Inv cs := by
  cases a with
  | agentWrite bytes =>
    obtain rfl : _ = s' := Option.some.inj hs
    exact h.agentWrite hw
  | wakeup =>
    obtain rfl : _ = s' := Option.some.inj hs
    split
    · exact h.withCall (some 0)
    · exact h
  | readBufRelease =>
    cases ho : s.outgoing with
    | nil => simp [Port.step, ho] at hs
    | cons buf outgoing =>
      simp only [Port.step, ho, Option.some.injEq] at hs
      subst hs
      split
      · exact (h.release ho).withCall (some 0)
      · exact h.release ho
  | round n =>
    have hlive : ¬ (¬ s.connected ∨ s.migTarget) := by simp [h.connected, h.migTarget]
    simp only [Port.step, if_neg hlive, Option.ite_none_left_eq_some] at hs
    obtain ⟨-, hs⟩ := hs
    obtain ⟨done, rest, hcs, hd, hp | ⟨c, rest, p, q, rfl, hp | ⟨b, hp⟩⟩⟩ := h.placed
    · rw [show s.readState = .readHader from hp.readState] at hs
      simp only [Option.ite_none_right_eq_some, Option.some.injEq] at hs
      obtain ⟨hn, rfl⟩ := hs
      split
      · exact h.quitLoop
      · exact h.readHeader hn hcs hd hp
    · rw [show s.readState = .getBuff from hp.readState] at hs
      obtain rfl : _ = s' := Option.some.inj hs
      exact h.getBuff hcs hd hp
    · obtain ⟨buf, hcur, -⟩ := Option.map_eq_some_iff.mp hp.currentBuf
      rw [show s.readState = .readData from hp.readState, hcur] at hs
      simp only [Option.ite_none_right_eq_some, Option.some.injEq] at hs
      obtain ⟨hn, rfl⟩ := hs
      split
      · exact h.quitLoop
      · next h0 => exact h.readData hn h0 hcur hcs hd hp

theorem Run.inv (h : Run cs s) : s.Inv cs :=
  Reachable.invariant (Inv cs) h (inv_init cs) fun _ _ _ hi hw hs => hi.step hw hs

/-- What the client is sent, where the buffers are, and how a loop around `read_from_vdi_port` ends. -/
structure ReadsStream (cs : List Chunk) (s : Port) : Prop where
  queued_prefix : s.queued <+: clientPayload cs
  queued_eq : s.written = stream cs → s.available = [] → s.queued = clientPayload cs
  accounted : s.Accounted
  loopEnd : ∀ a s', s.step a = some s' → s.call ≠ none → s'.call = none → s'.available = [] ∨ s'.readBufs = []

theorem stream_eq_nil {cs : List Chunk} (h : stream cs = []) : cs = [] := by
  cases cs with
  | nil => rfl
  | cons c cs =>
    have := congrArg List.length h
    simp [stream, Chunk.bytes, VDIChunkHeader.length_bytes, sizeofChunkHeader] at this

theorem stream_short {cs : List Chunk} (h : (stream cs).length < sizeofChunkHeader) : cs = [] := by
  cases cs with
  | nil => rfl
  | cons c cs =>
    simp [stream, Chunk.bytes, VDIChunkHeader.length_bytes] at h

theorem clientPayload_cons (c : Chunk) (cs : List Chunk) :
    clientPayload (c :: cs) = c.forClient c.data ++ clientPayload cs := rfl

theorem Inv.queued_prefix (h : s.Inv cs) : s.queued <+: clientPayload cs := by
  have partOf {done rest : List Chunk} {c : Chunk} {p q : List UInt8} (hc : c.data = p ++ q) :
      clientPayload done ++ c.forClient p <+: clientPayload (done ++ c :: rest) := by
    rw [clientPayload_append, clientPayload_cons, hc, c.forClient_append]
    exact ⟨c.forClient q ++ clientPayload rest, by simp⟩
  obtain ⟨done, rest, rfl, -, hp | ⟨c, rest, p, q, rfl, hp | ⟨b, hp⟩⟩⟩ := h.placed
  · rw [show s.queued = clientPayload done from hp.queued, clientPayload_append]
    exact List.prefix_append _ _
  · rw [show s.queued = _ from hp.queued]
    exact partOf hp.data
  · rw [show s.queued = _ from hp.queued]
    exact partOf (hp.data.trans (List.append_assoc _ _ _))

theorem future_eq_nil (hw : s.written = stream cs) (ha : s.available = []) : s.future cs = [] := by
  rw [future, ha, hw, List.drop_length, List.append_nil]

/-- Where the stream is read to its end, the port stands behind all chunks, or in the last one, all of which is
dispatched. -/
theorem Inv.exhausted (h : s.Inv cs) (hf : s.future cs = []) :
    s.queued = clientPayload cs ∧ ∀ c ∈ cs.dropLast, c.data ≠ [] := by
  have last {done : List Chunk} {c : Chunk} (hd : ∀ c ∈ done, c.data ≠ []) : ∀ x ∈ (done ++ [c]).dropLast, x.data ≠ [] := by
    simpa using hd
  obtain ⟨done, rest, rfl, hd, hp | ⟨c, rest, p, q, rfl, hp | ⟨b, hp⟩⟩⟩ := h.placed
  · have hfut := hp.future
    have hlen := hp.length
    have hr := hp.reciveLen
    rw [show (s.view _).future = [] from hf, List.append_nil] at hfut
    rw [hfut] at hlen
    obtain rfl : rest = [] := stream_short (by omega)
    rw [List.append_nil]
    exact ⟨hp.queued, fun c hc => hd c (List.mem_of_mem_dropLast hc)⟩
  · have hfut := hp.future
    rw [show (s.view _).future = [] from hf] at hfut
    obtain ⟨rfl, hrest⟩ := List.append_eq_nil_iff.mp hfut.symm
    obtain rfl := stream_eq_nil hrest
    refine ⟨?_, last hd⟩
    rw [show s.queued = _ from hp.queued, clientPayload_append, clientPayload_cons, hp.data]
    simp [clientPayload]
  · have hfut := hp.future
    rw [show (s.view _).future = [] from hf] at hfut
    obtain ⟨rfl, hrest⟩ := List.append_eq_nil_iff.mp hfut.symm
    obtain rfl := stream_eq_nil hrest
    refine ⟨?_, last hd⟩
    have hlen := hp.length
    have hdata := hp.pending (by simp only [List.length_nil] at hlen; omega)
    have hp' : p = [] := by
      have := hp.data
      rw [hdata] at this
      simp at this
      exact this.1
    rw [show s.queued = _ from hp.queued, clientPayload_append, clientPayload_cons, hdata, hp']
    simp [clientPayload]

theorem quitLoop_call {call : Nat} (h : s.call = some call) : s.quitLoop.call = none ↔ call = 0 := by
  rw [quitLoop, h]
  cases call <;> simp

theorem quitLoop_available : s.quitLoop.available = s.available ∧ s.quitLoop.readBufs = s.readBufs := by
  rw [quitLoop]
  split <;> exact ⟨rfl, rfl⟩

theorem dispatch_call (port : UInt32) (buf : Nat) : (s.dispatchVdiPortData port buf).call = s.call := by
  rw [dispatchVdiPortData]
  split
  · rfl
  · split <;> rfl

theorem readHeader_call {n call : Nat} (h : s.call = some call) (h0 : n ≠ 0) : (s.readHeader n).call ≠ none := by
  have hcall : s.call.map (· + n) = some (call + n) := congrArg (Option.map (· + n)) h
  rw [Port.readHeader]
  split
  · exact fun hc => h0 (Nat.add_eq_zero_iff.mp ((quitLoop_call hcall).mp hc)).2
  · exact fun hc => Option.some_ne_none _ (hcall.symm.trans hc)

theorem readData_call {n buf call : Nat} (h : s.call = some call) : (s.readData buf n).call ≠ none := by
  rw [Port.readData]
  split
  · simp [h]
  · rw [dispatch_call]
    split <;> simp [h]

/-- A loop ends with nothing left to read, without a free buffer, or at an empty chunk that is not the last. -/
theorem Inv.loopEnd (h : s.Inv cs) (hz : ∀ c ∈ cs.dropLast, c.data ≠ []) {a : Act} {s' : Port}
    (hs : s.step a = some s') (hc : s.call ≠ none) (hc' : s'.call = none) : s'.available = [] ∨ s'.readBufs = [] := by
  cases a with
  | agentWrite bytes =>
    obtain rfl : _ = s' := Option.some.inj hs
    exact absurd hc' hc
  | wakeup =>
    obtain rfl : _ = s' := Option.some.inj hs
    rw [if_neg hc] at hc'
    exact absurd hc' hc
  | readBufRelease =>
    cases ho : s.outgoing with
    | nil => simp [Port.step, ho] at hs
    | cons buf outgoing =>
      simp only [Port.step, ho, if_neg hc, Option.some.injEq] at hs
      subst hs
      exact absurd hc' hc
  | round n =>
    obtain ⟨call, hcall⟩ := Option.ne_none_iff_exists'.mp hc
    have hlive : ¬ (¬ s.connected ∨ s.migTarget) := by simp [h.connected, h.migTarget]
    simp only [Port.step, if_neg hlive, Option.ite_none_left_eq_some] at hs
    obtain ⟨-, hs⟩ := hs
    obtain ⟨done, rest, rfl, hd, hp | ⟨c, rest, p, q, rfl, hp | ⟨b, hp⟩⟩⟩ := h.placed
    · rw [show s.readState = .readHader from hp.readState] at hs
      simp only [Option.ite_none_right_eq_some, Option.some.injEq] at hs
      obtain ⟨hn, rfl⟩ := hs
      split at hc'
      · next h0 =>
        rw [if_pos h0, quitLoop_available.1]
        exact .inl ((hn.2.2 h0).resolve_left hp.reciveLen)
      · next h0 => exact absurd hc' (readHeader_call hcall h0)
    · rw [show s.readState = .getBuff from hp.readState] at hs
      obtain rfl : _ = s' := Option.some.inj hs
      rw [Port.getBuff] at hc' ⊢
      split at hc'
      · next hr =>
        rw [quitLoop_available.2]
        exact .inr hr
      · exact absurd hc' hc
    · obtain ⟨buf, hcur, -⟩ := Option.map_eq_some_iff.mp hp.currentBuf
      rw [show s.readState = .readData from hp.readState, hcur] at hs
      simp only [Option.ite_none_right_eq_some, Option.some.injEq] at hs
      obtain ⟨hn, rfl⟩ := hs
      split at hc'
      · next h0 =>
        rw [if_pos h0, quitLoop_available.1]
        refine .inl ((hn.2.2 h0).elim (fun hr => ?_) id)
        have hdata := hp.pending hr
        have hq : q = [] := by
          have := hp.data
          rw [hdata] at this
          simp at this
          exact this.2.2
        have hrest : rest = [] := by
          by_contra hne
          refine hz c ?_ hdata
          rw [List.dropLast_append_of_ne_nil (List.cons_ne_nil c rest), List.dropLast_cons_of_ne_nil hne]
          exact List.mem_append_right _ List.mem_cons_self
        have hfut := hp.future
        rw [hq, hrest] at hfut
        exact (List.append_eq_nil_iff.mp hfut).1
      · exact absurd hc' (readData_call hcall)

theorem Inv.readsStream (h : s.Inv cs) (hz : ∀ c ∈ cs.dropLast, c.data ≠ []) : s.ReadsStream cs :=
  ⟨h.queued_prefix, fun hw ha => (h.exhausted (future_eq_nil hw ha)).1, h.accounted,
    fun _ _ hs hc hc' => h.loopEnd hz hs hc hc'⟩

/-- What a loop has left to do when the client takes the messages at once. -/
def remaining (s : Port) : Nat :=
  8 * s.available.length + 4 * s.outgoing.length + (if s.call = some 0 then 0 else 2) +
    if s.readState = .getBuff then 1 else 0

theorem remaining_le (s : Port) : s.remaining ≤ 8 * s.available.length + 4 * s.outgoing.length + 3 := by
  rw [remaining]
  split <;> split <;> omega

theorem le_remaining (s : Port) : 8 * s.available.length + 4 * s.outgoing.length ≤ s.remaining := by
  rw [remaining]
  omega

/-- What the rounds leave alone. -/
theorem quitLoop_keeps : s.quitLoop.written = s.written ∧ s.quitLoop.outgoing = s.outgoing := by
  rw [quitLoop]
  split <;> exact ⟨rfl, rfl⟩

theorem quitLoop_remaining {call : Nat} (h : s.call = some call) (h0 : call ≠ 0) :
    s.quitLoop.call ≠ none ∧ s.quitLoop.remaining < s.remaining := by
  cases call with
  | zero => exact absurd rfl h0
  | succ call =>
    simp [quitLoop, h, remaining]

theorem readHeader_keeps (n : Nat) : (s.readHeader n).written = s.written ∧
    (s.readHeader n).outgoing = s.outgoing ∧ (s.readHeader n).available = s.available.drop n := by
  rw [Port.readHeader]
  split
  · exact ⟨quitLoop_keeps.1, quitLoop_keeps.2, quitLoop_available.1⟩
  · exact ⟨rfl, rfl, rfl⟩

theorem dispatch_takes (port : UInt32) (buf : Nat) : (s.dispatchVdiPortData port buf).written = s.written ∧
    (s.dispatchVdiPortData port buf).outgoing.length ≤ s.outgoing.length + 1 ∧
    (s.dispatchVdiPortData port buf).available = s.available := by
  rw [dispatchVdiPortData]
  split
  · simp
  · split
    · exact ⟨rfl, Nat.le_succ _, rfl⟩
    · exact ⟨rfl, Nat.le_succ _, rfl⟩

theorem readData_takes (buf n : Nat) : (s.readData buf n).written = s.written ∧
    (s.readData buf n).outgoing.length ≤ s.outgoing.length + 1 ∧ (s.readData buf n).available = s.available.drop n := by
  rw [Port.readData]
  split
  · exact ⟨rfl, Nat.le_succ _, rfl⟩
  · by_cases hm : s.messageReciveLen = 0
    · simp only [if_pos hm]
      exact dispatch_takes _ _
    · simp only [if_neg hm]
      exact dispatch_takes _ _

/-- A round with as much as can be read, once all messages are sent: the loop ends or comes nearer to its end. -/
theorem Inv.exists_round {call : Nat} (h : s.Inv cs) (hcall : s.call = some call) (ho : s.outgoing = []) :
    ∃ n s', s.step (.round n) = some s' ∧ s'.written = s.written ∧
      ((s'.call = none ∧ s'.outgoing = []) ∨ s'.call ≠ none ∧ s'.remaining < s.remaining) := by
  have hlive : ¬ (¬ s.connected ∨ s.migTarget) := by simp [h.connected, h.migTarget]
  have hc : s.call ≠ none := by simp [hcall]
  have hread : s.MayRead (min s.reciveLen s.available.length) := by
    refine ⟨min_le_left _ _, min_le_right _ _, fun h0 => ?_⟩
    rw [← List.length_eq_zero_iff]
    omega
  have quits (hs : ∀ n, s.MayRead n → n = 0 → s.step (.round n) = some s.quitLoop) (h0 : min s.reciveLen s.available.length = 0) :
      ∃ n s', s.step (.round n) = some s' ∧ s'.written = s.written ∧
        ((s'.call = none ∧ s'.outgoing = []) ∨ s'.call ≠ none ∧ s'.remaining < s.remaining) := by
    refine ⟨_, _, hs _ hread h0, quitLoop_keeps.1, ?_⟩
    by_cases h0 : call = 0
    · exact .inl ⟨(quitLoop_call hcall).mpr h0, quitLoop_keeps.2.trans ho⟩
    · exact .inr (quitLoop_remaining hcall h0)
  have hlt {s' : Port} (hn : min s.reciveLen s.available.length ≠ 0)
      (ha : s'.available = s.available.drop (min s.reciveLen s.available.length)) (ho' : s'.outgoing.length ≤ 1) :
      s'.remaining < s.remaining := by
    have h₁ := s'.remaining_le
    have h₂ := s.le_remaining
    rw [ha, List.length_drop] at h₁
    omega
  obtain ⟨done, rest, rfl, hd, hp | ⟨c, rest, p, q, rfl, hp | ⟨b, hp⟩⟩⟩ := h.placed
  · have hs (n : Nat) (hn : s.MayRead n) :
        s.step (.round n) = some (if n = 0 then s.quitLoop else s.readHeader n) := by
      simp only [Port.step, if_neg hlive, if_neg hc, show s.readState = .readHader from hp.readState, if_pos hn]
    by_cases h0 : min s.reciveLen s.available.length = 0
    · exact quits (fun n hn h0 => (hs n hn).trans (by rw [if_pos h0])) h0
    · obtain ⟨hw, ho', ha⟩ := s.readHeader_keeps (min s.reciveLen s.available.length)
      refine ⟨_, _, (hs _ hread).trans (by rw [if_neg h0]), hw, .inr ⟨readHeader_call hcall h0, hlt h0 ha ?_⟩⟩
      rw [ho', ho]
      exact Nat.zero_le 1
  · have hstate : s.readState = .getBuff := hp.readState
    have hcur : s.currentReadBuf = none := Option.map_eq_none_iff.mp hp.currentBuf
    have hs : s.step (.round 0) = some s.getBuff := by
      simp only [Port.step, if_neg hlive, if_neg hc, hstate]
    have hlen := h.accounted.length_eq
    rw [hcur, ho] at hlen
    cases hr : s.readBufs with
    | nil => simp [hr, redsVdiPortNumReciveBuffs] at hlen
    | cons buf readBufs =>
      refine ⟨0, _, hs, ?_, .inr ?_⟩
      · simp [Port.getBuff, hr]
      · simp [Port.getBuff, hr, remaining, hstate, hcall]
  · obtain ⟨buf, hcur, -⟩ := Option.map_eq_some_iff.mp hp.currentBuf
    have hs (n : Nat) (hn : s.MayRead n) :
        s.step (.round n) = some (if n = 0 then s.quitLoop else s.readData buf n) := by
      simp only [Port.step, if_neg hlive, if_neg hc, show s.readState = .readData from hp.readState, hcur, if_pos hn]
    by_cases h0 : min s.reciveLen s.available.length = 0
    · exact quits (fun n hn h0 => (hs n hn).trans (by rw [if_pos h0])) h0
    · obtain ⟨hw, ho', ha⟩ := s.readData_takes buf (min s.reciveLen s.available.length)
      refine ⟨_, _, (hs _ hread).trans (by rw [if_neg h0]), hw, .inr ⟨readData_call hcall, hlt h0 ha ?_⟩⟩
      rw [ho] at ho'
      exact ho'

/-- Every loop can come to its end with all messages sent. -/
theorem Run.exists_loopEnd (h : Run cs s) (hc : s.call ≠ none) : ∃ s₀ n s', Run cs s₀ ∧ s₀.step (.round n) = some s' ∧
    s₀.call ≠ none ∧ s'.call = none ∧ s'.outgoing = [] ∧ s'.written = s.written := by
  induction hm : s.remaining using Nat.strong_induction_on generalizing s with
  | _ m ih =>
    obtain ⟨call, hcall⟩ := Option.ne_none_iff_exists'.mp hc
    cases ho : s.outgoing with
    | nil =>
      obtain ⟨n, s', hs, hw, ⟨hc', ho'⟩ | ⟨hc', hlt⟩⟩ := h.inv.exists_round hcall ho
      · exact ⟨s, n, s', h, hs, hc, hc', ho', hw⟩
      · have hrun : Run cs s' := h.step (a := .round n) trivial hs
        obtain ⟨s₀, n₀, s₁, h₀, hs₁, hc₀, hc₁, ho₁, hw₁⟩ := ih _ (hm ▸ hlt) hrun hc' rfl
        exact ⟨s₀, n₀, s₁, h₀, hs₁, hc₀, hc₁, ho₁, hw₁.trans hw⟩
    | cons buf outgoing =>
      obtain ⟨s₁, hs, hc₁, hw, hlt⟩ : ∃ s₁, s.step .readBufRelease = some s₁ ∧ s₁.call ≠ none ∧
          s₁.written = s.written ∧ s₁.remaining < s.remaining := by
        refine ⟨{ s with sent := s.sent ++ s.payload buf, outgoing := outgoing, readBufs := buf :: s.readBufs }, ?_, hc, rfl, ?_⟩
        · simp only [Port.step, ho, if_neg hc]
        · simp only [remaining, ho, List.length_cons]
          omega
      have hrun : Run cs s₁ := h.step (a := .readBufRelease) trivial hs
      obtain ⟨s₀, n, s', h₀, hs', hc₀, hc', ho', hw'⟩ := ih _ (hm ▸ hlt) hrun hc₁ rfl
      exact ⟨s₀, n, s', h₀, hs', hc₀, hc', ho', hw'.trans hw⟩

/-- The whole stream is written at once and the client takes all messages: a loop ends early at an empty chunk. -/
theorem data_ne_nil_of_readsStream (h : ∀ s, Run cs s → s.ReadsStream cs) : ∀ c ∈ cs.dropLast, c.data ≠ [] := by
  have hw : Run cs { init with available := stream cs, written := stream cs } :=
    .step (a := .agentWrite (stream cs)) .init (List.prefix_refl _) rfl
  have hwake : Run cs { init with available := stream cs, written := stream cs, call := some 0 } :=
    hw.step (a := .wakeup) trivial rfl
  obtain ⟨s₀, n, s, h₀, hs, hc₀, hc, ho, hwr⟩ := Run.exists_loopEnd hwake (Option.some_ne_none 0)
  have hrun : Run cs s := h₀.step (a := .round n) trivial hs
  have hbufs : s.readBufs ≠ [] := by
    intro hr
    have hlen := hrun.inv.accounted.length_eq
    rw [hr, ho] at hlen
    cases hcur : s.currentReadBuf <;> simp [hcur, redsVdiPortNumReciveBuffs] at hlen
  have ha := ((h s₀ h₀).loopEnd (.round n) s hs hc₀ hc).resolve_right hbufs
  exact (hrun.inv.exhausted (future_eq_nil hwr ha)).2

/-- The port reads a stream of chunks as it should, whatever the device, the client and the order of the steps
make of it, just when no chunk but the last is empty. -/
theorem run_readsStream_iff (cs : List Chunk) :
    (∀ s, Run cs s → s.ReadsStream cs) ↔ ∀ c ∈ cs.dropLast, c.data ≠ [] :=
  ⟨data_ne_nil_of_readsStream, fun hz _ hs => hs.inv.readsStream hz⟩

theorem not_readsStream_empty_chunk :
    ¬ ∀ s, Run [⟨vdpClientPort, [], .inl rfl, by decide⟩, ⟨vdpClientPort, [7], .inl rfl, by decide⟩] s →
      s.ReadsStream [⟨vdpClientPort, [], .inl rfl, by decide⟩, ⟨vdpClientPort, [7], .inl rfl, by decide⟩] :=
  fun h => data_ne_nil_of_readsStream h _ List.mem_cons_self rfl

end Port

end Colama.Spice.VdiPort

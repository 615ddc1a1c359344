import Mathlib.Tactic
import Colama.Spice.VdiPort.MigrateSpec

namespace Colama.Spice.VdiPort.Migrate

open Lib

def VDIPortBuf.info (buf : VDIPortBuf) : List UInt8 := le32 buf.port ++ le32 (.ofNat buf.now.length)

@[simp] theorem VDIPortBuf.length_info (buf : VDIPortBuf) : buf.info.length = sizeofWriteQueueInfo := by
  simp [info, sizeofWriteQueueInfo]

theorem length_infos (queue : List VDIPortBuf) :
    (queue.flatMap VDIPortBuf.info).length = queue.length * sizeofWriteQueueInfo := by
  induction queue with
  | nil => rfl
  | cons buf queue ih =>
    rw [List.flatMap_cons, List.length_append, VDIPortBuf.length_info, ih, List.length_cons, Nat.succ_mul, Nat.add_comm]

namespace Reader

def readBufLen (r : Reader) : UInt32 := match r.currentReadBuf with | none => 0 | some buf => buf.len

/-- The part of the current buffer that has been read. -/
def readBuf (r : Reader) : List UInt8 :=
  match r.currentReadBuf with | none => [] | some buf => buf.data.take (r.readBufLen - r.reciveLen).toNat

def stateWord (r : Reader) : UInt32 := match r.readState with | .readHader => 0 | .getBuff => 1 | .readData => 2

end Reader

/-- What the message has where. -/
structure Saved (m : Mem) (s : Reds) : Prop where
  version : m.word 0 = mainChannelMigDataVersion
  connected : m.word 12 = if s.connected then 1 else 0
  numClientTokens : m.word 20 = s.numClientTokens
  readState : m.word 28 = s.reader.stateWord
  vdiChunkHeader : m.slice 32 sizeofChunkHeader = s.reader.vdiChunkHeader
  reciveLen : m.word 40 = s.reader.reciveLen
  messageReciveLen : m.word 44 = s.reader.messageReciveLen
  readBufLen : m.word 48 = s.reader.readBufLen
  writeQueueSize : m.word 52 = .ofNat s.writeQueue.length
  readBuf : m.At sizeofMainMigrateData s.reader.readBuf
  infos : m.At (sizeofMainMigrateData + s.reader.readBuf.length) (s.writeQueue.flatMap VDIPortBuf.info)
  bufs : m.At (sizeofMainMigrateData + s.reader.readBuf.length + s.writeQueue.length * sizeofWriteQueueInfo)
    (s.writeQueue.flatMap (·.now))
  size : m.size = sizeofMainMigrateData + s.reader.readBuf.length + s.writeQueue.length * sizeofWriteQueueInfo +
    (s.writeQueue.flatMap (·.now)).length

theorem Mem.Holds.saved {m : Mem} {s : Reds} (h : m.Holds s.mainChannelPushMigrateDataItem)
    (hh : s.reader.vdiChunkHeader.length = sizeofChunkHeader) : Saved m s := by
  have hpush : s.mainChannelPushMigrateDataItem =
      le32 mainChannelMigDataVersion ++ (le32 s.serial.toUInt32 ++ (le32 s.pingId ++ (le32 (if s.connected then 1 else 0) ++
      (le32 s.clientAgentStarted ++ (le32 s.numClientTokens ++ (le32 (-1) ++ (le32 s.reader.stateWord ++
      (s.reader.vdiChunkHeader ++ (le32 s.reader.reciveLen ++ (le32 s.reader.messageReciveLen ++
      (le32 s.reader.readBufLen ++ (le32 (.ofNat s.writeQueue.length) ++ (s.reader.readBuf ++
      (s.writeQueue.flatMap VDIPortBuf.info ++ s.writeQueue.flatMap (·.now))))))))))))))) := rfl
  have hat := h.at
  have hsize := h.1
  rw [hpush] at hat hsize
  simp only [Mem.at_append, length_le32, hh] at hat
  simp only [List.length_append, length_le32, hh, length_infos] at hsize
  obtain ⟨h0, -, -, h12, -, h20, -, h28, h32, h40, h44, h48, h52, h56, hi, hb⟩ := hat
  rw [length_infos] at hb
  refine ⟨h0.word, h12.word, h20.word, h28.word, h32.slice hh, h40.word, h44.word, h48.word, h52.word, h56, hi, hb, ?_⟩
  rw [hsize]
  simp only [sizeofMainMigrateData, sizeofChunkHeader, sizeofWriteQueueInfo]
  omega

namespace Reader

/-- No byte is asked for. -/
def Stuck (r : Reader) : Prop := r.readState = .readData ∧ r.readBufLen = 0

/-- The same place in the stream. -/
structure Takes (r r' : Reader) : Prop where
  eq : r = { r' with recivePos := r.recivePos }
  pos : r'.readState ≠ .getBuff → r.recivePos = r'.recivePos

theorem Takes.parse {r r' : Reader} (h : r.Takes r') (stream : List UInt8) : r.parse stream = r'.parse stream := by
  rw [h.eq]
  by_cases hs : r'.readState = .getBuff
  · exact parse_buff hs _ stream
  · rw [h.pos hs]

theorem Takes.ok {r r' : Reader} (h : r.Takes r') (hr : r'.Ok) : r.Ok := by
  have hpos := h.pos
  rw [h.eq]
  obtain hr | hr | ⟨buf, hr⟩ := hr
  · have hpos := hpos (by rw [hr.readState]; decide)
    exact .inl ⟨hr.readState, hr.currentReadBuf, hpos.trans hr.pos, hr.le, hr.header⟩
  · exact .inr (.inl ⟨hr.readState, hr.currentReadBuf, hr.le, hr.header⟩)
  · have hpos := hpos (by rw [hr.readState]; decide)
    exact .inr (.inr ⟨buf, hr.readState, hr.currentReadBuf, hpos.trans hr.pos, hr.len, hr.max, hr.le, hr.header⟩)

theorem Takes.stuck {r r' : Reader} (h : r.Takes r') : r.Stuck ↔ r'.Stuck := by
  rw [h.eq]
  rfl

theorem InData.readBuf_eq {r : Reader} {buf : ReadBuf} (h : r.InData buf) :
    r.readBufLen = buf.len ∧ (buf.len - r.reciveLen).toNat = buf.data.length ∧ r.readBuf = buf.data := by
  have hlen := h.len
  have hle : r.reciveLen ≤ buf.len := by
    rw [UInt32.le_iff_toNat_le]
    omega
  have hl : r.readBufLen = buf.len := by rw [readBufLen, h.currentReadBuf]
  have hsub : (buf.len - r.reciveLen).toNat = buf.data.length := by
    rw [UInt32.toNat_sub_of_le _ _ hle]
    omega
  refine ⟨hl, hsub, ?_⟩
  rw [readBuf, h.currentReadBuf]
  dsimp only
  rw [hl, hsub, List.take_length]

end Reader

theorem toInt_of_lt {a : UInt32} (h : a.toNat < 2 ^ 31) : a.toInt32.toInt = a.toNat :=
  BitVec.toInt_eq_toNat_of_lt (show 2 * a.toNat < 2 ^ 32 by omega)

theorem sub_sub_eq (a b c : UInt32) : a - b - c = a - (b + c) := by
  rw [UInt32.sub_eq_add_neg, UInt32.sub_eq_add_neg, UInt32.sub_eq_add_neg a, UInt32.neg_add, UInt32.sub_eq_add_neg,
    UInt32.add_assoc]

namespace Reds

variable {m : Mem} {s t : Reds}

/-- What restoring the reading side comes to where it succeeds. -/
def RestoresReader (m : Mem) (s t : Reds) : Prop :=
  ∃ r k read, mainChannelRestoreVdiReadState m t =
    ({ t with reader := r, readBufs := k }, some (sizeofMainMigrateData + s.reader.readBuf.length), read) ∧ r.Takes s.reader

theorem restoreVdiReadState_header (h : Saved m s) (hr : s.reader.AtHeader) (hcur : t.reader.currentReadBuf = none) :
    RestoresReader m s t := by
  have hword : m.word 28 = 0 := by rw [h.readState, Reader.stateWord, hr.readState]
  have h48 : m.word 48 = 0 := by rw [h.readBufLen, Reader.readBufLen, hr.currentReadBuf]
  have hbuf : s.reader.readBuf = [] := by rw [Reader.readBuf, hr.currentReadBuf]
  rw [RestoresReader, mainChannelRestoreVdiReadState, if_pos hword, if_neg (not_not.mpr h48), hbuf]
  refine ⟨_, t.readBufs, _, rfl, ⟨?_, fun _ => ?_⟩⟩
  · exact Reader.ext hr.readState.symm h.vdiChunkHeader rfl h.reciveLen h.messageReciveLen (hcur.trans hr.currentReadBuf.symm)
  · dsimp only
    rw [h.reciveLen, hr.pos]

theorem size_eq (h : Saved m s) : ({ t.reader with vdiChunkHeader := m.slice 32 sizeofChunkHeader } : Reader).size =
    s.reader.size := by
  rw [Reader.size, Reader.size, h.vdiChunkHeader]

theorem restoreVdiReadState_buff (h : Saved m s) (hr : s.reader.AtBuff) (hcur : t.reader.currentReadBuf = none) :
    RestoresReader m s t := by
  have hword : m.word 28 = 1 := by rw [h.readState, Reader.stateWord, hr.readState]
  have h48 : m.word 48 = 0 := by rw [h.readBufLen, Reader.readBufLen, hr.currentReadBuf]
  have hbuf : s.reader.readBuf = [] := by rw [Reader.readBuf, hr.currentReadBuf]
  have hle : ¬ s.reader.size < m.word 44 := by
    rw [h.messageReciveLen]
    exact UInt32.not_lt.mpr hr.le
  have hsize := size_eq (t := t) h
  rw [Reader.size] at hsize
  rw [RestoresReader, mainChannelRestoreVdiReadState, if_neg (by rw [hword]; decide), if_pos hword]
  dsimp only
  rw [Reader.size, hsize, if_neg hle, if_neg (not_not.mpr h48), hbuf]
  refine ⟨_, t.readBufs, _, rfl, ⟨?_, fun hn => absurd hr.readState hn⟩⟩
  exact Reader.ext hr.readState.symm h.vdiChunkHeader rfl h.reciveLen h.messageReciveLen (hcur.trans hr.currentReadBuf.symm)

theorem redsDisconnect_peer (s : Reds) : s.redsDisconnect.peer = false := by
  rw [redsDisconnect]
  split
  · next h => simpa using h
  · rfl

theorem restoreVdiReadState_data {buf : ReadBuf} (h : Saved m s) (hr : s.reader.InData buf) (ht : t.readBufs ≠ 0)
    (h0 : buf.len ≠ 0) : RestoresReader m s t := by
  obtain ⟨hl, hsub, hbuf⟩ := hr.readBuf_eq
  have hword : m.word 28 = 2 := by rw [h.readState, Reader.stateWord, hr.readState]
  have h48 : m.word 48 = buf.len := h.readBufLen.trans hl
  have hle : ¬ s.reader.size < m.word 44 := by
    rw [h.messageReciveLen]
    exact UInt32.not_lt.mpr hr.le
  have hsize := size_eq (t := t) h
  have hmax := hr.max
  have hlen := hr.len
  have hint : buf.len.toInt32.toInt = buf.len.toNat := toInt_of_lt (by rw [spiceAgentMaxDataSize] at hmax; omega)
  rw [Reader.size] at hsize
  rw [RestoresReader, mainChannelRestoreVdiReadState, if_neg (by rw [hword]; decide), if_neg (by rw [hword]; decide),
    if_pos hword]
  dsimp only
  rw [Reader.size, hsize, h48, h.reciveLen, hsub, hint, if_neg h0, if_neg hle, if_neg ht, if_neg (by omega), hbuf]
  refine ⟨_, t.readBufs - 1, _, rfl, ⟨?_, fun _ => hr.pos.symm⟩⟩
  have hdata : m.slice sizeofMainMigrateData buf.data.length = buf.data := hbuf ▸ h.readBuf
  exact Reader.ext hr.readState.symm h.vdiChunkHeader rfl rfl h.messageReciveLen (by rw [hdata, hr.currentReadBuf])

theorem restoreVdiReadState_stuck (h : Saved m s) (hs : s.reader.Stuck) :
    (mainChannelRestoreVdiReadState m t).1.peer = false ∧ (mainChannelRestoreVdiReadState m t).2.1 = none := by
  have hword : m.word 28 = 2 := by rw [h.readState, Reader.stateWord, hs.1]
  have h48 : m.word 48 = 0 := h.readBufLen.trans hs.2
  rw [mainChannelRestoreVdiReadState, if_neg (by rw [hword]; decide), if_neg (by rw [hword]; decide), if_pos hword, if_pos h48]
  exact ⟨redsDisconnect_peer _, rfl⟩

/-- The reading side is restored, unless the source was stuck. -/
theorem restoreVdiReadState_saved (h : Saved m s) (hr : s.reader.Ok) (hs : ¬ s.reader.Stuck) (ht : t.readBufs ≠ 0)
    (hcur : t.reader.currentReadBuf = none) : RestoresReader m s t := by
  obtain hr | hr | ⟨buf, hr⟩ := hr
  · exact restoreVdiReadState_header h hr hcur
  · exact restoreVdiReadState_buff h hr hcur
  · exact restoreVdiReadState_data h hr ht fun h0 => hs ⟨hr.readState, hr.readBuf_eq.1.trans h0⟩

/-- Each info of a client buffer takes a token; each other one that is accepted is of a server buffer. -/
theorem restoreWqueueLoop_tokens (m : Mem) (junk : Nat → Nat → UInt8) (n inf pos : Nat) (s : Reds) :
    (restoreWqueueLoop m junk n inf pos s).1.peer = false ∨
      (restoreWqueueLoop m junk n inf pos s).1.numClientTokens = s.numClientTokens ∧
      ∃ k ≤ n, (restoreWqueueLoop m junk n inf pos s).1.numTokens = s.numTokens - .ofNat k ∧
        (k = 0 → ∀ i < n, m.word (inf + i * sizeofWriteQueueInfo) = vdpServerPort) := by
  induction n generalizing inf pos s with
  | zero => exact .inr ⟨rfl, 0, Nat.le_refl 0, (UInt32.sub_zero _).symm, fun _ _ hi => by omega⟩
  | succ n ih =>
    rw [restoreWqueueLoop]
    dsimp only
    split
    · exact .inl (redsDisconnect_peer _)
    split
    · next hport =>
      split
      · exact .inl (redsDisconnect_peer _)
      · refine (ih (inf + sizeofWriteQueueInfo) (pos + (m.word (inf + 4)).toNat) { s with
          writeQueue := s.writeQueue ++ [⟨.tmp, copiedPort (m.slice pos (m.word (inf + 4)).toNat) (junk n),
            m.slice pos (m.word (inf + 4)).toNat⟩] }).imp id ?_
        rintro ⟨hc, k, hk, ht, hports⟩
        refine ⟨hc, k, Nat.le_succ_of_le hk, ht, fun hk0 i hi => ?_⟩
        cases i with
        | zero => rwa [Nat.zero_mul, Nat.add_zero]
        | succ i => rw [Nat.succ_mul, Nat.add_comm _ sizeofWriteQueueInfo, ← Nat.add_assoc, hports hk0 i (by omega)]
    split
    · split
      · exact .inl (redsDisconnect_peer _)
      split
      · exact .inl (redsDisconnect_peer _)
      · refine (ih (inf + sizeofWriteQueueInfo) (pos + (m.word (inf + 4)).toNat) { s with
          numTokens := s.numTokens - 1
          externalBufs := s.externalBufs - 1
          writeQueue := s.writeQueue ++ [⟨.external, vdpClientPort, m.slice pos (m.word (inf + 4)).toNat⟩] }).imp id ?_
        rintro ⟨hc, k, hk, ht, -⟩
        refine ⟨hc, k + 1, Nat.succ_le_succ hk, ?_, fun hk0 => nomatch hk0⟩
        rw [ht]
        show s.numTokens - 1 - .ofNat k = s.numTokens - .ofNat (k + 1)
        rw [UInt32.ofNat_add, sub_sub_eq, UInt32.add_comm]
        rfl
    · exact .inl (redsDisconnect_peer _)

/-- The buffers that are made of buffers of the server. -/
@[grind] def restoredQueue (junk : Nat → Nat → UInt8) : List VDIPortBuf → List VDIPortBuf
  | [] => []
  | buf :: queue => ⟨.tmp, copiedPort buf.now (junk queue.length), buf.now⟩ :: restoredQueue junk queue

theorem restoreWqueueLoop_server {junk : Nat → Nat → UInt8} {inf pos : Nat} {queue : List VDIPortBuf}
    (hi : m.At inf (queue.flatMap VDIPortBuf.info)) (hb : m.At pos (queue.flatMap (·.now)))
    (hsize : pos + (queue.flatMap (·.now)).length ≤ m.size)
    (hq : ∀ buf ∈ queue, buf.port = vdpServerPort ∧ buf.now.length ≤ internalHeaderSpace) :
    (restoreWqueueLoop m junk queue.length inf pos s).1 = { s with writeQueue := s.writeQueue ++ restoredQueue junk queue } := by
  induction queue generalizing inf pos s with
  | nil =>
    rw [restoredQueue, List.append_nil]
    rfl
  | cons buf queue ih =>
    obtain ⟨⟨hport, hlen⟩, hq⟩ := List.forall_mem_cons.mp hq
    rw [List.flatMap_cons, Mem.at_append, VDIPortBuf.info, Mem.at_append] at hi
    rw [List.flatMap_cons, Mem.at_append] at hb
    rw [List.flatMap_cons, List.length_append] at hsize
    obtain ⟨⟨hinfo, hinfo'⟩, hi⟩ := hi
    obtain ⟨hnow, hb⟩ := hb
    rw [length_le32] at hinfo'
    have hi : m.At (inf + sizeofWriteQueueInfo) (queue.flatMap VDIPortBuf.info) := by
      rwa [List.length_append, length_le32, length_le32] at hi
    have hword : (m.word (inf + 4)).toNat = buf.now.length := by
      rw [hinfo'.word, UInt32.toNat_ofNat_of_lt' (lt_of_le_of_lt hlen (by decide))]
    have hslice : m.slice pos buf.now.length = buf.now := hnow
    rw [List.length_cons, restoreWqueueLoop]
    dsimp only
    rw [hword, hslice, hinfo.word, if_neg (by omega), if_pos hport, if_neg (by omega), ih hi hb (by omega) hq, restoredQueue,
      List.append_assoc]
    rfl

@[simp] theorem restoredQueue_now (junk : Nat → Nat → UInt8) (queue : List VDIPortBuf) :
    (restoredQueue junk queue).flatMap (·.now) = queue.flatMap (·.now) := by
  induction queue with
  | nil => rfl
  | cons buf queue ih => rw [restoredQueue, List.flatMap_cons, List.flatMap_cons, ih]

@[simp] theorem length_restoredQueue (junk : Nat → Nat → UInt8) (queue : List VDIPortBuf) :
    (restoredQueue junk queue).length = queue.length := by
  induction queue with
  | nil => rfl
  | cons buf queue ih => rw [restoredQueue, List.length_cons, ih, List.length_cons]

theorem mem_restoredQueue {junk : Nat → Nat → UInt8} {queue : List VDIPortBuf} {buf : VDIPortBuf}
    (h : buf ∈ restoredQueue junk queue) : ∃ b ∈ queue, ∃ i, buf = ⟨.tmp, copiedPort b.now (junk i), b.now⟩ := by
  induction queue with
  | nil => cases h
  | cons b queue ih =>
    rw [restoredQueue, List.mem_cons] at h
    obtain rfl | h := h
    · exact ⟨b, List.mem_cons_self, queue.length, rfl⟩
    · obtain ⟨b', hb, hi⟩ := ih h
      exact ⟨b', List.mem_cons_of_mem b hb, hi⟩

/-- What the saving and the restoring side rely on in the source. -/
structure Packed (s : Reds) : Prop where
  reader : s.reader.Ok
  tokens : s.tokens = redsAgentWindowSize.toNat
  length : s.numClientTokens.toNat + s.writeQueue.length ≤ (redsAgentWindowSize + redsNumInternalAgentMessages).toNat
  server : ∀ buf ∈ s.writeQueue, buf.port = vdpServerPort → buf.isExternal = false ∧ buf.now.length ≤ internalHeaderSpace
  unconnected : s.connected = false → s.writeQueue = [] ∧ s.reader.Fresh

theorem Admitted.packed (h : s.Admitted) : s.Packed where
  reader := h.reader
  tokens := h.tokens
  length := by
    have hsum := h.sum
    have hint := h.internal
    have hlen := s.writeQueue.length_eq_countP_add_countP VDIPortBuf.isExternal
    have hw : (redsAgentWindowSize + redsNumInternalAgentMessages).toNat =
      redsAgentWindowSize.toNat + redsNumInternalAgentMessages.toNat := rfl
    simp only [Bool.not_eq_true, ← Bool.not_eq_true', Bool.decide_eq_true] at hlen
    omega
  server := fun buf hb hp => by
    have hok := h.bufs buf hb
    have hk : buf.kind ≠ .external := fun hk => absurd ((hok.external hk).1.symm.trans hp) (by decide)
    exact ⟨by simpa [VDIPortBuf.isExternal] using hk, hok.internal hk⟩
  unconnected := h.unconnected

/-- What the new server makes of a message. -/
def restored (m : Mem) (junk : Nat → Nat → UInt8) : Reds := (target.mainChannelReciveMigrateData m junk).1

/-- The new server before anything is restored. -/
def began (m : Mem) : Reds :=
  { target with
    serial := (m.word 4).toUInt64
    pingId := m.word 8
    numClientTokens := m.word 20
    numTokens := redsAgentWindowSize - m.word 20
    aborted := false }

theorem Packed.writeQueueSize (hp : s.Packed) : (UInt32.ofNat s.writeQueue.length).toNat = s.writeQueue.length := by
  have hlen := hp.length
  exact UInt32.toNat_ofNat_of_lt' (lt_of_le_of_lt (le_trans (Nat.le_add_left _ _) hlen) (by decide))

theorem restored_eq (h : Saved m s) (hp : s.Packed) (junk : Nat → Nat → UInt8) : restored m junk =
    if s.connected then
      match mainChannelRestoreVdiReadState m { began m with clientAgentStarted := m.word 16 } with
      | (s', none, _) => s'
      | (s', some pos, _) =>
        let s' := (mainChannelRestoreVdiWqueue m junk pos s').1
        s'.assert (s'.numClientTokens + s'.numTokens = redsAgentWindowSize)
    else began m := by
  have hassert : s.numClientTokens + .ofNat s.writeQueue.length ≤ redsAgentWindowSize + redsNumInternalAgentMessages := by
    rw [UInt32.le_iff_toNat_le, UInt32.toNat_add, hp.writeQueueSize, Nat.mod_eq_of_lt]
    · exact hp.length
    · exact lt_of_le_of_lt hp.length (by decide)
  rw [restored, mainChannelReciveMigrateData, if_neg (not_not.mpr h.version), h.writeQueueSize, h.numClientTokens, h.connected]
  have haborted : target.aborted = false := rfl
  have hconnected : target.connected = true := rfl
  have hplug : ¬ 1 < target.plugGeneration := by decide
  have h10 : (1 : UInt32) ≠ 0 := by decide
  simp only [assert, decide_eq_true hassert, haborted, hconnected, hplug, Bool.not_true, Bool.or_false, Bool.false_eq_true,
    not_true_eq_false, if_false, began, h.numClientTokens]
  by_cases hc : s.connected
  · simp only [hc, if_true, h10, if_false]
    generalize mainChannelRestoreVdiReadState m _ = r
    obtain ⟨s', pos | pos, reads⟩ := r
    · rfl
    · rfl
  · simp only [hc]
    rfl

/-- The new server goes on where the old one was. -/
structure TakesOver (s t : Reds) : Prop where
  peer : t.peer
  aborted : t.aborted = false
  queue : t.writeQueue.flatMap (·.now) = s.writeQueue.flatMap (·.now)
  parse : ∀ stream, t.reader.parse stream = s.reader.parse stream
  tokens : t.tokens = redsAgentWindowSize.toNat

def Migrates (s : Reds) : Prop :=
  ∀ m junk, m.Holds s.mainChannelPushMigrateDataItem → s.TakesOver (restored m junk)

/-- Nothing of the client is queued. -/
def OnlyServer (s : Reds) : Prop := ∀ buf ∈ s.writeQueue, buf.port = vdpServerPort

theorem restoreVdiWqueue_server {junk : Nat → Nat → UInt8} (h : Saved m s) (hp : s.Packed) (hq : s.OnlyServer) (t : Reds) :
    (mainChannelRestoreVdiWqueue m junk (sizeofMainMigrateData + s.reader.readBuf.length) t).1 =
      { t with writeQueue := t.writeQueue ++ restoredQueue junk s.writeQueue } := by
  have hn : (m.word 52).toNat = s.writeQueue.length := by rw [h.writeQueueSize, hp.writeQueueSize]
  have hsize := h.size
  rw [mainChannelRestoreVdiWqueue, hn]
  dsimp only
  split
  · next h0 =>
    rw [List.eq_nil_of_length_eq_zero h0, restoredQueue, List.append_nil]
  · rw [if_neg (by omega)]
    exact restoreWqueueLoop_server h.infos h.bufs hsize.ge fun buf hb => ⟨hq buf hb, (hp.server buf hb (hq buf hb)).2⟩

theorem assert_true (s : Reds) {p : Bool} (h : p = true) : s.assert p = s := by
  rw [assert, h, Bool.not_true, Bool.or_false]

theorem restored_connected (junk : Nat → Nat → UInt8) (h : Saved m s) (hp : s.Packed) (hc : s.connected)
    (hs : ¬ s.reader.Stuck) (hq : s.OnlyServer) :
    ∃ r k, restored m junk = { began m with
        clientAgentStarted := m.word 16
        reader := r
        readBufs := k
        writeQueue := restoredQueue junk s.writeQueue } ∧ r.Takes s.reader := by
  obtain ⟨r, k, read, hr, htakes⟩ := restoreVdiReadState_saved (t := { began m with clientAgentStarted := m.word 16 })
    h hp.reader hs (by simp [began, target, linked, redsVdiPortNumReciveBuffs]) rfl
  refine ⟨r, k, ?_, htakes⟩
  have hsum : m.word 20 + (redsAgentWindowSize - m.word 20) = redsAgentWindowSize := by
    rw [UInt32.add_comm, UInt32.sub_add_cancel]
  rw [restored_eq h hp, if_pos hc, hr]
  dsimp only
  rw [restoreVdiWqueue_server h hp hq]
  exact (assert_true _ (decide_eq_true hsum)).trans rfl

theorem Packed.sum_tokens (hp : s.Packed) {c : UInt32} (h : c = s.numClientTokens) :
    c.toNat + (redsAgentWindowSize - c).toNat = redsAgentWindowSize.toNat := by
  have htok : s.numClientTokens.toNat + s.numTokens.toNat + s.writeQueue.countP VDIPortBuf.isExternal = _ := hp.tokens
  have hle : c ≤ redsAgentWindowSize := by
    rw [UInt32.le_iff_toNat_le, h]
    omega
  rw [UInt32.toNat_sub_of_le _ _ hle]
  exact Nat.add_sub_cancel' hle

theorem countP_restoredQueue (junk : Nat → Nat → UInt8) (queue : List VDIPortBuf) :
    (restoredQueue junk queue).countP VDIPortBuf.isExternal = 0 := by
  rw [List.countP_eq_zero]
  intro buf hb
  obtain ⟨b, -, i, rfl⟩ := mem_restoredQueue hb
  simp [VDIPortBuf.isExternal]

/-- What is restored can be saved again. -/
theorem restored_packed (junk : Nat → Nat → UInt8) (h : Saved m s) (hp : s.Packed)
    (hs : s.connected → ¬ s.reader.Stuck ∧ s.OnlyServer) : (restored m junk).Packed ∧ s.TakesOver (restored m junk) := by
  have htok := hp.sum_tokens h.numClientTokens
  by_cases hc : s.connected
  · obtain ⟨hst, hq⟩ := hs hc
    obtain ⟨r, k, hr, htakes⟩ := restored_connected junk h hp hc hst hq
    have htokens : (restored m junk).tokens = redsAgentWindowSize.toNat := by
      rw [hr, tokens, countP_restoredQueue]
      exact htok
    refine ⟨⟨?_, htokens, ?_, ?_, ?_⟩, ⟨?_, ?_, ?_, ?_, htokens⟩⟩
    · rw [hr]
      exact htakes.ok hp.reader
    · rw [hr, length_restoredQueue]
      show (m.word 20).toNat + _ ≤ _
      rw [h.numClientTokens]
      exact hp.length
    · rw [hr]
      intro buf hb _
      obtain ⟨b, hmem, i, rfl⟩ := mem_restoredQueue hb
      exact ⟨rfl, (hp.server b hmem (hq b hmem)).2⟩
    · rw [hr]
      exact fun hn => nomatch hn
    · rw [hr]
      rfl
    · rw [hr]
      rfl
    · rw [hr]
      exact restoredQueue_now junk s.writeQueue
    · rw [hr]
      exact htakes.parse
  · obtain ⟨hq, hfresh⟩ := hp.unconnected (by simpa using hc)
    have hr := restored_eq h hp junk
    rw [if_neg hc] at hr
    rw [hr]
    refine ⟨⟨.inl Reader.atHeader_init, htok, ?_, nofun, fun hn => nomatch hn⟩, ⟨rfl, rfl, ?_, fun stream => (hfresh.parse stream).symm, htok⟩⟩
    · show (m.word 20).toNat + 0 ≤ _
      exact le_trans (Nat.le_add_right _ _) (le_trans htok.le (by decide))
    · rw [hq]
      rfl

theorem word_info {inf : Nat} {queue : List VDIPortBuf} (h : m.At inf (queue.flatMap VDIPortBuf.info)) (i : Nat)
    (hi : i < queue.length) : m.word (inf + i * sizeofWriteQueueInfo) = queue[i].port := by
  induction queue generalizing inf i with
  | nil => cases hi
  | cons buf queue ih =>
    rw [List.flatMap_cons, Mem.at_append, VDIPortBuf.length_info] at h
    cases i with
    | zero =>
      have hport := (Mem.at_append.mp h.1).1
      rw [Nat.zero_mul, Nat.add_zero, hport.word]
      rfl
    | succ i =>
      rw [Nat.succ_mul, Nat.add_comm _ sizeofWriteQueueInfo, ← Nat.add_assoc, ih h.2 i (by simpa using hi)]
      rfl

theorem restoreVdiWqueue_tokens (h : Saved m s) (hp : s.Packed) (junk : Nat → Nat → UInt8) (t : Reds)
    {t' : Reds} (ht : (mainChannelRestoreVdiWqueue m junk (sizeofMainMigrateData + s.reader.readBuf.length) t).1 = t') :
    t'.peer = false ∨ t'.numClientTokens = t.numClientTokens ∧
      ∃ k ≤ s.writeQueue.length, t'.numTokens = t.numTokens - .ofNat k ∧ (k = 0 → s.OnlyServer) := by
  have hn : (m.word 52).toNat = s.writeQueue.length := by rw [h.writeQueueSize, hp.writeQueueSize]
  rw [mainChannelRestoreVdiWqueue, hn] at ht
  dsimp only at ht
  split at ht
  · next h0 =>
    subst ht
    refine .inr ⟨rfl, 0, Nat.zero_le _, (UInt32.sub_zero _).symm, fun _ buf hb => ?_⟩
    rw [List.eq_nil_of_length_eq_zero h0] at hb
    cases hb
  split at ht
  · exact .inl (ht ▸ redsDisconnect_peer t)
  · subst ht
    refine (restoreWqueueLoop_tokens ..).imp id ?_
    rintro ⟨hc, k, hk, htok, hports⟩
    refine ⟨hc, k, hk, htok, fun hk0 buf hb => ?_⟩
    obtain ⟨i, hi, rfl⟩ := List.getElem_of_mem hb
    rw [← word_info h.infos i hi, hports hk0 i hi]

theorem eq_zero_of_sum {c : UInt32} {k : Nat} (h : c + (redsAgentWindowSize - c - .ofNat k) = redsAgentWindowSize)
    (hk : k < UInt32.size) : k = 0 := by
  have h0 : redsAgentWindowSize - .ofNat k = redsAgentWindowSize := by
    rwa [sub_sub_eq, UInt32.add_comm c (.ofNat k), ← sub_sub_eq, UInt32.add_comm c, UInt32.sub_add_cancel] at h
  have hadd : redsAgentWindowSize + .ofNat k = redsAgentWindowSize := by
    have hcancel := UInt32.sub_add_cancel redsAgentWindowSize (.ofNat k)
    rwa [h0] at hcancel
  have hz : UInt32.ofNat k = 0 := by simpa using hadd
  rw [← UInt32.toNat_ofNat_of_lt' hk, hz]
  rfl

theorem restored_peer {junk : Nat → Nat → UInt8} (h : Saved m s) (hp : s.Packed) (hc : s.connected)
    (ht : (restored m junk).peer) (ha : (restored m junk).aborted = false) : ¬ s.reader.Stuck ∧ s.OnlyServer := by
  have hr := restored_eq h hp junk
  rw [if_pos hc] at hr
  by_cases hst : s.reader.Stuck
  · obtain ⟨hpeer, hpos⟩ := restoreVdiReadState_stuck (t := { began m with clientAgentStarted := m.word 16 }) h hst
    split at hr
    · next heq =>
      rw [heq] at hpeer
      rw [hr, hpeer] at ht
      cases ht
    · next heq =>
      rw [heq] at hpos
      cases hpos
  · refine ⟨hst, ?_⟩
    obtain ⟨r, k, read, hread, -⟩ := restoreVdiReadState_saved (t := { began m with clientAgentStarted := m.word 16 })
      h hp.reader hst (by simp [began, target, linked, redsVdiPortNumReciveBuffs]) rfl
    rw [hread] at hr
    dsimp only at hr
    generalize hw : (mainChannelRestoreVdiWqueue m junk (sizeofMainMigrateData + s.reader.readBuf.length) _).1 = t' at hr
    rw [hr] at ht ha
    obtain hpeer | ⟨hclient, k', hk', htok, hports⟩ := restoreVdiWqueue_tokens h hp junk _ hw
    · have ht : t'.peer = true := ht
      rw [hpeer] at ht
      cases ht
    · have hsum : t'.numClientTokens + t'.numTokens = redsAgentWindowSize := by
        have ha : (t'.aborted || !decide (t'.numClientTokens + t'.numTokens = redsAgentWindowSize)) = false := ha
        simpa using (Bool.or_eq_false_iff.mp ha).2
      rw [hclient, htok] at hsum
      have hlen := hp.length
      exact hports (eq_zero_of_sum hsum (lt_of_le_of_lt (le_trans hk' (le_trans (Nat.le_add_left _ _) hlen)) (by decide)))

theorem migrates_iff (hp : s.Packed) : s.Migrates ↔ (s.connected → ¬ s.reader.Stuck ∧ s.OnlyServer) := by
  constructor
  · intro h hc
    have hm := Mem.holds_ofList s.mainChannelPushMigrateDataItem
    have ht := h _ (fun _ _ => 0) hm
    exact restored_peer (hm.saved hp.reader.header) hp hc ht.peer ht.aborted
  · intro h m junk hm
    exact (restored_packed junk (hm.saved hp.reader.header) hp h).2

/-- Migration, and again at once. -/
def MigratesTwice (s : Reds) : Prop :=
  s.Migrates ∧ ∀ m junk, m.Holds s.mainChannelPushMigrateDataItem → (restored m junk).Migrates

theorem copiedPort_of_le {bytes : List UInt8} (h : 4 ≤ bytes.length) (junk : Nat → UInt8) :
    copiedPort bytes junk = .ofNat (ofLittleEndian (bytes.take 4)) := by
  match bytes, h with
  | a :: b :: c :: d :: l, _ => rfl

/-- Where the port is not copied wholly it can become any other. -/
theorem copiedPort_junk {bytes : List UInt8} (h : bytes.length < 4) : copiedPort bytes (fun _ => 255) ≠ vdpServerPort := by
  have hne (a b c : UInt8) : UInt32.ofNat (ofLittleEndian [a, b, c, 255]) ≠ vdpServerPort := by
    intro heq
    have ha := a.toNat_lt
    have hb := b.toNat_lt
    have hc := c.toNat_lt
    have h255 : (255 : UInt8).toNat = 255 := rfl
    have hnat := congrArg UInt32.toNat heq
    simp only [ofLittleEndian, h255] at hnat
    rw [UInt32.toNat_ofNat_of_lt' (by rw [UInt32.size]; omega), vdpServerPort] at hnat
    have h2 : (2 : UInt32).toNat = 2 := rfl
    omega
  have hport : copiedPort bytes (fun _ => 255) =
      .ofNat (ofLittleEndian [bytes.getD 0 255, bytes.getD 1 255, bytes.getD 2 255, bytes.getD 3 255]) := rfl
  have hlast : bytes.getD 3 255 = 255 := by
    rw [List.getD_eq_getElem?_getD, List.getElem?_eq_none (by omega)]
    rfl
  rw [hport, hlast]
  exact hne _ _ _

end Reds

/-- The bytes left of a buffer begin with the port of the server. -/
def VDIPortBuf.BeginsWithPort (buf : VDIPortBuf) : Prop :=
  4 ≤ buf.now.length ∧ UInt32.ofNat (ofLittleEndian (buf.now.take 4)) = vdpServerPort

namespace Reds

variable {m : Mem} {s t : Reds}

theorem exists_mem_restoredQueue (junk : Nat → Nat → UInt8) {queue : List VDIPortBuf} {buf : VDIPortBuf} (h : buf ∈ queue) :
    ∃ i, ⟨.tmp, copiedPort buf.now (junk i), buf.now⟩ ∈ restoredQueue junk queue := by
  induction queue with
  | nil => cases h
  | cons b queue ih =>
    obtain rfl | h := List.mem_cons.mp h
    · exact ⟨queue.length, List.mem_cons_self⟩
    · obtain ⟨i, hi⟩ := ih h
      exact ⟨i, List.mem_cons_of_mem _ hi⟩

/-- Exactly when the buffers of the client are gone, and what is left of those of the server begins with its port. -/
theorem migratesTwice_iff (hp : s.Packed) : s.MigratesTwice ↔
    (s.connected → ¬ s.reader.Stuck ∧ ∀ buf ∈ s.writeQueue, buf.port = vdpServerPort ∧ buf.BeginsWithPort) := by
  rw [MigratesTwice, migrates_iff hp]
  constructor
  · rintro ⟨h, hagain⟩ hc
    obtain ⟨hst, hq⟩ := h hc
    refine ⟨hst, fun buf hb => ⟨hq buf hb, ?_⟩⟩
    have hm := Mem.holds_ofList s.mainChannelPushMigrateDataItem
    have hsaved := hm.saved hp.reader.header
    have hpacked := (restored_packed (fun _ _ => 255) hsaved hp h).1
    obtain ⟨r, k, hr, -⟩ := restored_connected (fun _ _ => 255) hsaved hp hc hst hq
    have hserver := ((migrates_iff hpacked).mp (hagain _ _ hm) (by rw [hr]; rfl)).2
    obtain ⟨i, hi⟩ := exists_mem_restoredQueue (fun _ _ => 255) hb
    have hport : copiedPort buf.now (fun _ => 255) = vdpServerPort := hserver _ (by rw [hr]; exact hi)
    by_cases hlen : 4 ≤ buf.now.length
    · exact ⟨hlen, (copiedPort_of_le hlen _).symm.trans hport⟩
    · exact absurd hport (copiedPort_junk (by omega))
  · intro h
    have hs (hc : s.connected) : ¬ s.reader.Stuck ∧ s.OnlyServer := ⟨(h hc).1, fun buf hb => ((h hc).2 buf hb).1⟩
    refine ⟨hs, fun m junk hm => ?_⟩
    have hsaved := hm.saved hp.reader.header
    rw [migrates_iff (restored_packed junk hsaved hp hs).1]
    intro _
    by_cases hc : s.connected
    · obtain ⟨r, k, hr, htakes⟩ := restored_connected junk hsaved hp hc (hs hc).1 (hs hc).2
      rw [hr]
      refine ⟨fun hst => (hs hc).1 (htakes.stuck.mp hst), fun buf hb => ?_⟩
      obtain ⟨b, hmem, i, rfl⟩ := mem_restoredQueue hb
      obtain ⟨-, hlen, hport⟩ := (h hc).2 b hmem
      exact (copiedPort_of_le hlen _).trans hport
    · have hr := restored_eq hsaved hp junk
      rw [if_neg hc] at hr
      rw [hr]
      refine ⟨fun hst => ?_, fun buf hb => ?_⟩
      · exact absurd (show ReadState.readHader = .readData from hst.1) (by decide)
      · exact absurd (show buf ∈ [] from hb) List.not_mem_nil

end Reds

end Colama.Spice.VdiPort.Migrate

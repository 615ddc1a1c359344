import Mathlib.Tactic
import Colama.Spice.VdiPort.Migrate
import Colama.Spice.VdiPort.ReadSpec

namespace Colama.Spice.VdiPort.Migrate

open Lib

@[simp] theorem length_le32 (x : UInt32) : (le32 x).length = 4 := length_littleEndian _ _

theorem ofNat_le32 (x : UInt32) : UInt32.ofNat (ofLittleEndian (le32 x)) = x := by
  have hx := x.toNat_lt
  rw [le32, ofLittleEndian_littleEndian, Nat.mod_eq_of_lt (by simpa using hx), UInt32.ofNat_toNat]

namespace Mem

variable {m : Mem}

/-- `l` is at `pos`. -/
def At (m : Mem) (pos : Nat) (l : List UInt8) : Prop := m.slice pos l.length = l

theorem at_append {pos : Nat} {a b : List UInt8} : m.At pos (a ++ b) ↔ m.At pos a ∧ m.At (pos + a.length) b := by
  rw [At, At, At, slice, List.length_append, Memory.readFrom_add]
  exact ⟨fun h => List.append_inj h (Memory.length_readFrom ..), fun ⟨h₁, h₂⟩ => congrArg₂ _ h₁ h₂⟩

theorem At.word {pos : Nat} {x : UInt32} (h : m.At pos (le32 x)) : m.word pos = x := by
  rw [At, length_le32] at h
  rw [Mem.word, h, ofNat_le32]

theorem At.slice {pos n : Nat} {l : List UInt8} (h : m.At pos l) (hn : l.length = n) : m.slice pos n = l := hn ▸ h

theorem Holds.at {l : List UInt8} (h : m.Holds l) : m.At 0 l := h.2

/-- A message on its own. -/
def ofList (l : List UInt8) : Mem := ⟨fun i => l.getD i 0, l.length⟩

theorem holds_ofList (l : List UInt8) : (ofList l).Holds l := by
  refine ⟨rfl, ?_⟩
  have hread (pos : Nat) : Memory.readFrom (ofList l).bytes pos (l.length - pos) = l.drop pos := by
    induction hn : l.length - pos generalizing pos with
    | zero => rw [Memory.readFrom, List.drop_eq_nil_of_le (by omega)]
    | succ n ih =>
      have hpos : pos < l.length := by omega
      rw [Memory.readFrom, ih (pos + 1) (by omega), List.drop_eq_getElem_cons hpos]
      congr 1
      simp [ofList, List.getD_eq_getElem?_getD, hpos]
  exact hread 0

end Mem

theorem toNat_sub_ofNat {a : UInt32} {n : Nat} (h : n ≤ a.toNat) : (a - .ofNat n).toNat = a.toNat - n := by
  have hn : (UInt32.ofNat n).toNat = n := UInt32.toNat_ofNat_of_lt' (Nat.lt_of_le_of_lt h a.toNat_lt)
  rw [UInt32.toNat_sub_of_le _ _ (by rw [UInt32.le_iff_toNat_le, hn]; exact h), hn]

theorem one_le_toNat {a : UInt32} (h : a ≠ 0) : 1 ≤ a.toNat := by
  rw [Nat.one_le_iff_ne_zero]
  exact fun hn => h (UInt32.toNat_inj.mp hn)

namespace Reader

variable {r : Reader} {bytes : List UInt8}

/-- In the header. -/
structure AtHeader (r : Reader) : Prop where
  readState : r.readState = .readHader
  currentReadBuf : r.currentReadBuf = none
  pos : r.recivePos = sizeofChunkHeader - r.reciveLen.toNat
  le : r.reciveLen.toNat ≤ sizeofChunkHeader
  header : r.vdiChunkHeader.length = sizeofChunkHeader

/-- Waiting for a buffer. -/
structure AtBuff (r : Reader) : Prop where
  readState : r.readState = .getBuff
  currentReadBuf : r.currentReadBuf = none
  le : r.messageReciveLen ≤ r.size
  header : r.vdiChunkHeader.length = sizeofChunkHeader

/-- In the data. -/
structure InData (r : Reader) (buf : ReadBuf) : Prop where
  readState : r.readState = .readData
  currentReadBuf : r.currentReadBuf = some buf
  pos : r.recivePos = buf.data.length
  len : buf.len.toNat = buf.data.length + r.reciveLen.toNat
  max : buf.len.toNat ≤ spiceAgentMaxDataSize
  le : r.messageReciveLen ≤ r.size
  header : r.vdiChunkHeader.length = sizeofChunkHeader

def Ok (r : Reader) : Prop := r.AtHeader ∨ r.AtBuff ∨ ∃ buf, r.InData buf

theorem atHeader_init : init.AtHeader := ⟨rfl, rfl, rfl, by decide, rfl⟩

theorem Ok.header (h : r.Ok) : r.vdiChunkHeader.length = sizeofChunkHeader := by
  obtain h | h | ⟨buf, h⟩ := h <;> exact h.header

theorem Ok.reset (h : r.Ok) : r.reset.AtHeader := ⟨rfl, rfl, rfl, Nat.le_refl 8, h.header⟩

theorem AtHeader.read (h : r.AtHeader) (hn : bytes.length ≤ r.reciveLen.toNat) : (r.readHeader bytes).Ok := by
  have hle := h.le
  have hsub := toNat_sub_ofNat hn
  have hpos : r.recivePos.toNat = sizeofChunkHeader - r.reciveLen.toNat := by
    rw [h.pos]
    omega
  have hlen : (r.vdiChunkHeader.take r.recivePos.toNat ++ bytes ++
      r.vdiChunkHeader.drop (r.recivePos.toNat + bytes.length)).length = sizeofChunkHeader := by
    simp only [List.length_append, List.length_take, List.length_drop, h.header, hpos]
    omega
  rw [readHeader]
  dsimp only
  split
  · refine .inl ⟨h.readState, h.currentReadBuf, ?_, ?_, hlen⟩
    · dsimp only
      rw [h.pos, hsub]
      omega
    · dsimp only
      rw [hsub]
      omega
  · exact .inr (.inl ⟨rfl, h.currentReadBuf, UInt32.le_refl _, hlen⟩)

theorem AtBuff.getBuff (h : r.AtBuff) : ∃ buf, r.getBuff.InData buf := by
  rw [Reader.getBuff]
  split
  · next hle =>
    refine ⟨_, rfl, rfl, rfl, (Nat.zero_add _).symm, hle, ?_, h.header⟩
    rw [UInt32.le_iff_toNat_le, UInt32.toNat_sub_of_le _ _ (UInt32.le_refl _)]
    exact le_trans (Nat.sub_le ..) (UInt32.le_iff_toNat_le.mp h.le)
  · next hlt =>
    refine ⟨_, rfl, rfl, rfl, (Nat.zero_add _).symm, Nat.le_refl _, ?_, h.header⟩
    have hle := UInt32.le_of_lt (UInt32.not_le.mp hlt)
    rw [UInt32.le_iff_toNat_le, UInt32.toNat_sub_of_le _ _ hle]
    exact le_trans (Nat.sub_le ..) (UInt32.le_iff_toNat_le.mp h.le)

theorem InData.read {buf : ReadBuf} (h : r.InData buf) (hn : bytes.length ≤ r.reciveLen.toNat) : (r.readData buf bytes).1.Ok := by
  have hsub := toNat_sub_ofNat hn
  have hlen := h.len
  rw [readData]
  dsimp only
  split
  · refine .inr (.inr ⟨_, h.readState, rfl, ?_, ?_, h.max, h.le, h.header⟩)
    · dsimp only
      rw [h.pos, List.length_append, Nat.cast_add]
    · dsimp only
      rw [hsub, List.length_append]
      omega
  · split
    · exact .inl ⟨rfl, rfl, rfl, Nat.le_refl 8, h.header⟩
    · exact .inr (.inl ⟨rfl, rfl, h.le, h.header⟩)

/-- A byte of the header is stored. -/
def store (header : List UInt8) (pos : Nat) (byte : UInt8) : List UInt8 :=
  header.take pos ++ [byte] ++ header.drop (pos + 1)

theorem take_store {header header' : List UInt8} {pos : Nat} (byte : UInt8) (hlen : header.length = header'.length)
    (h : header.take pos = header'.take pos) : (store header pos byte).take (pos + 1) = (store header' pos byte).take (pos + 1) := by
  rw [store, store, h]
  have hl : (header'.take pos ++ [byte]).length = min pos header'.length + 1 := by simp
  by_cases hp : pos ≤ header'.length
  · rw [List.take_left' (by omega), List.take_left' (by omega)]
  · rw [List.drop_eq_nil_of_le (by omega), List.drop_eq_nil_of_le (by omega)]

theorem length_store {header : List UInt8} {pos : Nat} (byte : UInt8) (h : pos < header.length) :
    (store header pos byte).length = header.length := by
  simp only [store, List.length_append, List.length_take, List.length_drop, List.length_singleton]
  omega

/-- Where a header is being read, what is behind `recive_pos` does not matter. -/
theorem AtHeader.parse_eq {r : Reader} (h : r.AtHeader) (h0 : r.reciveLen ≠ 0) {header : List UInt8}
    (hh : header.length = sizeofChunkHeader) (htake : header.take r.recivePos.toNat = r.vdiChunkHeader.take r.recivePos.toNat)
    (stream : List UInt8) : { r with vdiChunkHeader := header }.parse stream = r.parse stream := by
  induction stream generalizing r header with
  | nil => rfl
  | cons byte stream ih =>
    obtain ⟨hs, hb, hp, hle, hlen⟩ := h
    have hpos := one_le_toNat h0
    have hfeed (header : List UInt8) : { r with vdiChunkHeader := header }.feed byte =
        ({ r with vdiChunkHeader := header }.readHeader [byte], none) := by
      simp [feed, hs]
    have hstore := take_store byte (hh.trans hlen.symm) htake
    have hnat : r.recivePos.toNat = sizeofChunkHeader - r.reciveLen.toNat := by omega
    rw [parse, parse, hfeed header, hfeed r.vdiChunkHeader]
    dsimp only
    rw [readHeader, readHeader]
    dsimp only
    have hsub : (r.reciveLen - .ofNat [byte].length).toNat = r.reciveLen.toNat - 1 := toNat_sub_ofNat hpos
    split
    · next hne =>
      have hpos' : (r.recivePos + ([byte].length : Nat)).toNat = r.recivePos.toNat + 1 := by
        rw [List.length_singleton]
        omega
      refine ih (r := { r with
        vdiChunkHeader := store r.vdiChunkHeader r.recivePos.toNat byte
        recivePos := r.recivePos + ([byte].length : Nat)
        reciveLen := r.reciveLen - .ofNat [byte].length }) ⟨hs, hb, ?_, ?_, ?_⟩ hne ?_ ?_
      · dsimp only
        rw [hsub, List.length_singleton]
        omega
      · dsimp only
        omega
      · exact (length_store byte (by omega)).trans hlen
      · exact (length_store byte (by omega)).trans hh
      · dsimp only
        rw [hpos']
        exact hstore
    · next he =>
      -- the header is complete
      have hlast : r.recivePos.toNat + 1 = sizeofChunkHeader := by
        have h1 : r.reciveLen.toNat - 1 = 0 := by rw [← hsub, not_not.mp he]; rfl
        omega
      have hstored : store header r.recivePos.toNat byte = store r.vdiChunkHeader r.recivePos.toNat byte := by
        rw [hlast, List.take_of_length_le, List.take_of_length_le] at hstore
        · exact hstore
        · rw [length_store byte (by omega), hlen]
        · rw [length_store byte (by omega), hh]
      have hstored' : header.take r.recivePos.toNat ++ [byte] ++ header.drop (r.recivePos.toNat + [byte].length) =
          r.vdiChunkHeader.take r.recivePos.toNat ++ [byte] ++ r.vdiChunkHeader.drop (r.recivePos.toNat + [byte].length) :=
        hstored
      simp only [hstored', size]

/-- Nor does `recive_pos` where a buffer is waited for. -/
theorem parse_buff {r : Reader} (hs : r.readState = .getBuff) (pos : Int) (stream : List UInt8) :
    { r with recivePos := pos }.parse stream = r.parse stream := by
  cases stream with
  | nil => rfl
  | cons byte stream => simp only [parse, feed, hs, if_true, getBuff]

/-- Nothing of the stream has been read, but maybe of an earlier one. -/
def Fresh (r : Reader) : Prop := ∃ header, header.length = sizeofChunkHeader ∧ r = { init with vdiChunkHeader := header }

theorem Fresh.parse {r : Reader} (h : r.Fresh) (stream : List UInt8) : r.parse stream = init.parse stream := by
  obtain ⟨header, hlen, rfl⟩ := h
  exact atHeader_init.parse_eq (by decide) hlen rfl stream

end Reader

/-- A buffer of the write queue. -/
structure VDIPortBuf.Ok (buf : VDIPortBuf) : Prop where
  ne_nil : buf.now ≠ []
  external : buf.kind = .external → buf.port = vdpClientPort ∧ buf.now.length ≤ externalBufSpace
  internal : buf.kind ≠ .external → buf.now.length ≤ internalHeaderSpace

def VDIPortBuf.isExternal (buf : VDIPortBuf) : Bool := buf.kind = .external

namespace Reds

variable {s : Reds}

/-- The tokens of the client, those to be sent to it and those its buffers stand for. -/
def tokens (s : Reds) : Nat :=
  s.numClientTokens.toNat + s.numTokens.toNat + s.writeQueue.countP VDIPortBuf.isExternal

/-- What holds of the state of an agent. -/
structure Admitted (s : Reds) : Prop where
  peer : s.peer
  aborted : s.aborted = false
  tokens : s.tokens = redsAgentWindowSize.toNat
  lt : s.numTokens < redsTokensToSend
  external : s.externalBufs + s.writeQueue.countP VDIPortBuf.isExternal = redsAgentWindowSize.toNat
  internal : s.internalBufs + s.writeQueue.countP (! ·.isExternal) = redsNumInternalAgentMessages.toNat
  bufs : ∀ buf ∈ s.writeQueue, buf.Ok
  own : ∀ buf ∈ s.writeQueue, buf.kind ≠ .tmp
  reader : s.reader.Ok
  unconnected : s.connected = false → s.writeQueue = [] ∧ s.reader.Fresh

theorem toNat_add_of_le {a b : UInt32} (h : a.toNat + b.toNat ≤ redsAgentWindowSize.toNat) :
    (a + b).toNat = a.toNat + b.toNat := by
  rw [UInt32.toNat_add, Nat.mod_eq_of_lt (lt_of_le_of_lt h (by decide))]

/-- A token that is given back is counted, or sent with the others. -/
theorem addToken_eq (hp : s.peer) (ha : s.aborted = false)
    (h : s.numClientTokens.toNat + s.numTokens.toNat + 1 ≤ redsAgentWindowSize.toNat) (hlt : s.numTokens < redsTokensToSend) :
    ∃ c t : UInt32, s.addToken = { s with numClientTokens := c, numTokens := t } ∧
      c.toNat + t.toNat = s.numClientTokens.toNat + s.numTokens.toNat + 1 ∧ t < redsTokensToSend := by
  have h1 : (s.numTokens + 1).toNat = s.numTokens.toNat + 1 :=
    toNat_add_of_le (show s.numTokens.toNat + 1 ≤ _ by omega)
  rw [addToken]
  split
  · have hsum : (s.numClientTokens + (s.numTokens + 1)).toNat = s.numClientTokens.toNat + (s.numTokens.toNat + 1) := by
      rw [toNat_add_of_le (by rw [h1]; omega), h1]
    have hle : ¬ redsAgentWindowSize < s.numClientTokens + (s.numTokens + 1) := by
      rw [UInt32.lt_iff_toNat_lt, hsum]
      omega
    rw [redsSendTokens, if_pos hp]
    refine ⟨s.numClientTokens + (s.numTokens + 1), 0, ?_, ?_, by decide⟩
    · simp [ha, hle]
    · rw [hsum]
      rfl
  · next hne =>
    refine ⟨s.numClientTokens, s.numTokens + 1, rfl, by rw [h1]; omega, ?_⟩
    have hne : s.numTokens + 1 ≠ redsTokensToSend := hne
    have hne' : (s.numTokens + 1).toNat ≠ redsTokensToSend.toNat := fun h => hne (UInt32.toNat_inj.mp h)
    rw [UInt32.lt_iff_toNat_lt] at hlt ⊢
    omega

/-- Buffers are given back. -/
theorem foldl_free (queue : List VDIPortBuf) (hp : s.peer) (ha : s.aborted = false)
    (h : s.numClientTokens.toNat + s.numTokens.toNat + queue.countP VDIPortBuf.isExternal ≤ redsAgentWindowSize.toNat)
    (hlt : s.numTokens < redsTokensToSend) (hown : ∀ buf ∈ queue, buf.kind ≠ .tmp) :
    ∃ c t : UInt32, queue.foldl free s = { s with
        numClientTokens := c
        numTokens := t
        externalBufs := s.externalBufs + queue.countP VDIPortBuf.isExternal
        internalBufs := s.internalBufs + queue.countP (! ·.isExternal) } ∧
      c.toNat + t.toNat = s.numClientTokens.toNat + s.numTokens.toNat + queue.countP VDIPortBuf.isExternal ∧
      t < redsTokensToSend := by
  induction queue generalizing s with
  | nil => exact ⟨s.numClientTokens, s.numTokens, rfl, rfl, hlt⟩
  | cons buf queue ih =>
    obtain ⟨htmp, hown⟩ := List.forall_mem_cons.mp hown
    rw [List.foldl_cons]
    cases hk : buf.kind with
    | external =>
      have hext : buf.isExternal = true := by simp [VDIPortBuf.isExternal, hk]
      rw [List.countP_cons_of_pos hext, List.countP_cons_of_neg (by simp [hext])] at *
      obtain ⟨c, t, hadd, hsum, ht⟩ := addToken_eq (s := { s with externalBufs := s.externalBufs + 1 }) hp ha
        (show s.numClientTokens.toNat + s.numTokens.toNat + 1 ≤ _ by omega) hlt
      have hsum : c.toNat + t.toNat = s.numClientTokens.toNat + s.numTokens.toNat + 1 := hsum
      have hfree : s.free buf = { s with externalBufs := s.externalBufs + 1, numClientTokens := c, numTokens := t } := by
        rw [free, hk]
        exact hadd
      rw [hfree]
      obtain ⟨c', t', hr, hsum', ht'⟩ := ih (s := { s with
        externalBufs := s.externalBufs + 1, numClientTokens := c, numTokens := t }) hp ha
        (show c.toNat + t.toNat + _ ≤ _ by omega) ht hown
      refine ⟨c', t', ?_, ?_, ht'⟩
      · rw [hr]
        simp only [Nat.add_assoc, Nat.add_comm 1]
      · have hsum' : c'.toNat + t'.toNat = c.toNat + t.toNat + _ := hsum'
        omega
    | internal =>
      have hext : buf.isExternal = false := by simp [VDIPortBuf.isExternal, hk]
      rw [List.countP_cons_of_neg (by simp [hext]), List.countP_cons_of_pos (by simp [hext])] at *
      have hfree : s.free buf = { s with internalBufs := s.internalBufs + 1 } := by rw [free, hk]
      rw [hfree]
      obtain ⟨c', t', hr, hsum', ht'⟩ := ih (s := { s with internalBufs := s.internalBufs + 1 }) hp ha h hlt hown
      refine ⟨c', t', ?_, hsum', ht'⟩
      rw [hr]
      simp only [Nat.add_assoc, Nat.add_comm 1]
    | tmp => exact absurd hk htmp

theorem admitted_linked : linked.Admitted where
  peer := rfl
  aborted := rfl
  tokens := rfl
  lt := by decide
  external := rfl
  internal := rfl
  bufs := by simp [linked]
  own := by simp [linked]
  reader := .inl Reader.atHeader_init
  unconnected := fun _ => ⟨rfl, _, rfl, rfl⟩

theorem Admitted.sum (h : s.Admitted) : s.numClientTokens.toNat + s.numTokens.toNat +
    s.writeQueue.countP VDIPortBuf.isExternal = redsAgentWindowSize.toNat := h.tokens

theorem Admitted.redsAgentRemove (h : s.Admitted) : s.redsAgentRemove.Admitted := by
  rw [Reds.redsAgentRemove]
  split
  · obtain ⟨c, t, hr, hsum, ht⟩ := foldl_free (s := { s with connected := false, writeQueue := [] }) s.writeQueue h.peer h.aborted
      h.tokens.le h.lt h.own
    have hr : s.writeQueue.foldl free { { s with connected := false } with writeQueue := [] } = _ := hr
    rw [redsResetVdp, hr]
    exact ⟨h.peer, h.aborted, hsum.trans h.tokens, ht, h.external, h.internal, by simp, by simp,
      .inl h.reader.reset, fun _ => ⟨rfl, _, h.reader.header, rfl⟩⟩
  · exact h

theorem Admitted.addToken (h : s.Admitted) (h0 : s.numClientTokens ≠ 0) :
    ({ s with numClientTokens := s.numClientTokens - 1 } : Reds).addToken.Admitted := by
  have hpos := one_le_toNat h0
  have hsub : (s.numClientTokens - 1).toNat = s.numClientTokens.toNat - 1 := toNat_sub_ofNat hpos
  have htok := h.sum
  obtain ⟨c, t, hr, hsum, ht⟩ := addToken_eq (s := { s with numClientTokens := s.numClientTokens - 1 }) h.peer h.aborted
    (show (s.numClientTokens - 1).toNat + s.numTokens.toNat + 1 ≤ _ by omega) h.lt
  have hsum : c.toNat + t.toNat = (s.numClientTokens - 1).toNat + s.numTokens.toNat + 1 := hsum
  rw [hr]
  refine ⟨h.peer, h.aborted, ?_, ht, h.external, h.internal, h.bufs, h.own, h.reader, h.unconnected⟩
  show c.toNat + t.toNat + s.writeQueue.countP VDIPortBuf.isExternal = _
  omega

theorem Admitted.mainAgentData {s' : Reds} (h : s.Admitted) {message : List UInt8} (hs : s.mainAgentData message = some s') :
    s'.Admitted := by
  rw [Reds.mainAgentData] at hs
  split at hs
  · cases hs
  next h0 =>
  dsimp only at hs
  split at hs
  · cases hs
    exact h.addToken h0
  next hconn =>
  split at hs
  · cases hs
    exact h.addToken h0
  split at hs
  · cases hs
  next hlen =>
  split at hs
  · cases hs
  next hext =>
  cases hs
  have hext : s.externalBufs ≠ 0 := hext
  have hpos := one_le_toNat h0
  have hsub : (s.numClientTokens - 1).toNat = s.numClientTokens.toNat - 1 := toNat_sub_ofNat hpos
  have htok := h.sum
  have hbufs := h.external
  refine ⟨h.peer, h.aborted, ?_, h.lt, ?_, ?_, ?_, ?_, h.reader, fun hn => absurd (Bool.not_eq_true _ ▸ hn) hconn⟩
  · show (s.numClientTokens - 1).toNat + s.numTokens.toNat + _ = _
    rw [List.countP_append]
    simp [VDIPortBuf.isExternal]
    omega
  · show s.externalBufs - 1 + _ = _
    rw [List.countP_append]
    simp [VDIPortBuf.isExternal]
    omega
  · show s.internalBufs + _ = _
    rw [List.countP_append]
    simpa [VDIPortBuf.isExternal] using h.internal
  · simp only [List.mem_append, List.mem_singleton]
    rintro buf (hb | rfl)
    · exact h.bufs buf hb
    · refine ⟨?_, fun _ => ⟨rfl, ?_⟩, fun hk => absurd rfl hk⟩
      · intro hnil
        have := congrArg List.length hnil
        simp [VDIChunkHeader.length_bytes, sizeofChunkHeader] at this
      · rw [List.length_append, VDIChunkHeader.length_bytes, externalBufSpace]
        omega
  · simp only [List.mem_append, List.mem_singleton]
    rintro buf (hb | rfl)
    · exact h.own buf hb
    · intro h; cases h

theorem Admitted.mouseEvent (h : s.Admitted) (hc : s.connected) (mouseState : List.Vector UInt8 13) :
    (s.redsHandleAgentMouseEvent mouseState).Admitted := by
  rw [redsHandleAgentMouseEvent]
  split
  · exact h
  · next hint =>
    have htok := h.sum
    have hbufs := h.internal
    refine ⟨h.peer, h.aborted, ?_, h.lt, ?_, ?_, ?_, ?_, h.reader, fun hn => absurd (hc.symm.trans hn) (by decide)⟩
    · show s.numClientTokens.toNat + s.numTokens.toNat + _ = _
      rw [List.countP_append]
      simpa [VDIPortBuf.isExternal] using htok
    · show s.externalBufs + _ = _
      rw [List.countP_append]
      simpa [VDIPortBuf.isExternal] using h.external
    · show s.internalBufs - 1 + _ = _
      rw [List.countP_append]
      simp [VDIPortBuf.isExternal] at hbufs ⊢
      omega
    · simp only [List.mem_append, List.mem_singleton]
      rintro buf (hb | rfl)
      · exact h.bufs buf hb
      · have hlen : (VDIChunkHeader.bytes ⟨vdpServerPort, 20 + 13⟩ ++ (le32 1 ++ le32 1 ++ littleEndian 0 8 ++ le32 13) ++
            mouseState.toList).length = internalHeaderSpace := by
          simp [VDIChunkHeader.length_bytes, internalHeaderSpace, sizeofChunkHeader]
        refine ⟨?_, fun hk => absurd hk (by simp), fun _ => hlen.le⟩
        intro hnil
        have := congrArg List.length hnil
        rw [hlen] at this
        cases this
    · simp only [List.mem_append, List.mem_singleton]
      rintro buf (hb | rfl)
      · exact h.own buf hb
      · intro h; cases h

theorem Admitted.write (h : s.Admitted) (n : Nat) : (s.writeToVdiPort n).Admitted := by
  rw [Reds.writeToVdiPort]
  split
  · exact h
  next buf queue hq =>
  split
  · exact h
  next hn =>
  have hc : s.connected := by
    by_contra hc
    exact hn (.inl hc)
  have hconn : s.connected = false → False := fun hf => absurd (hc.symm.trans hf) (by decide)
  have hsum := h.sum
  have hext := h.external
  have hint := h.internal
  have hbufs := h.bufs
  have hown := h.own
  rw [hq] at hsum hext hint hbufs hown
  obtain ⟨hbuf, hbufs⟩ := List.forall_mem_cons.mp hbufs
  obtain ⟨htmp, hown⟩ := List.forall_mem_cons.mp hown
  split
  · have hone : [buf].countP VDIPortBuf.isExternal + queue.countP VDIPortBuf.isExternal =
        (buf :: queue).countP VDIPortBuf.isExternal := by
      rw [← List.countP_append]
      rfl
    have hone' : [buf].countP (! ·.isExternal) + queue.countP (! ·.isExternal) =
        (buf :: queue).countP (! ·.isExternal) := by
      rw [← List.countP_append]
      rfl
    obtain ⟨c, t, hr, hsum', ht⟩ := foldl_free (s := { s with writeQueue := queue }) [buf] h.peer h.aborted
      (show s.numClientTokens.toNat + s.numTokens.toNat + _ ≤ _ by omega) h.lt (by simpa using htmp)
    have hr : ({ s with writeQueue := queue } : Reds).free buf = _ := hr
    have hsum' : c.toNat + t.toNat = s.numClientTokens.toNat + s.numTokens.toNat + _ := hsum'
    rw [hr]
    refine ⟨h.peer, h.aborted, ?_, ht, ?_, ?_, hbufs, hown, h.reader, fun hf => (hconn hf).elim⟩
    · show c.toNat + t.toNat + queue.countP VDIPortBuf.isExternal = _
      omega
    · show s.externalBufs + _ + queue.countP VDIPortBuf.isExternal = _
      omega
    · show s.internalBufs + _ + queue.countP (! ·.isExternal) = _
      omega
  · next hlt =>
    have hkind (p : VDIPortBuf → Bool) (hp : p { buf with now := buf.now.drop n } = p buf) :
        ({ buf with now := buf.now.drop n } :: queue).countP p = (buf :: queue).countP p := by
      rw [List.countP_cons, List.countP_cons, hp]
    refine ⟨h.peer, h.aborted, ?_, h.lt, ?_, ?_, ?_, ?_, h.reader, fun hf => (hconn hf).elim⟩
    · show s.numClientTokens.toNat + s.numTokens.toNat + _ = _
      rw [hkind _ rfl, hsum]
    · show s.externalBufs + _ = _
      rw [hkind _ rfl, hext]
    · show s.internalBufs + _ = _
      rw [hkind _ rfl, hint]
    · refine List.forall_mem_cons.mpr ⟨⟨?_, fun hk => ?_, fun hk => ?_⟩, hbufs⟩
      · exact fun hnil => hlt (List.drop_eq_nil_iff.mp hnil)
      · exact ⟨(hbuf.external hk).1, le_trans (by simp) (hbuf.external hk).2⟩
      · exact le_trans (by simp) (hbuf.internal hk)
    · exact List.forall_mem_cons.mpr ⟨htmp, hown⟩

/-- The reading side is changed. -/
theorem Admitted.setReader (h : s.Admitted) (hc : s.connected) {reader : Reader} (hr : reader.Ok) (readBufs outgoing : Nat) :
    ({ s with reader := reader, readBufs := readBufs, outgoing := outgoing } : Reds).Admitted :=
  ⟨h.peer, h.aborted, h.tokens, h.lt, h.external, h.internal, h.bufs, h.own, hr,
    fun hn => absurd (hc.symm.trans hn) (by decide)⟩

theorem Admitted.dispatch (h : s.Admitted) (hc : s.connected) : s.dispatchVdiPortData.Admitted := by
  rw [dispatchVdiPortData]
  split
  · exact h.setReader hc h.reader _ _
  · split
    · exact h.setReader hc h.reader _ _
    · exact (h.setReader hc h.reader _ _).redsAgentRemove

theorem Admitted.read (h : s.Admitted) (bytes : List UInt8) : (s.readFromVdiPort bytes).Admitted := by
  rw [readFromVdiPort]
  split
  · exact h
  next hc =>
  have hc : s.connected := not_not.mp hc
  split
  · next hs =>
    split
    · exact h
    next hn =>
    rw [not_or, Nat.not_lt] at hn
    have hr : s.reader.AtHeader := h.reader.resolve_right (by
      rintro (hb | ⟨buf, hd⟩)
      · exact absurd (hs.symm.trans hb.readState) (by decide)
      · exact absurd (hs.symm.trans hd.readState) (by decide))
    exact h.setReader hc (hr.read hn.2) _ _
  · next hs =>
    split
    · exact h
    have hr : s.reader.AtBuff := by
      obtain hr | hr | ⟨buf, hr⟩ := h.reader
      · exact absurd (hs.symm.trans hr.readState) (by decide)
      · exact hr
      · exact absurd (hs.symm.trans hr.readState) (by decide)
    exact h.setReader hc (.inr (.inr hr.getBuff)) _ _
  · next buf hs hb =>
    split
    · exact h
    next hn =>
    rw [not_or, Nat.not_lt] at hn
    have hr : s.reader.InData buf := by
      obtain hr | hr | ⟨buf', hr⟩ := h.reader
      · exact absurd (hs.symm.trans hr.readState) (by decide)
      · exact absurd (hs.symm.trans hr.readState) (by decide)
      · obtain rfl : buf = buf' := Option.some_inj.mp (hb.symm.trans hr.currentReadBuf)
        exact hr
    have hok := hr.read hn.2
    split
    · next r heq =>
      rw [heq] at hok
      exact h.setReader hc hok _ _
    · next r buf' heq =>
      rw [heq] at hok
      exact (h.setReader hc hok s.readBufs s.outgoing).dispatch hc
  · exact h

theorem Admitted.step {s' : Reds} (h : s.Admitted) (a : Act) (hs : s.step a = some s') : s'.Admitted := by
  cases a with
  | agentStart =>
    cases hs
    exact ⟨h.peer, h.aborted, h.tokens, h.lt, h.external, h.internal, h.bufs, h.own, h.reader, h.unconnected⟩
  | agentData message => exact h.mainAgentData hs
  | mouseEvent mouseState =>
    cases hs
    split
    · next hc => exact h.mouseEvent hc mouseState
    · exact h
  | write n =>
    cases hs
    exact h.write n
  | read bytes =>
    cases hs
    exact h.read bytes
  | readBufRelease =>
    cases hs
    rw [vdiReadBufRelease]
    split
    · exact h
    · exact ⟨h.peer, h.aborted, h.tokens, h.lt, h.external, h.internal, h.bufs, h.own, h.reader, h.unconnected⟩
  | attach =>
    cases hs
    rw [attachToRedAgent]
    split
    · exact h
    · exact ⟨h.peer, h.aborted, h.tokens, h.lt, h.external, h.internal, h.bufs, h.own, h.reader, fun hn => nomatch hn⟩
  | remove =>
    cases hs
    exact h.redsAgentRemove

end Reds

end Colama.Spice.VdiPort.Migrate

import Colama.Lib.Runs
import Mathlib.Data.List.Infix

namespace Colama.Vnc4.FdOutStream

open Lib

/-- What `select` says of the descriptor. -/
inductive SelectAnswer
  | ready
  | timedOut
  | eintr
  | error
  deriving DecidableEq

/-- What `write` says: how many of the bytes it would take, or why it takes none. -/
inductive WriteAnswer
  | accepts (n : Nat)
  | eintr
  | wouldBlock
  | error
  deriving DecidableEq

/-- The answers that the descriptor has yet to give. -/
structure Answers where
  selects : List SelectAnswer
  writes : List WriteAnswer
  deriving DecidableEq

/-- Why a call ends early: it throws, or it waits for an answer that the descriptor does not give. -/
inductive Stop
  | timedOut
  | systemException
  | maxItemSizeExceeded
  | blocked
  deriving DecidableEq

/-- The loop around `select`. -/
def selectLoop : List SelectAnswer → List SelectAnswer × Option Stop
  | [] => ([], some .blocked)
  | .ready :: selects => (selects, none)
  | .timedOut :: selects => (selects, some .timedOut)
  | .eintr :: selects => selectLoop selects
  | .error :: selects => (selects, some .systemException)

/-- The loop around `write`, which goes back to the one around `select` if the write would block. -/
def writeLoop (length : Nat) : List WriteAnswer → List SelectAnswer → Answers × Except Stop Nat
  | [], selects => (⟨selects, []⟩, .error .blocked)
  | .accepts n :: writes, selects => (⟨selects, writes⟩, .ok (min n length))
  | .eintr :: writes, selects => writeLoop length writes selects
  | .wouldBlock :: writes, selects =>
    match selectLoop selects with
    | (selects, some stop) => (⟨selects, writes⟩, .error stop)
    | (selects, none) => writeLoop length writes selects
  | .error :: writes, selects => (⟨selects, writes⟩, .error .systemException)

def writeWithTimeout (length : Nat) (a : Answers) : Answers × Except Stop Nat :=
  match selectLoop a.selects with
  | (selects, some stop) => (⟨selects, a.writes⟩, .error stop)
  | (selects, none) => writeLoop length a.writes selects

/-- `DEFAULT_BUF_SIZE`. -/
def defaultBufSize : Nat := 16384

/-- `MIN_BULK_SIZE`. -/
def minBulkSize : Nat := 1024

/-- The stream, of which `buf` is what lies from `start` to `ptr`. Beside it stand the answers and the bytes that the
descriptor has accepted, all the bytes that the stream has taken from its callers, and whether a call has not come
back. -/
structure Stream where
  bufSize : Nat
  buf : List UInt8
  offset : BitVec 32
  answers : Answers
  accepted : List UInt8
  written : List UInt8
  blocked : Bool
  deriving DecidableEq

namespace Stream

/-- The constructor, with its `bufSize_`. -/
def new (bufSize : Nat) (answers : Answers) : Stream where
  bufSize := if bufSize ≠ 0 then bufSize else defaultBufSize
  buf := []
  offset := 0
  answers := answers
  accepted := []
  written := []
  blocked := false

def length (s : Stream) : Int := (s.offset + BitVec.ofNat 32 s.buf.length).toInt

/-- The loops of `flush` and `writeBytes` that write until there is no data left, which there is behind a stop. Each turn
takes an answer of `write`. -/
def sendLoop : (turns : Nat) → (data : List UInt8) → Stream → Stream × List UInt8 × Option Stop
  | _, [], s => (s, [], none)
  | 0, b :: data, s => (s, b :: data, some .blocked)
  | turns + 1, b :: data, s =>
    match writeWithTimeout (b :: data).length s.answers with
    | (answers, .error stop) => ({ s with answers }, b :: data, some stop)
    | (answers, .ok n) => sendLoop turns ((b :: data).drop n)
      { s with answers, accepted := s.accepted ++ (b :: data).take n, offset := s.offset + BitVec.ofNat 32 n }

def send (data : List UInt8) (s : Stream) : Stream × List UInt8 × Option Stop :=
  sendLoop (s.answers.writes.length + 1) data s

def flush (s : Stream) : Stream × Option Stop :=
  match s.send s.buf with
  | (s, _, some stop) => (s, some stop)
  | (s, _, none) => ({ s with buf := [] }, none)

def overrun (itemSize nItems : Nat) (s : Stream) : Stream × Except Stop Nat :=
  if itemSize > s.bufSize then (s, .error .maxItemSizeExceeded)
  else
    match s.flush with
    | (s, some stop) => (s, .error stop)
    | (s, none) =>
      (s, .ok (if itemSize * nItems > s.bufSize - s.buf.length then (s.bufSize - s.buf.length) / itemSize else nItems))

def check (itemSize nItems : Nat) (s : Stream) : Stream × Except Stop Nat :=
  if s.buf.length + itemSize * nItems > s.bufSize then
    if s.buf.length + itemSize > s.bufSize then s.overrun itemSize nItems
    else (s, .ok ((s.bufSize - s.buf.length) / itemSize))
  else (s, .ok nItems)

/-- Bytes are put to the buffer. -/
def put (bs : List UInt8) (s : Stream) : Stream := { s with buf := s.buf ++ bs, written := s.written ++ bs }

/-- `writeU8`, `writeU16`, `writeU32`, `writeOpaque24A` and the like, with the bytes of their item. -/
def writeItem (bs : List UInt8) (s : Stream) : Stream × Option Stop :=
  match s.check bs.length 1 with
  | (s, .error stop) => (s, some stop)
  | (s, .ok _) => (s.put bs, none)

/-- The loop of `OutStream::writeBytes`, each turn of which takes a byte or more. -/
def copyLoop : (turns : Nat) → (data : List UInt8) → Stream → Stream × Option Stop
  | _, [], s => (s, none)
  | 0, _ :: _, s => (s, some .blocked)
  | turns + 1, b :: data, s =>
    match s.check 1 (b :: data).length with
    | (s, .error stop) => (s, some stop)
    | (s, .ok n) => copyLoop turns ((b :: data).drop n) (s.put ((b :: data).take n))

/-- `OutStream::writeBytes`, and `skip`, which passes over what is in the buffer. -/
def copyBytes (data : List UInt8) (s : Stream) : Stream × Option Stop := copyLoop data.length data s

def writeBytes (data : List UInt8) (s : Stream) : Stream × Option Stop :=
  if data.length < minBulkSize then s.copyBytes data
  else
    match s.flush with
    | (s, some stop) => (s, some stop)
    | (s, none) =>
      let (s, left, stop) := s.send data
      ({ s with written := s.written ++ data.take (data.length - left.length) }, stop)

end Stream

inductive Call
  | item (bs : List UInt8)
  | writeBytes (data : List UInt8)
  | skip (bs : List UInt8)
  | flush

def Stream.perform (s : Stream) : Call → Stream × Option Stop
  | .item bs => s.writeItem bs
  | .writeBytes data => s.writeBytes data
  | .skip bs => s.copyBytes bs
  | .flush => s.flush

/-- A call, after which the stream may be used unless the call has not come back. -/
def Stream.call (s : Stream) (c : Call) : Stream :=
  if s.blocked then s else { (s.perform c).1 with blocked := decide ((s.perform c).2 = some .blocked) }

/-- What the descriptor leaves of `left` bytes, and its answers behind those. -/
def drainLoop : (turns left : Nat) → Answers → Answers × Nat × Option Stop
  | _, 0, a => (a, 0, none)
  | 0, left + 1, a => (a, left + 1, some .blocked)
  | turns + 1, left + 1, a =>
    match writeWithTimeout (left + 1) a with
    | (a, .error stop) => (a, left + 1, some stop)
    | (a, .ok n) => drainLoop turns (left + 1 - n) a

def drain (left : Nat) (a : Answers) : Answers × Nat × Option Stop := drainLoop (a.writes.length + 1) left a

/-- Of one of the pieces, that are sent one after the other, the descriptor accepts a part before there is an
exception. -/
@[grind] def Interrupted : (pieces : List Nat) → Answers → Prop
  | [], _ => False
  | piece :: pieces, a =>
    match drain piece a with
    | (_, left, some stop) => stop ≠ .blocked ∧ left < piece
    | (a, _, none) => Interrupted pieces a

/-- How much is in the buffer each time a call flushes it. -/
def Stream.flushes (s : Stream) : Call → List Nat
  | .item bs => if s.buf.length + bs.length > s.bufSize ∧ bs.length ≤ s.bufSize then [s.buf.length] else []
  | .writeBytes data =>
    if data.length < minBulkSize then List.replicate ((s.buf.length + data.length - 1) / s.bufSize) s.bufSize
    else [s.buf.length]
  | .skip bs => List.replicate ((s.buf.length + bs.length - 1) / s.bufSize) s.bufSize
  | .flush => [s.buf.length]

theorem writeLoop_ok {length n : Nat} {writes : List WriteAnswer} {selects : List SelectAnswer} {a : Answers}
    (h : writeLoop length writes selects = (a, .ok n)) : n ≤ length ∧ a.writes.length < writes.length := by
  induction writes generalizing selects with
  | nil => cases h
  | cons w writes ih =>
    cases w with
    | accepts k =>
      cases h
      exact ⟨Nat.min_le_right k length, Nat.lt_succ_self _⟩
    | eintr => exact (ih h).imp_right Nat.lt_succ_of_lt
    | wouldBlock =>
      rw [writeLoop] at h
      split at h
      · cases h
      · exact (ih h).imp_right Nat.lt_succ_of_lt
    | error => cases h

theorem writeWithTimeout_ok {length n : Nat} {a a' : Answers} (h : writeWithTimeout length a = (a', .ok n)) :
    n ≤ length ∧ a'.writes.length < a.writes.length := by
  rw [writeWithTimeout] at h
  split at h
  · cases h
  · exact writeLoop_ok h

theorem drainLoop_left (turns left : Nat) (a : Answers) : (drainLoop turns left a).2.1 ≤ left ∧
    ((drainLoop turns left a).2.2 = none ↔ (drainLoop turns left a).2.1 = 0) := by
  induction turns generalizing left a with
  | zero => cases left <;> simp [drainLoop]
  | succ turns ih =>
    cases left with
    | zero => exact ⟨le_rfl, iff_of_true rfl rfl⟩
    | succ left =>
      rw [drainLoop]
      split
      · exact ⟨le_rfl, iff_of_false nofun (Nat.succ_ne_zero left)⟩
      · rename_i n _
        exact (ih (left + 1 - n) _).imp_left fun hle => hle.trans (Nat.sub_le _ _)

/-- What a loop sends and what it leaves is decided by the answers and by how much data there is. -/
theorem sendLoop_eq (turns : Nat) (data : List UInt8) (s : Stream) :
    s.sendLoop turns data = ({ s with
        answers := (drainLoop turns data.length s.answers).1
        accepted := s.accepted ++ data.take (data.length - (drainLoop turns data.length s.answers).2.1)
        offset := s.offset + BitVec.ofNat 32 (data.length - (drainLoop turns data.length s.answers).2.1) },
      data.drop (data.length - (drainLoop turns data.length s.answers).2.1),
      (drainLoop turns data.length s.answers).2.2) := by
  induction turns generalizing data s with
  | zero => cases data <;> simp [Stream.sendLoop, drainLoop]
  | succ turns ih =>
    cases data with
    | nil => simp [Stream.sendLoop, drainLoop]
    | cons b data =>
      rw [Stream.sendLoop, List.length_cons, drainLoop]
      cases hwrite : writeWithTimeout (data.length + 1) s.answers with
      | mk a result =>
        cases result with
        | error stop => simp
        | ok n =>
          have hn := (writeWithTimeout_ok hwrite).1
          have hle := (drainLoop_left turns (data.length + 1 - n) a).1
          have hlen : ((b :: data).drop n).length = data.length + 1 - n := by rw [List.length_drop, List.length_cons]
          dsimp only
          rw [ih, hlen]
          dsimp only
          generalize drainLoop turns (data.length + 1 - n) a = d at hle ⊢
          have hsplit : data.length + 1 - d.2.1 = n + (data.length + 1 - n - d.2.1) := by omega
          rw [hsplit, List.drop_drop, List.take_add, List.append_assoc, BitVec.add_assoc, ← BitVec.ofNat_add]

namespace Stream

/-- The bytes that were accepted and those in the buffer make up what was written. -/
structure Sound (s : Stream) : Prop where
  bufSize : 0 < s.bufSize ∧ s.bufSize < 2 ^ 31
  length_le : s.buf.length ≤ s.bufSize
  written : s.accepted ++ s.buf = s.written
  offset : s.offset = BitVec.ofNat 32 s.accepted.length

/-- Bytes that were accepted are still in the buffer, so that `length` counts them twice. -/
def CountsTwice (s : Stream) : Prop :=
  ∃ k, 0 < k ∧ k < 2 ^ 31 ∧ s.offset + BitVec.ofNat 32 s.buf.length = BitVec.ofNat 32 (s.written.length + k)

/-- How the stream is behind a call or a piece of one, of which `interrupted` says whether a flush is cut short. -/
structure Outcome (interrupted : Prop) (r : Stream × Option Stop) : Prop where
  twice : interrupted → r.2 ≠ some .blocked ∧ r.1.CountsTwice
  sound : ¬interrupted → r.2 ≠ some .blocked → r.1.Sound
  blocked : r.2 = some .blocked → r.1.accepted <+: r.1.written

theorem Sound.outcome {s : Stream} (hs : s.Sound) (stop : Option Stop) {interrupted : Prop} (h : ¬interrupted) :
    Outcome interrupted (s, stop) where
  twice hi := absurd hi h
  sound _ _ := hs
  blocked _ := hs.written ▸ List.prefix_append _ _

theorem Sound.put {s : Stream} (hs : s.Sound) (bs : List UInt8) (h : s.buf.length + bs.length ≤ s.bufSize) :
    (s.put bs).Sound where
  bufSize := hs.bufSize
  length_le := List.length_append.le.trans h
  written := by rw [Stream.put, ← List.append_assoc, hs.written]
  offset := hs.offset

/-- The buffer is sent whole, or the descriptor stops before that. -/
theorem flush_spec {s : Stream} (hs : s.Sound) :
    (∃ s' a, s.flush = (s', none) ∧ drain s.buf.length s.answers = (a, 0, none) ∧ s'.Sound ∧ s'.buf = [] ∧
      s'.bufSize = s.bufSize ∧ s'.answers = a) ∨
    ∃ s' stop a left, s.flush = (s', some stop) ∧ drain s.buf.length s.answers = (a, left, some stop) ∧
      Outcome (stop ≠ .blocked ∧ left < s.buf.length) (s', some stop) := by
  have hflush : s.flush = match s.send s.buf with
    | (s, _, some stop) => (s, some stop)
    | (s, _, none) => ({ s with buf := [] }, none) := rfl
  obtain ⟨hle, hnone⟩ := drainLoop_left (s.answers.writes.length + 1) s.buf.length s.answers
  rw [Stream.send, sendLoop_eq] at hflush
  rw [drain]
  generalize drainLoop (s.answers.writes.length + 1) s.buf.length s.answers = d at hle hnone hflush ⊢
  obtain ⟨a, left, stop⟩ := d
  dsimp only at hle hnone hflush
  have hoffset : s.offset + BitVec.ofNat 32 (s.buf.length - left) =
      BitVec.ofNat 32 (s.accepted.length + (s.buf.length - left)) := by rw [hs.offset, ← BitVec.ofNat_add]
  rw [hoffset] at hflush
  cases stop with
  | none =>
    cases hnone.mp rfl
    rw [Nat.sub_zero, List.take_length] at hflush
    refine .inl ⟨_, a, hflush, rfl, ⟨hs.bufSize, Nat.zero_le _, ?_, ?_⟩, rfl, rfl, rfl⟩
    · exact (List.append_nil _).trans hs.written
    · rw [List.length_append]
  | some stop =>
    refine .inr ⟨_, stop, a, left, hflush, rfl, fun ⟨hstop, hleft⟩ => ⟨fun h => hstop (Option.some.inj h), ?_⟩, ?_, ?_⟩
    · have hlt := hs.bufSize.2
      have hfits := hs.length_le
      have hwritten := congrArg List.length hs.written
      have hpos : 0 < left := Nat.pos_of_ne_zero fun h => absurd (hnone.mpr h) nofun
      rw [List.length_append] at hwritten
      refine ⟨s.buf.length - left, by omega, by omega, ?_⟩
      dsimp only
      rw [← BitVec.ofNat_add, ← hwritten]
      congr 1
      omega
    · intro hwhole hstop
      have hleft : left = s.buf.length := by
        refine hle.antisymm (Nat.le_of_not_gt fun hlt => hwhole ⟨fun h => ?_, hlt⟩)
        exact hstop (congrArg some h)
      subst hleft
      refine ⟨hs.bufSize, hs.length_le, ?_, ?_⟩
      · simpa using hs.written
      · simp
    · intro _
      dsimp only
      rw [← hs.written, List.prefix_append_right_inj]
      exact List.take_prefix _ _

theorem writeItem_outcome {s : Stream} (hs : s.Sound) (bs : List UInt8) :
    Outcome (Interrupted (s.flushes (.item bs)) s.answers) (s.writeItem bs) := by
  rw [writeItem, check, flushes, Nat.mul_one]
  by_cases hfull : s.buf.length + bs.length > s.bufSize
  · rw [if_pos hfull, if_pos hfull, overrun]
    by_cases hsize : bs.length > s.bufSize
    · rw [if_pos hsize, if_neg fun h => absurd h.2 (Nat.not_le.mpr hsize)]
      exact hs.outcome _ id
    · rw [if_neg hsize, if_pos ⟨hfull, Nat.le_of_not_gt hsize⟩, Interrupted]
      rcases flush_spec hs with ⟨s', a, hflush, hdrain, hs', hbuf, hcap, -⟩ | ⟨s', stop, a, left, hflush, hdrain, hout⟩
      · rw [hflush, hdrain]
        refine (hs'.put bs ?_).outcome none id
        rw [hbuf, hcap, List.length_nil, Nat.zero_add]
        exact Nat.le_of_not_gt hsize
      · rw [hflush, hdrain]
        exact hout
  · rw [if_neg hfull, if_neg fun h => hfull h.1]
    exact (hs.put bs (Nat.le_of_not_gt hfull)).outcome none id

/-- The buffer is flushed each time that it is full and there is more data. -/
theorem copyLoop_outcome {turns : Nat} {data : List UInt8} (hturns : data.length ≤ turns) {s : Stream} (hs : s.Sound) :
    Outcome (Interrupted (List.replicate ((s.buf.length + data.length - 1) / s.bufSize) s.bufSize) s.answers)
      (copyLoop turns data s) := by
  have hpos := hs.bufSize.1
  have hfits := hs.length_le
  induction turns generalizing data s with
  | zero =>
    obtain rfl := List.length_eq_zero_iff.mp (Nat.le_zero.mp hturns)
    rw [List.length_nil, Nat.div_eq_of_lt (by omega)]
    exact hs.outcome none id
  | succ turns ih =>
    cases data with
    | nil =>
      rw [List.length_nil, Nat.div_eq_of_lt (by omega)]
      exact hs.outcome none id
    | cons b data =>
      -- what is behind a turn that puts `n` bytes to the buffer of `s'`
      have hnext : ∀ (s' : Stream) (n : Nat), s'.Sound → s'.bufSize = s.bufSize → 0 < n → n ≤ data.length + 1 →
          s'.buf.length + n ≤ s.bufSize → Outcome (Interrupted (List.replicate
            ((s'.buf.length + (data.length + 1) - 1) / s.bufSize) s.bufSize) s'.answers)
            (copyLoop turns ((b :: data).drop n) (s'.put ((b :: data).take n))) := by
        intro s' n hs' hcap hn hle hroom
        have htake : ((b :: data).take n).length = n := by rw [List.length_take, List.length_cons, Nat.min_eq_left hle]
        have hdrop : ((b :: data).drop n).length = data.length + 1 - n := by rw [List.length_drop, List.length_cons]
        have hput := hs'.put ((b :: data).take n) (by rw [htake, hcap]; exact hroom)
        have hleft : ((b :: data).drop n).length ≤ turns := by
          rw [List.length_cons] at hturns
          omega
        have hout := ih hleft hput hput.bufSize.1 hput.length_le
        have hsum : (s'.put ((b :: data).take n)).buf.length + (data.length + 1 - n) = s'.buf.length + (data.length + 1) := by
          rw [Stream.put, List.length_append, htake]
          omega
        rw [hdrop, hsum] at hout
        rwa [show (s'.put ((b :: data).take n)).bufSize = s.bufSize from hcap] at hout
      rw [copyLoop, check, List.length_cons, Nat.one_mul]
      by_cases hfull : s.buf.length + (data.length + 1) > s.bufSize
      · rw [if_pos hfull]
        by_cases hnone : s.buf.length + 1 > s.bufSize
        · rw [if_pos hnone, overrun, if_neg (Nat.not_lt.mpr hpos)]
          have hbuf : s.buf.length = s.bufSize := by omega
          have hcount : (s.buf.length + (data.length + 1) - 1) / s.bufSize = data.length / s.bufSize + 1 := by
            rw [hbuf, ← Nat.add_assoc, Nat.add_sub_cancel, Nat.add_comm, Nat.add_div_right _ hpos]
          rw [hcount, List.replicate_succ, Interrupted, ← hbuf]
          rcases flush_spec hs with
            ⟨s', a, hflush, hdrain, hs', hbuf', hcap, rfl⟩ | ⟨s', stop, a, left, hflush, hdrain, hout⟩
          · have hout := hnext s' (if s'.bufSize < data.length + 1 then s'.bufSize else data.length + 1) hs' hcap
              (by split <;> omega) (by split <;> omega) (by rw [hbuf', List.length_nil]; split <;> omega)
            rw [hbuf', List.length_nil, Nat.zero_add, Nat.add_sub_cancel] at hout
            rw [hflush, hdrain, hbuf]
            simpa only [hbuf', List.length_nil, Nat.one_mul, Nat.sub_zero, Nat.div_one] using hout
          · rw [hflush, hdrain]
            exact hout
        · rw [if_neg hnone]
          exact hnext s _ hs rfl (by omega) (by omega) (by omega)
      · rw [if_neg hfull]
        exact hnext s _ hs rfl (Nat.succ_pos _) le_rfl (Nat.le_of_not_gt hfull)

theorem writeBytes_outcome {s : Stream} (hs : s.Sound) (data : List UInt8) :
    Outcome (Interrupted (s.flushes (.writeBytes data)) s.answers) (s.writeBytes data) := by
  rw [writeBytes, flushes]
  by_cases hbulk : data.length < minBulkSize
  · rw [if_pos hbulk, if_pos hbulk]
    exact copyLoop_outcome le_rfl hs
  · rw [if_neg hbulk, if_neg hbulk, Interrupted]
    rcases flush_spec hs with ⟨s', a, hflush, hdrain, hs', hbuf, -, -⟩ | ⟨s', stop, a, left, hflush, hdrain, hout⟩
    · rw [hflush, hdrain]
      dsimp only
      rw [send, sendLoop_eq]
      have hle := (drainLoop_left (s'.answers.writes.length + 1) data.length s'.answers).1
      generalize drainLoop (s'.answers.writes.length + 1) data.length s'.answers = d at hle ⊢
      have hsent : data.length - (data.drop (data.length - d.2.1)).length = data.length - d.2.1 := by
        rw [List.length_drop]
        omega
      have htake : (data.take (data.length - d.2.1)).length = data.length - d.2.1 := by
        rw [List.length_take]
        omega
      have hwritten := hs'.written
      rw [hbuf, List.append_nil] at hwritten
      dsimp only
      rw [hsent]
      refine Sound.outcome ?_ d.2.2 id
      refine ⟨hs'.bufSize, hs'.length_le, ?_, ?_⟩
      · dsimp only
        rw [hbuf, List.append_nil, hwritten]
      · dsimp only
        rw [hs'.offset, ← BitVec.ofNat_add, List.length_append, htake]
    · rw [hflush, hdrain]
      exact hout

theorem perform_outcome {s : Stream} (hs : s.Sound) (c : Call) :
    Outcome (Interrupted (s.flushes c) s.answers) (s.perform c) := by
  cases c with
  | item bs => exact writeItem_outcome hs bs
  | writeBytes data => exact writeBytes_outcome hs data
  | skip bs => exact copyLoop_outcome le_rfl hs
  | flush =>
    rw [perform, flushes, Interrupted]
    rcases flush_spec hs with ⟨s', a, hflush, hdrain, hs', -⟩ | ⟨s', stop, a, left, hflush, hdrain, hout⟩
    · rw [hflush, hdrain]
      exact hs'.outcome none id
    · rw [hflush, hdrain]
      exact hout

/-- What a call does to the stream is decided by whether one of its flushes is cut short. -/
theorem call_outcome {s : Stream} (hs : s.Sound) (hblocked : s.blocked = false) (c : Call) :
    ∃ stop, Outcome (Interrupted (s.flushes c) s.answers) (s.call c, stop) ∧
      ((s.call c).blocked = false ↔ stop ≠ some .blocked) := by
  have hout := perform_outcome hs c
  rw [call, hblocked, if_neg Bool.false_ne_true]
  refine ⟨(s.perform c).2, ⟨hout.twice, fun hwhole hstop => ?_, hout.blocked⟩, decide_eq_false_iff_not⟩
  obtain ⟨hcap, hlen, hwritten, hoffset⟩ := hout.sound hwhole hstop
  exact ⟨hcap, hlen, hwritten, hoffset⟩

/-- The condition of a call: the descriptor does not accept a part of what is flushed before an exception, and the bytes
that have been written can be counted. -/
def CanCall (s : Stream) (c : Call) : Prop :=
  s.blocked = false → ¬Interrupted (s.flushes c) s.answers ∧
    ((s.call c).blocked = false → (s.call c).written.length < 2 ^ 31)

/-- What holds between the calls of a run that meets the condition. -/
structure Counted (s : Stream) : Prop where
  accepted : s.accepted <+: s.written
  sound : s.blocked = false → s.Sound ∧ s.written.length < 2 ^ 31

theorem Counted.call {s : Stream} {c : Call} (hs : s.Counted) (hc : s.CanCall c) : (s.call c).Counted := by
  cases hblocked : s.blocked with
  | true =>
    rw [Stream.call, hblocked, if_pos rfl]
    exact hs
  | false =>
    obtain ⟨hwhole, hfits⟩ := hc hblocked
    obtain ⟨stop, hout, hback⟩ := call_outcome (hs.sound hblocked).1 hblocked c
    refine ⟨?_, fun h => ⟨hout.sound hwhole (hback.mp h), hfits h⟩⟩
    by_cases hstop : stop = some .blocked
    · exact hout.blocked hstop
    · rw [← (hout.sound hwhole hstop).written]
      exact List.prefix_append _ _

end Stream

end Colama.Vnc4.FdOutStream

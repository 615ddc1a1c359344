import Mathlib.Data.List.Basic
import Mathlib.Tactic

namespace Colama.Spice.Lz

inductive LzImageType
  | invalid | plt1Le | plt1Be | plt4Le | plt4Be | plt8 | rgb16 | rgb24 | rgb32 | rgba | xxxa
  deriving DecidableEq, Repr

namespace LzImageType

/-- The value of the C enumerator. -/
def code : LzImageType → Nat
  | invalid => 0
  | plt1Le => 1
  | plt1Be => 2
  | plt4Le => 3
  | plt4Be => 4
  | plt8 => 5
  | rgb16 => 6
  | rgb24 => 7
  | rgb32 => 8
  | rgba => 9
  | xxxa => 10

def ofCode : Nat → Option LzImageType
  | 0 => some invalid
  | 1 => some plt1Le
  | 2 => some plt1Be
  | 3 => some plt4Le
  | 4 => some plt4Be
  | 5 => some plt8
  | 6 => some rgb16
  | 7 => some rgb24
  | 8 => some rgb32
  | 9 => some rgba
  | 10 => some xxxa
  | _ => none

@[simp] theorem ofCode_code (t : LzImageType) : ofCode t.code = some t := by cases t <;> rfl

theorem code_lt (t : LzImageType) : t.code < 16 := by cases t <;> decide

def isPlt : LzImageType → Bool
  | plt1Le | plt1Be | plt4Le | plt4Be | plt8 => true
  | _ => false

def isRgb : LzImageType → Bool
  | rgb16 | rgb24 | rgb32 | rgba | xxxa => true
  | _ => false

def pltPixelsPerByte : LzImageType → Nat
  | plt1Le | plt1Be => 8
  | plt4Le | plt4Be => 2
  | plt8 => 1
  | _ => 0

def rgbBytesPerPixel : LzImageType → Nat
  | invalid => 0
  | plt1Le | plt1Be | plt4Le | plt4Be | plt8 => 1
  | rgb16 => 2
  | rgb24 => 3
  | rgb32 | rgba | xxxa => 4

end LzImageType

/-- `*(uint32_t *)"LZ  "` on a little endian host. -/
def lzMagic : Nat := 0x20205a4c

def lzVersion : Nat := (1 <<< 16) ||| 1

def lzImageTypeMask : Nat := 0x0f

def lzImageTypeLog : Nat := 4

/-- The call of `usr->error` that ended a run: it does not return. -/
inductive Error
  | noMoreBytes
  | assertFailed
  | strideOverflows
  | strideMismatch
  | moreLinesFailed
  | badImageType
  | badMagic
  | badVersion
  | unsupportedFormat
  | badDecodeSize
  /-- A pointer left the buffer it walks: undefined behaviour of the C code. -/
  | fault
  /-- A loop of the source did not end within the rounds that the model gives it. -/
  | outOfFuel
  deriving DecidableEq, Repr

theorem bind_eq_ok {α β : Type} {x : Except Error α} {f : α → Except Error β} {b : β} :
    (x >>= f) = .ok b ↔ ∃ a, x = .ok a ∧ f a = .ok b := by
  cases x with
  | error e =>
    constructor
    · intro h
      cases h
    · rintro ⟨_, h, _⟩
      cases h
  | ok a =>
    constructor
    · intro h
      exact ⟨a, rfl, h⟩
    · rintro ⟨_, h, h'⟩
      cases h
      exact h'

/-- Lines that an encoder is called with or that `more_lines` returns. -/
structure Chunk where
  numLines : Nat
  lines : List UInt8

/-- The output side of an encoder: `done` are the buffers left behind (each of them full),
`cur` the bytes before `io_now` in the current one and `room` is `io_end - io_now`. -/
structure Io where
  done : List UInt8
  cur : List UInt8
  room : Nat
  calls : Nat
  bytesCount : Nat
  lastCopy : Option Nat
  count_eq : bytesCount = done.length + cur.length + room

namespace Io

def bytes (io : Io) : List UInt8 := io.done ++ io.cur

/-- `encoder_reset` on a first buffer of `n` bytes. -/
def reset (n : Nat) : Io where
  done := []
  cur := []
  room := n
  calls := 0
  bytesCount := n
  lastCopy := none
  count_eq := by simp

@[simp] theorem bytes_reset (n : Nat) : (reset n).bytes = [] := rfl

/-- `space k` is the size of the buffer that the `k`-th call of `more_space` returns. -/
def moreIoBytes (space : Nat → Nat) (io : Io) (h : io.room = 0) : Io where
  done := io.done ++ io.cur
  cur := []
  room := space io.calls
  calls := io.calls + 1
  bytesCount := io.bytesCount + space io.calls
  lastCopy := io.lastCopy
  count_eq := by simp [io.count_eq, h]

def put (io : Io) (byte : UInt8) (h : 0 < io.room) : Io where
  done := io.done
  cur := io.cur ++ [byte]
  room := io.room - 1
  calls := io.calls
  bytesCount := io.bytesCount
  lastCopy := io.lastCopy
  count_eq := by rw [io.count_eq, List.length_append, List.length_singleton]; omega

/-- `*io_last_copy = byte`, where `i` counts from the start of the first buffer. -/
def setByte (io : Io) (i : Nat) (byte : UInt8) : Io where
  done := io.done.set i byte
  cur := if i < io.done.length then io.cur else io.cur.set (i - io.done.length) byte
  room := io.room
  calls := io.calls
  bytesCount := io.bytesCount
  lastCopy := io.lastCopy
  count_eq := by rw [io.count_eq, List.length_set]; split <;> simp

/-- `io_now--`. -/
def back (io : Io) (h : io.cur ≠ []) : Io where
  done := io.done
  cur := io.cur.dropLast
  room := io.room + 1
  calls := io.calls
  bytesCount := io.bytesCount
  lastCopy := io.lastCopy
  count_eq := by
    have := List.length_pos_of_ne_nil h
    rw [io.count_eq, List.length_dropLast]
    omega

@[simp] theorem bytes_setByte (io : Io) (i : Nat) (byte : UInt8) :
    (io.setByte i byte).bytes = io.bytes.set i byte := by
  simp only [bytes, setByte, List.set_append]
  split
  · rfl
  · rw [List.set_eq_of_length_le (by omega)]

@[simp] theorem bytes_back (io : Io) (h : io.cur ≠ []) : (io.back h).bytes = io.bytes.dropLast := by
  simp only [bytes, back, List.dropLast_append_of_ne_nil h]

end Io

variable (space : Nat → Nat)

def encode (byte : UInt8) (io : Io) : Except Error Io :=
  if h : io.room = 0 then
    if h' : space io.calls = 0 then .error .noMoreBytes
    else .ok ((io.moreIoBytes space h).put byte (Nat.pos_of_ne_zero h'))
  else .ok (io.put byte (Nat.pos_of_ne_zero h))

def encode32 (word : Nat) (io : Io) : Except Error Io := do
  let io ← encode space (UInt8.ofNat (word / 2 ^ 24)) io
  let io ← encode space (UInt8.ofNat (word / 2 ^ 16)) io
  let io ← encode space (UInt8.ofNat (word / 2 ^ 8)) io
  encode space (UInt8.ofNat word) io

def encodeBytes : List UInt8 → Io → Except Error Io
  | [], io => .ok io
  | b :: bs, io => do encodeBytes bs (← encode space b io)

def encodeCopyCount (copyCount : UInt8) (io : Io) : Except Error Io := do
  let io ← encode space copyCount io
  .ok { io with lastCopy := some (io.bytes.length - 1) }

def updateCopyCount (copyCount : UInt8) (io : Io) : Except Error Io :=
  match io.lastCopy with
  | none => .error .assertFailed
  | some i => .ok (io.setByte i copyCount)

def compressOutputPrev (io : Io) : Except Error Io :=
  if h : io.cur = [] then .error .fault
  else if io.lastCopy = some (io.bytes.length - 1) then .ok (io.back h)
  else .error .assertFailed

/-- The bytes of `encode_32`, most significant first. -/
def be32 (word : Nat) : List UInt8 :=
  [.ofNat (word / 2 ^ 24), .ofNat (word / 2 ^ 16), .ofNat (word / 2 ^ 8), .ofNat word]

/-- `f` only appends `bs` to the stream, whatever the buffers are. -/
def Writes (f : Io → Except Error Io) (bs : List UInt8) : Prop :=
  ∀ io, ∃ io', f io = .ok io' ∧ io'.bytes = io.bytes ++ bs ∧ io'.lastCopy = io.lastCopy ∧
    (io.cur ≠ [] ∨ bs ≠ [] → io'.cur ≠ [])

variable {space}

theorem encode_writes (hs : ∀ k, 0 < space k) (b : UInt8) : Writes (encode space b) [b] := by
  intro io
  by_cases h : io.room = 0
  · have h' : space io.calls ≠ 0 := (hs _).ne'
    refine ⟨(io.moreIoBytes space h).put b (hs _), by rw [encode, dif_pos h, dif_neg h'], ?_, rfl, ?_⟩
    · simp [Io.bytes, Io.put, Io.moreIoBytes]
    · simp [Io.put]
  · refine ⟨io.put b (Nat.pos_of_ne_zero h), by rw [encode, dif_neg h], ?_, rfl, ?_⟩
    · simp [Io.bytes, Io.put]
    · simp [Io.put]

theorem Writes.bind {f g : Io → Except Error Io} {bs cs : List UInt8}
    (hf : Writes f bs) (hg : Writes g cs) : Writes (fun io => f io >>= g) (bs ++ cs) := by
  intro io
  obtain ⟨io₁, e₁, b₁, l₁, c₁⟩ := hf io
  obtain ⟨io₂, e₂, b₂, l₂, c₂⟩ := hg io₁
  refine ⟨io₂, by simp only [e₁]; exact e₂, by simp [b₂, b₁], l₂.trans l₁, ?_⟩
  rintro (h | h)
  · exact c₂ (.inl (c₁ (.inl h)))
  · by_cases hc : cs = []
    · exact c₂ (.inl (c₁ (.inr (by simpa [hc] using h))))
    · exact c₂ (.inr hc)

theorem encode32_writes (hs : ∀ k, 0 < space k) (w : Nat) : Writes (encode32 space w) (be32 w) :=
  (encode_writes hs _).bind ((encode_writes hs _).bind
    ((encode_writes hs _).bind (encode_writes hs _)))

theorem encodeBytes_writes (hs : ∀ k, 0 < space k) (bs : List UInt8) :
    Writes (encodeBytes space bs) bs := by
  induction bs with
  | nil => exact fun io => ⟨io, rfl, by simp, rfl, by simp⟩
  | cons b bs ih => exact (encode_writes hs b).bind ih

/-- The copy count is written but the literals it counts are still coming: `s` precedes it and
`lits` follow it. -/
structure Pending (io : Io) (s lits : List UInt8) : Prop where
  bytes_eq : io.bytes = s ++ 31 :: lits
  lastCopy_eq : io.lastCopy = some s.length
  cur_ne : io.cur ≠ []

variable {io : Io} {s lits : List UInt8}

theorem encodeCopyCount_pending (hs : ∀ k, 0 < space k) (io : Io) :
    ∃ io', encodeCopyCount space 31 io = .ok io' ∧ Pending io' io.bytes [] := by
  obtain ⟨io₁, e₁, b₁, -, c₁⟩ := encode_writes hs 31 io
  refine ⟨{ io₁ with lastCopy := some (io₁.bytes.length - 1) }, by rw [encodeCopyCount, e₁]; rfl,
    b₁, ?_, c₁ (.inr (by simp))⟩
  simp [b₁]

theorem Pending.encodeBytes (hs : ∀ k, 0 < space k) (h : Pending io s lits) (bs : List UInt8) :
    ∃ io', encodeBytes space bs io = .ok io' ∧ Pending io' s (lits ++ bs) := by
  obtain ⟨io₁, e₁, b₁, l₁, c₁⟩ := encodeBytes_writes hs bs io
  exact ⟨io₁, e₁, by simp [b₁, h.bytes_eq], l₁.trans h.lastCopy_eq, c₁ (.inl h.cur_ne)⟩

theorem Pending.updateCopyCount (h : Pending io s lits) (c : UInt8) :
    ∃ io', updateCopyCount c io = .ok io' ∧ io'.bytes = s ++ c :: lits := by
  refine ⟨io.setByte s.length c, by rw [Lz.updateCopyCount, h.lastCopy_eq], ?_⟩
  simp [h.bytes_eq]

theorem Pending.compressOutputPrev (h : Pending io s []) :
    ∃ io', compressOutputPrev io = .ok io' ∧ io'.bytes = s := by
  refine ⟨io.back h.cur_ne, ?_, by simp [h.bytes_eq]⟩
  rw [Lz.compressOutputPrev, dif_neg h.cur_ne, if_pos (by simp [h.lastCopy_eq, h.bytes_eq])]

/-- The input side of a decoder: the bytes from `io_now` on in the current buffer, and the buffers
that `more_space` will return. -/
structure In where
  cur : List UInt8
  more : List (List UInt8)

def In.bytes (i : In) : List UInt8 := i.cur ++ i.more.flatten

def decode : In → Except Error (UInt8 × In)
  | ⟨b :: cur, more⟩ => .ok (b, ⟨cur, more⟩)
  | ⟨[], (b :: cur) :: more⟩ => .ok (b, ⟨cur, more⟩)
  | ⟨[], _⟩ => .error .noMoreBytes

def decodeBytes : Nat → In → Except Error (List UInt8 × In)
  | 0, i => .ok ([], i)
  | n + 1, i => do
    let (b, i) ← decode i
    let (bs, i) ← decodeBytes n i
    .ok (b :: bs, i)

def decode32 (i : In) : Except Error (Nat × In) := do
  let (a, i) ← decode i
  let (b, i) ← decode i
  let (c, i) ← decode i
  let (d, i) ← decode i
  .ok (((a.toNat * 256 + b.toNat) * 256 + c.toNat) * 256 + d.toNat, i)

def isIoToDecodeEnd : In → Bool
  | ⟨[], []⟩ => true
  | ⟨[], c :: _⟩ => c.isEmpty
  | _ => false

/-- Input from buffers that `more_space` returns with at least one byte each. -/
def In.Full (i : In) : Prop := ∀ c ∈ i.more, c ≠ []

variable {i : In} {b : UInt8} {bs r : List UInt8}

theorem decode_cons (hf : i.Full) (h : i.bytes = b :: r) :
    ∃ i', decode i = .ok (b, i') ∧ i'.bytes = r ∧ i'.Full := by
  match i, h with
  | ⟨c :: cur, more⟩, h =>
    obtain ⟨rfl, h'⟩ := List.cons_eq_cons.mp h
    exact ⟨⟨cur, more⟩, rfl, h', hf⟩
  | ⟨[], (c :: cur) :: more⟩, h =>
    obtain ⟨rfl, h'⟩ := List.cons_eq_cons.mp h
    exact ⟨⟨cur, more⟩, rfl, h', fun d hd => hf d (List.mem_cons_of_mem _ hd)⟩
  | ⟨[], [] :: more⟩, _ => exact absurd rfl (hf [] List.mem_cons_self)

theorem decode_nil (h : i.bytes = []) : decode i = .error .noMoreBytes := by
  match i, h with
  | ⟨[], []⟩, _ => rfl
  | ⟨[], [] :: _⟩, _ => rfl

theorem decodeBytes_append (hf : i.Full) (h : i.bytes = bs ++ r) :
    ∃ i', decodeBytes bs.length i = .ok (bs, i') ∧ i'.bytes = r ∧ i'.Full := by
  induction bs generalizing i with
  | nil => exact ⟨i, rfl, h, hf⟩
  | cons b bs ih =>
    obtain ⟨i₁, e₁, h₁, f₁⟩ := decode_cons hf h
    obtain ⟨i₂, e₂, h₂, f₂⟩ := ih f₁ h₁
    refine ⟨i₂, ?_, h₂, f₂⟩
    rw [List.length_cons, decodeBytes, e₁]
    change (decodeBytes bs.length i₁ >>= _) = _
    rw [e₂]
    rfl

theorem decode32_be32 {w : Nat} (hw : w < 2 ^ 32) (hf : i.Full) (h : i.bytes = be32 w ++ r) :
    ∃ i', decode32 i = .ok (w, i') ∧ i'.bytes = r ∧ i'.Full := by
  obtain ⟨i₁, e₁, h₁, f₁⟩ := decode_cons hf h
  obtain ⟨i₂, e₂, h₂, f₂⟩ := decode_cons f₁ h₁
  obtain ⟨i₃, e₃, h₃, f₃⟩ := decode_cons f₂ h₂
  obtain ⟨i₄, e₄, h₄, f₄⟩ := decode_cons f₃ h₃
  refine ⟨i₄, ?_, h₄, f₄⟩
  simp only [decode32, e₁, e₂, e₃, e₄, bind, Except.bind, UInt8.toNat_ofNat']
  congr 2
  omega

theorem isIoToDecodeEnd_iff (hf : i.Full) : isIoToDecodeEnd i = true ↔ i.bytes = [] := by
  match i with
  | ⟨b :: cur, more⟩ => simp [isIoToDecodeEnd, In.bytes]
  | ⟨[], []⟩ => simp [isIoToDecodeEnd, In.bytes]
  | ⟨[], [] :: more⟩ => exact absurd rfl (hf [] List.mem_cons_self)
  | ⟨[], (c :: cs) :: more⟩ => simp [isIoToDecodeEnd, In.bytes]

end Colama.Spice.Lz

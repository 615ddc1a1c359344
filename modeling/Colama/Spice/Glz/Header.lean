import Colama.Spice.Lz.Common

namespace Colama.Spice.Glz

open Lz

/-- What `glz_encode` knows when it writes the header: `id` is the 64-bit counter of the shared
dictionary and `winHeadImageDist` the distance that `glz_dictionary_pre_encode` returned. -/
structure EncodedHeader where
  type : LzImageType
  topDown : Int32
  width : Int32
  height : Int32
  stride : Int32
  id : UInt64
  winHeadImageDist : UInt32

variable (space : Nat → Nat)

/-- The low word is masked with `0xffffff`, as in the source. -/
def encode64 (word : Nat) (io : Io) : Except Error Io := do
  let io ← encode32 space (word / 2 ^ 32) io
  encode32 space (word % 2 ^ 24) io

def typeByte (h : EncodedHeader) : UInt8 :=
  if h.topDown ≠ 0 then .ofNat ((h.type.code &&& lzImageTypeMask) ||| (1 <<< lzImageTypeLog))
  else .ofNat (h.type.code &&& lzImageTypeMask)

def encodeHeader (h : EncodedHeader) (io : Io) : Except Error Io := do
  let io ← encode32 space lzMagic io
  let io ← encode32 space lzVersion io
  let io ← encode space (typeByte h) io
  let io ← encode32 space h.width.toUInt32.toNat io
  let io ← encode32 space h.height.toUInt32.toNat io
  let io ← encode32 space h.stride.toUInt32.toNat io
  let io ← encode64 space h.id.toNat io
  encode32 space h.winHeadImageDist.toNat io

/-- `GlzDecoder::_image` and the warnings that `decode_header` gave. -/
structure DecodedHeader where
  type : LzImageType
  topDown : Bool
  width : Int32
  height : Int32
  grossPixels : Int32
  id : UInt64
  winHeadDist : Int32
  warnings : List String

/-- A read through `_in_now`; reading behind the data is undefined, hence `none`. -/
def next : List UInt8 → Option (UInt8 × List UInt8)
  | [] => none
  | b :: bs => some (b, bs)

@[simp] theorem next_cons (b : UInt8) (bs : List UInt8) : next (b :: bs) = some (b, bs) := rfl

def decode32 (bs : List UInt8) : Option (Nat × List UInt8) := do
  let (b₃, bs) ← next bs
  let (b₂, bs) ← next bs
  let (b₁, bs) ← next bs
  let (b₀, bs) ← next bs
  return (((b₃.toNat * 2 ^ 8 + b₂.toNat) * 2 ^ 8 + b₁.toNat) * 2 ^ 8 + b₀.toNat, bs)

def decode64 (bs : List UInt8) : Option (Nat × List UInt8) := do
  let (hi, bs) ← decode32 bs
  let (lo, bs) ← decode32 bs
  return (hi * 2 ^ 32 + lo, bs)

def decodeHeader (bs : List UInt8) : Option (DecodedHeader × List UInt8) := do
  let (magic, bs) ← decode32 bs
  let (version, bs) ← decode32 bs
  let (tmp, bs) ← next bs
  let type ← LzImageType.ofCode (tmp.toNat &&& lzImageTypeMask)
  let (width, bs) ← decode32 bs
  let (height, bs) ← decode32 bs
  let (stride, bs) ← decode32 bs
  let (id, bs) ← decode64 bs
  let (dist, bs) ← decode32 bs
  let gross :=
    if type.isPlt then Int32.ofNat stride * .ofNat type.pltPixelsPerByte * .ofNat height
    else .ofNat width * .ofNat height
  return ({
    type
    topDown := tmp.toNat >>> lzImageTypeLog ≠ 0
    width := .ofNat width
    height := .ofNat height
    grossPixels := gross
    id := .ofNat id
    winHeadDist := .ofNat dist
    warnings := (if magic ≠ lzMagic then ["bad magic\n"] else []) ++
      if version ≠ lzVersion then ["bad version\n"] else [] }, bs)

def headerBytes (h : EncodedHeader) : List UInt8 :=
  be32 lzMagic ++ (be32 lzVersion ++ ([typeByte h] ++ (be32 h.width.toUInt32.toNat ++
    (be32 h.height.toUInt32.toNat ++ (be32 h.stride.toUInt32.toNat ++
      ((be32 (h.id.toNat / 2 ^ 32) ++ be32 (h.id.toNat % 2 ^ 24)) ++
        be32 h.winHeadImageDist.toNat))))))

theorem encodeHeader_writes {space : Nat → Nat} (hs : ∀ k, 0 < space k) (h : EncodedHeader) :
    Writes (encodeHeader space h) (headerBytes h) :=
  have w32 := encode32_writes hs
  (w32 _).bind ((w32 _).bind ((encode_writes hs _).bind ((w32 _).bind ((w32 _).bind ((w32 _).bind
    (((w32 _).bind (w32 _)).bind (w32 _)))))))

@[simp] theorem decode32_be32 (w : Nat) (rest : List UInt8) :
    decode32 (be32 w ++ rest) = some (w % 2 ^ 32, rest) := by
  simp only [decode32, be32, next, List.cons_append, List.nil_append, Option.bind_eq_bind,
    Option.bind_some, Option.pure_def, UInt8.toNat_ofNat']
  congr 2
  omega

@[simp] theorem decode64_be32 (a b : Nat) (rest : List UInt8) :
    decode64 (be32 a ++ (be32 b ++ rest)) = some (a % 2 ^ 32 * 2 ^ 32 + b % 2 ^ 32, rest) := by
  simp [decode64]

theorem ofCode_typeByte (h : EncodedHeader) :
    LzImageType.ofCode ((typeByte h).toNat &&& lzImageTypeMask) = some h.type := by
  unfold typeByte
  cases h.type <;> split <;> rfl

theorem topDown_typeByte (h : EncodedHeader) :
    decide ((typeByte h).toNat >>> lzImageTypeLog ≠ 0) = decide (h.topDown ≠ 0) := by
  unfold typeByte
  cases h.type <;> split <;> simp_all <;> decide

theorem ofNat_toNat_uInt32 (x : UInt32) : Int32.ofNat (x.toNat % 2 ^ 32) = x.toInt32 := by
  rw [Nat.mod_eq_of_lt x.toNat_lt]
  apply Int32.toBitVec_inj.mp
  simp

/-- The id as the client sees it: bits 24 to 31 of the counter are gone. -/
def readId (id : UInt64) : UInt64 := .ofNat (id.toNat / 2 ^ 32 * 2 ^ 32 + id.toNat % 2 ^ 24)

theorem decodeHeader_headerBytes (h : EncodedHeader) (rest : List UInt8) :
    ∃ gross, decodeHeader (headerBytes h ++ rest) = some ({
      type := h.type
      topDown := h.topDown ≠ 0
      width := h.width
      height := h.height
      grossPixels := gross
      id := readId h.id
      winHeadDist := h.winHeadImageDist.toInt32
      warnings := [] }, rest) := by
  refine ⟨if h.type.isPlt then h.stride * .ofNat h.type.pltPixelsPerByte * h.height
    else h.width * h.height, ?_⟩
  simp only [decodeHeader, headerBytes, List.append_assoc, decode32_be32, decode64_be32,
    Option.bind_eq_bind, Option.bind_some, List.cons_append, List.nil_append, next_cons,
    ofCode_typeByte, Option.pure_def, topDown_typeByte, readId, ofNat_toNat_uInt32]
  have hi : h.id.toNat / 2 ^ 32 % 2 ^ 32 = h.id.toNat / 2 ^ 32 := by
    have := h.id.toNat_lt
    omega
  have lo : h.id.toNat % 2 ^ 24 % 2 ^ 32 = h.id.toNat % 2 ^ 24 := by omega
  rw [hi, lo]
  rfl

/-- The header survives the trip: whatever buffers `glz_encode` writes it into and whatever
follows it, `decode_header` finds the values that were written and stops behind them. -/
def ReadsBack (h : EncodedHeader) : Prop :=
  ∀ (space : Nat → Nat) (n : Nat) (rest : List UInt8), (∀ k, 0 < space k) →
    ∃ io d, encodeHeader space h (.reset n) = .ok io ∧
      decodeHeader (io.bytes ++ rest) = some (d, rest) ∧
      d.type = h.type ∧ d.topDown = decide (h.topDown ≠ 0) ∧ d.width = h.width ∧
      d.height = h.height ∧ d.id = h.id ∧ d.winHeadDist.toInt = h.winHeadImageDist.toNat

theorem readsBack_of_eq {h : EncodedHeader} (hid : readId h.id = h.id)
    (hd : h.winHeadImageDist.toInt32.toInt = h.winHeadImageDist.toNat) : ReadsBack h := by
  intro space n rest hs
  obtain ⟨io, e, b, -, -⟩ := encodeHeader_writes hs h (.reset n)
  obtain ⟨gross, hdec⟩ := decodeHeader_headerBytes h rest
  rw [← List.nil_append (headerBytes h), ← Io.bytes_reset n, ← b] at hdec
  exact ⟨io, _, e, hdec, rfl, rfl, rfl, rfl, hid, hd⟩

theorem ReadsBack.eq {h : EncodedHeader} (hr : ReadsBack h) :
    readId h.id = h.id ∧ h.winHeadImageDist.toInt32.toInt = h.winHeadImageDist.toNat := by
  have hs : ∀ k, 0 < (fun _ : Nat => 1) k := fun _ => one_pos
  obtain ⟨io, d, e, hdec, -, -, -, -, hid, hd⟩ := hr (fun _ => 1) 0 [] hs
  obtain ⟨io', e', b, -, -⟩ := encodeHeader_writes hs h (.reset 0)
  obtain ⟨gross, hdec'⟩ := decodeHeader_headerBytes h []
  obtain rfl : io = io' := by simpa [e] using e'
  rw [b, Io.bytes_reset, List.nil_append, hdec'] at hdec
  obtain rfl := (Prod.mk.inj (Option.some.inj hdec)).1
  exact ⟨hid, hd⟩

theorem readId_eq_iff (id : UInt64) : readId id = id ↔ id.toNat / 2 ^ 24 % 2 ^ 8 = 0 := by
  rw [← UInt64.toNat_inj, readId, UInt64.toNat_ofNat']
  have := id.toNat_lt
  omega

theorem toInt_toInt32_eq_iff (x : UInt32) : x.toInt32.toInt = x.toNat ↔ x.toNat < 2 ^ 31 := by
  have hx := x.toNat_lt
  change x.toBitVec.toInt = x.toNat ↔ _
  rw [BitVec.toInt_eq_toNat_cond, UInt32.toNat_toBitVec]
  split <;> omega

theorem readsBack_iff (h : EncodedHeader) :
    ReadsBack h ↔ h.id.toNat / 2 ^ 24 % 2 ^ 8 = 0 ∧ h.winHeadImageDist.toNat < 2 ^ 31 := by
  rw [← readId_eq_iff, ← toInt_toInt32_eq_iff]
  exact ⟨ReadsBack.eq, fun ⟨hid, hd⟩ => readsBack_of_eq hid hd⟩

/-- The first image whose id needs bit 24 comes back as image 0. -/
theorem not_readsBack_id_two_pow_24 :
    ¬ ReadsBack ⟨.rgb32, 1, 1, 1, 4, 0x1000000, 0⟩ := by
  intro h
  exact absurd ((readId_eq_iff _).mp h.eq.1) (by decide)

end Colama.Spice.Glz

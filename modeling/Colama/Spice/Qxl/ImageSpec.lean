import Mathlib
import Colama.Spice.Qxl.Image

namespace Colama.Spice.Qxl

open Memslots DataChunks Lib

/-- Where the byte at a place in the data of the chunks is. -/
def byteAt : List SpiceChunk → Nat → Option UInt64
  | [], _ => none
  | c :: cs, k => if k < c.len.toNat then some (c.data + UInt64.ofNat k) else byteAt cs (k - c.len.toNat)

def chunkBytes (cs : List SpiceChunk) : Nat := (cs.map (·.len.toNat)).sum

theorem exists_byteAt {cs : List SpiceChunk} {k : Nat} (h : k < chunkBytes cs) :
    ∃ c ∈ cs, ∃ i < c.len.toNat, byteAt cs k = some (c.data + UInt64.ofNat i) := by
  induction cs generalizing k with
  | nil => exact absurd h (Nat.not_lt_zero k)
  | cons c cs ih =>
    by_cases hk : k < c.len.toNat
    · exact ⟨c, List.mem_cons_self, k, hk, if_pos hk⟩
    · rw [chunkBytes, List.map_cons, List.sum_cons] at h
      have hrest : k - c.len.toNat < chunkBytes cs := by
        rw [chunkBytes]
        omega
      obtain ⟨c', hc', i, hi, hb⟩ := ih hrest
      exact ⟨c', List.mem_cons_of_mem c hc', i, hi, (if_neg hk).trans hb⟩

/-- `|stride|`, as a number of bytes. -/
def lineBytes (stride : UInt32) : Nat := stride.toInt32.toInt.natAbs

theorem toNat_absStride (stride : UInt32) : (absStride stride).toNat = lineBytes stride := by
  have hlt := stride.toNat_lt
  have hint : stride.toInt32.toInt = if 2 * stride.toNat < 2 ^ 32 then (stride.toNat : Int) else stride.toNat - 2 ^ 32 :=
    BitVec.toInt_eq_toNat_cond stride.toBitVec
  by_cases hneg : 2 * stride.toNat < 2 ^ 32
  · rw [if_pos hneg] at hint
    have hle : ¬ stride.toInt32 < 0 := by
      rw [Int32.lt_iff_toInt_lt, hint]
      exact Int.not_lt.mpr (Int.natCast_nonneg _)
    rw [absStride, if_neg hle, lineBytes, hint, Int.natAbs_natCast]
  · rw [if_neg hneg] at hint
    have hlt0 : stride.toInt32 < 0 := by
      rw [Int32.lt_iff_toInt_lt, hint, Int32.toInt_zero]
      omega
    rw [absStride, if_pos hlt0, lineBytes, hint, UInt32.toNat_sub, UInt32.toNat_zero]
    omega

/-- The bytes of the lines of the bitmap. -/
def bitmapBytes (y stride : UInt32) : Nat := y.toNat * lineBytes stride

theorem toNat_bitmapSize (y stride : UInt32) : (bitmapSize y stride).toNat = bitmapBytes y stride % 2 ^ 32 := by
  rw [bitmapSize, UInt32.toNat_toUInt64, UInt32.toNat_mul, toNat_absStride, bitmapBytes]

structure Exact (info : RedMemSlotInfo) (groupId : Int32) (b : SpiceBitmap) : Prop where
  validated : ∀ c ∈ b.data.chunk, InSlot info groupId ⟨c.len, c.data⟩
  chunks : chunkBytes b.data.chunk = bitmapBytes b.y b.stride
  dataSize : b.data.dataSize.toNat = bitmapBytes b.y b.stride
  readable : ∀ k < bitmapBytes b.y b.stride,
    ∃ c ∈ b.data.chunk, ∃ i < c.len.toNat, byteAt b.data.chunk k = some (c.data + UInt64.ofNat i)

variable {info : RedMemSlotInfo} {host : HostMemory} {groupId : Int32}

/-- The sizes of as many of the chunks as a 32-bit count of them says. -/
def countedSize (mem : UInt64 → ChunkFields) (l : List UInt64) : Nat := totalSize mem (l.take (UInt32.ofNat l.length).toNat)

/-- The product stays below 2^32, and what the chunks hold is not lost in a counter that wraps around. -/
structure SizeFits (info : RedMemSlotInfo) (host : HostMemory) (groupId : Int32) (qxl : UInt64) : Prop where
  product : bitmapBytes (host.u32 (qxl + 24)) (host.u32 (qxl + 28)) < 2 ^ 32
  counted : host (qxl + 19) &&& qxlBitmapDirect = 0 → ∀ head l,
    getVirt info (host.u64 (qxl + 40)) sizeofDataChunk groupId = .ok head → Chain info host.chunks groupId head l →
    countedSize host.chunks (head :: l) = totalSize host.chunks (head :: l) % 2 ^ 64

theorem follow_of_last {mem : UInt64 → ChunkFields} {qxl : UInt64} (h : (mem qxl).nextChunk = 0) :
    follow info mem groupId qxl = none := if_pos h

theorem chain_unique {mem : UInt64 → ChunkFields} {qxl : UInt64} {l l' : List UInt64}
    (h : Chain info mem groupId qxl l) (h' : Chain info mem groupId qxl l') : l = l' := by
  induction h generalizing l' with
  | last h0 =>
    cases h' with
    | last => rfl
    | next hf => rw [follow_of_last h0] at hf; cases hf
  | next hf _ ih =>
    cases h' with
    | last h0 => rw [follow_of_last h0] at hf; cases hf
    | next hf' hl' =>
      rw [hf, Option.some.injEq] at hf'
      subst hf'
      rw [ih hl']

theorem toNat_sum_dataSize (l : List RedDataChunk) :
    (l.map RedDataChunk.dataSize).sum.toNat = (l.map fun c => c.dataSize.toNat).sum % 2 ^ 32 := by
  induction l with
  | nil => rfl
  | cons c l ih =>
    rw [List.map_cons, List.sum_cons, UInt32.toNat_add, ih, List.map_cons, List.sum_cons]
    omega

/-- The chunks of a chain as they are taken over. -/
def chainChunks (mem : UInt64 → ChunkFields) (l : List UInt64) : SpiceChunks := redGetImageDataChunked (l.map (chunkAt mem))

section ChainChunks

variable (mem : UInt64 → ChunkFields) (l : List UInt64)

theorem chunkBytes_chainChunks : chunkBytes (chainChunks mem l).chunk = countedSize mem l := by
  simp [chunkBytes, chainChunks, redGetImageDataChunked, countedSize, totalSize, chunkAt, ← List.map_take, Function.comp_def]

theorem dataSize_chainChunks : (chainChunks mem l).dataSize.toNat = countedSize mem l % 2 ^ 32 := by
  rw [chainChunks, redGetImageDataChunked, toNat_sum_dataSize]
  simp [countedSize, totalSize, chunkAt, ← List.map_take, Function.comp_def]

theorem inSlot_chainChunks (h : ∀ chunk ∈ l.map (chunkAt mem), InSlot info groupId chunk) :
    ∀ c ∈ (chainChunks mem l).chunk, InSlot info groupId ⟨c.len, c.data⟩ := by
  intro c hc
  obtain ⟨chunk, hchunk, rfl⟩ := List.mem_map.mp hc
  exact h chunk (List.mem_of_mem_take hchunk)

end ChainChunks

theorem redGetBitmapData_direct {qxlFlags : UInt8} {data bitmapSize : UInt64} {rounds : Nat} {cs : SpiceChunks}
    (hd : qxlFlags &&& qxlBitmapDirect ≠ 0)
    (h : redGetBitmapData info host groupId qxlFlags data bitmapSize rounds = pure cs) :
    ∃ virt, cs = ⟨bitmapSize.toUInt32, 0, [⟨virt, bitmapSize.toUInt32⟩]⟩ ∧
      InSlot info groupId ⟨bitmapSize.toUInt32, virt⟩ := by
  rw [redGetBitmapData, if_pos hd] at h
  obtain ⟨virt, hv, h⟩ := Parse.bind_eq_pure.mp h
  rw [Parse.checked_eq_pure] at hv
  exact ⟨virt, (Parse.pure_inj.mp h).symm, inSlot_of_getVirt hv⟩

theorem redGetBitmapData_chunked {qxlFlags : UInt8} {data bitmapSize : UInt64} {rounds : Nat} {cs : SpiceChunks}
    (hd : qxlFlags &&& qxlBitmapDirect = 0)
    (h : redGetBitmapData info host groupId qxlFlags data bitmapSize rounds = pure cs) :
    ∃ head l, getVirt info data sizeofDataChunk groupId = .ok head ∧ Chain info host.chunks groupId head l ∧
      cs = chainChunks host.chunks (head :: l) ∧ totalSize host.chunks (head :: l) % 2 ^ 64 = bitmapSize.toNat ∧
      ∀ chunk ∈ (head :: l).map (chunkAt host.chunks), InSlot info groupId chunk := by
  rw [redGetBitmapData, if_neg (not_not.mpr hd)] at h
  obtain ⟨r, hr, h⟩ := Parse.bind_eq_pure.mp h
  obtain ⟨u, ha, h⟩ := Parse.bind_eq_pure.mp h
  obtain ⟨head, hhead, hr⟩ := Parse.bind_eq_pure.mp hr
  rw [Parse.looping_eq_pure] at hr
  rw [Parse.checked_eq_pure] at hhead
  rw [Parse.assert_eq_pure] at ha
  obtain ⟨l, hl, hchunks, hsize, hall⟩ := redGetDataChunksPtr_eq_ok hr
  refine ⟨head, l, hhead, hl, ?_, ?_, ?_⟩
  · rw [chainChunks, ← hchunks]
    exact (Parse.pure_inj.mp h).symm
  · rw [← hsize, ha]
  · rwa [← hchunks]

theorem redGetImageData_bitmap {type : UInt8} {addr qxl : UInt64} {rounds : Nat} {b : SpiceBitmap}
    (h : redGetImageData info host groupId type addr qxl rounds = pure (.bitmap b)) :
    redGetBitmap info host groupId qxl rounds = pure b := by
  rw [redGetImageData] at h
  split at h
  · rw [map_eq_pure_bind] at h
    obtain ⟨b', hb', h⟩ := Parse.bind_eq_pure.mp h
    cases h
    exact hb'
  · split at h
    · cases h
    · split at h
      · obtain ⟨r, -, h⟩ := Parse.bind_eq_pure.mp h
        obtain ⟨u, -, h⟩ := Parse.bind_eq_pure.mp h
        cases h
      · cases h

/-- What is read from the image at an address, and the call that gets its data. -/
theorem redGetImage_bitmap {addr : UInt64} {rounds : Nat} {d : SpiceImageDescriptor} {b : SpiceBitmap}
    (h : redGetImage info host groupId addr rounds = pure (some ⟨d, .bitmap b⟩)) :
    ∃ qxl cs, getVirt info addr sizeofImage groupId = .ok qxl ∧ b.y = host.u32 (qxl + 24) ∧
      b.stride = host.u32 (qxl + 28) ∧ b.data.chunk = cs.chunk ∧ b.data.dataSize = cs.dataSize ∧
      redGetBitmapData info host groupId (host (qxl + 19)) (host.u64 (qxl + 40)) (bitmapSize b.y b.stride) rounds =
        pure cs := by
  by_cases h0 : addr = 0
  · rw [redGetImage, if_pos h0] at h
    cases h
  · rw [redGetImage, if_neg h0] at h
    obtain ⟨qxl, hq, h⟩ := Parse.bind_eq_pure.mp h
    obtain ⟨u, hu, h⟩ := Parse.bind_eq_pure.mp h
    obtain ⟨rfl, rfl⟩ := (SpiceImage.mk.injEq ..).mp (Option.some.inj (Parse.pure_inj.mp h))
    rw [Parse.checked_eq_pure] at hq
    obtain ⟨palette, -, h⟩ := Parse.bind_eq_pure.mp (redGetImageData_bitmap hu)
    obtain ⟨cs, hcs, h⟩ := Parse.bind_eq_pure.mp h
    obtain rfl := Parse.pure_inj.mp h
    refine ⟨qxl, cs, hq, rfl, rfl, ?_, ?_, hcs⟩
    · dsimp only
      split <;> rfl
    · dsimp only
      split <;> rfl

/-- For every image of type `BITMAP` that is accepted, its size is exact just when no product or counter wraps. -/
theorem bitmap_exact_iff {addr : UInt64} {rounds : Nat} {d : SpiceImageDescriptor} {b : SpiceBitmap}
    (h : redGetImage info host groupId addr rounds = pure (some ⟨d, .bitmap b⟩)) :
    Exact info groupId b ↔ ∀ qxl, getVirt info addr sizeofImage groupId = .ok qxl → SizeFits info host groupId qxl := by
  obtain ⟨qxl, cs, hq, hy, hstride, hchunk, hsize, hdata⟩ := redGetImage_bitmap h
  have hall : (∀ qxl', getVirt info addr sizeofImage groupId = .ok qxl' → SizeFits info host groupId qxl') ↔
      SizeFits info host groupId qxl := by
    refine ⟨fun hf => hf qxl hq, fun hf qxl' hq' => ?_⟩
    rw [hq, Except.ok.injEq] at hq'
    rwa [← hq']
  rw [hall]
  have hbs := toNat_bitmapSize b.y b.stride
  by_cases hd : host (qxl + 19) &&& qxlBitmapDirect = 0
  · obtain ⟨head, l, hhead, hl, rfl, htotal, hin⟩ := redGetBitmapData_chunked hd hdata
    have hbytes := chunkBytes_chainChunks host.chunks (head :: l)
    have hds := dataSize_chainChunks host.chunks (head :: l)
    constructor
    · intro he
      have hc := he.chunks
      have hs := he.dataSize
      rw [hchunk, hbytes] at hc
      rw [hsize, hds] at hs
      rw [hy, hstride] at hc hs hbs
      refine ⟨by omega, fun _ head' l' hhead' hl' => ?_⟩
      rw [hhead, Except.ok.injEq] at hhead'
      subst hhead'
      rw [chain_unique hl' hl]
      rw [hy, hstride] at htotal
      omega
    · intro hf
      have hp := hf.product
      have hcount := hf.counted hd head l hhead hl
      rw [← hy, ← hstride] at hp
      have hsum : chunkBytes b.data.chunk = bitmapBytes b.y b.stride := by
        rw [hchunk, hbytes]
        omega
      refine ⟨?_, hsum, ?_, fun k hk => exists_byteAt (by rwa [hsum])⟩
      · rw [hchunk]
        exact inSlot_chainChunks _ _ hin
      · rw [hsize, hds]
        omega
  · obtain ⟨virt, rfl, hin⟩ := redGetBitmapData_direct hd hdata
    have h32 : (bitmapSize b.y b.stride).toUInt32.toNat = bitmapBytes b.y b.stride % 2 ^ 32 := by
      rw [UInt64.toNat_toUInt32, hbs, Nat.mod_mod]
    constructor
    · intro he
      have hs := he.dataSize
      rw [hsize, h32] at hs
      rw [hy, hstride] at hs
      exact ⟨by omega, fun h => absurd h hd⟩
    · intro hf
      have hp := hf.product
      rw [← hy, ← hstride] at hp
      rw [Nat.mod_eq_of_lt hp] at h32
      have hsum : chunkBytes b.data.chunk = bitmapBytes b.y b.stride := by
        rw [hchunk, chunkBytes]
        simpa using h32
      refine ⟨?_, hsum, by rw [hsize, h32], fun k hk => exists_byteAt (by rwa [hsum])⟩
      rw [hchunk]
      intro c hc
      obtain rfl := List.mem_singleton.mp hc
      exact hin

/-- A `QXLImage` at 0x1000, whose data is at 0x1100. -/
def directImage (y stride : UInt32) : HostMemory := fun a =>
  ((List.replicate 19 0 ++ [qxlBitmapDirect] ++ List.replicate 4 0 ++ leBytes 4 y.toNat ++ leBytes 4 stride.toNat ++
    List.replicate 8 0 ++ leBytes 8 0x1100)[(a - 0x1000).toNat]?).getD 0

def directBitmap (y stride size : UInt32) : SpiceBitmap :=
  ⟨0, 0, 0, y, stride, none, 0, ⟨size, 0, [⟨0x1100, size⟩]⟩⟩

theorem bitmap_exact_two_lines : Exact oneSlot 0 (directBitmap 2 (0 - 16) 32) ↔
    ∀ qxl, getVirt oneSlot 0x1000 sizeofImage 0 = .ok qxl → SizeFits oneSlot (directImage 2 (0 - 16)) 0 qxl :=
  @bitmap_exact_iff _ _ _ _ 0 ⟨0, 0, 0, 0, 0⟩ _ (by decide)

/-- 0x10000 lines of 0x10000 bytes each are accepted with no bytes at all. -/
theorem not_exact_wrapped_bitmap : ¬ ∀ d b,
    redGetImage oneSlot (directImage 0x10000 0x10000) 0 0x1000 0 = pure (some ⟨d, .bitmap b⟩) → Exact oneSlot 0 b := by
  intro h
  have he := h ⟨0, 0, 0, 0, 0⟩ (directBitmap 0x10000 0x10000 0) (by decide)
  exact absurd he.dataSize (by decide)

end Colama.Spice.Qxl

import Mathlib
import Colama.Spice.Lz.CompressSpec

namespace Colama.Spice.Lz

/-- When a decoded pixel counts as the original one. -/
def LzImageType.Restores : (t : LzImageType) → t.kind.Pixel → t.kind.Pixel → Prop
  | invalid => fun _ _ => False
  | plt1Le | plt1Be | plt4Le | plt4Be | plt8 => fun p out => out = p
  | rgb16 => fun (p out : UInt16) => out &&& 0x7fff = p &&& 0x7fff
  | rgb24 => fun p out => out = p
  | rgb32 => fun (p out : Rgb32Pixel) => out = { p with pad := 0 }
  | rgba => fun p out => out = p
  | xxxa => fun (p out : Rgb32Pixel) => out.pad = p.pad

/-- An image with lines, cut into what `lz_encode` is called with and what `more_lines` returns, whose
stride passes the checks. -/
structure LzImage extends LzInput where
  type_ne : type ≠ .invalid
  width_pos : 0 < width
  width_lt : width < 2 ^ 31
  height_pos : 0 < height
  height_lt : height < 2 ^ 31
  topDown_lt : topDown < 2 ^ 32
  le_stride : -2 ^ 31 ≤ stride
  stride_lt : stride < 2 ^ 31
  numLines_sum : first.numLines + (more.map Chunk.numLines).sum = height
  more_pos : ∀ c ∈ more, 0 < c.numLines
  lines_length : ∀ c ∈ first :: more, c.lines.length = c.numLines * stride.natAbs
  stride_ok : checkStride toLzInput = .ok ()

namespace LzImage

variable (x : LzImage)

def bytes : List UInt8 := (x.first :: x.more).flatMap Chunk.lines

/-- The pixels of a line; the bytes of a palette image count as pixels. -/
def lineWidth : Nat := if x.type.isPlt then x.stride.toNat else x.width

def pixelsNum : Nat := x.height * x.lineWidth

/-- Encoding gives bytes from which, in whatever buffers they come, the image is decoded again. -/
def RoundTrips (space : Nat → Nat) (numIoBytes : Nat) : Prop :=
  ∃ io, lzEncode space numIoBytes x.toLzInput = .ok io ∧ ∀ i : In, i.Full → i.bytes = io.bytes →
    ∃ d, lzDecodeBegin i = .ok d ∧ d.type = x.type ∧ d.width = x.width ∧ d.height = x.height ∧
      d.stride = x.stride ∧ d.topDown = x.topDown ∧ ∀ buf, ∃ out i', lzDecode d buf = .ok (out, i') ∧ i'.bytes = [] ∧
        out.length = x.bytes.length ∧ ∀ p < x.pixelsNum,
          x.type.Restores (x.type.kind.pixel x.bytes p) (x.type.kind.pixel out p)

/-- There are bytes in a line, an `int` holds the number of pixels and 32 bits hold the size of every
segment. -/
def Fits : Prop :=
  0 < x.stride ∧ x.pixelsNum < 2 ^ 31 ∧ ∀ c ∈ x.first :: x.more, c.numLines * x.stride < 2 ^ 32

end LzImage

variable (k : PixelKind)

/-- `lines_end - lines` of a segment. -/
def chunkSize (stride : Int) (c : Chunk) : Nat := (c.numLines * stride % 2 ^ 32).toNat

/-- The segments of some chunks, the first of them behind `sizeDelta` pixels. -/
def segsOf (stride : Int) (bytesPerPixel : Nat) : Nat → List Chunk → List LzImageSegment
  | _, [] => []
  | sizeDelta, c :: cs =>
    ⟨c.lines, chunkSize stride c, sizeDelta⟩ ::
      segsOf stride bytesPerPixel (sizeDelta + chunkSize stride c / bytesPerPixel) cs

/-- How many pixels the segments of some chunks have. -/
def segsPixels (stride : Int) (bytesPerPixel : Nat) (cs : List Chunk) : Nat :=
  (cs.map fun c => chunkSize stride c / bytesPerPixel).sum

/-- The bytes of the whole pixels of a segment. -/
def chunkBytes (stride : Int) (bytesPerPixel : Nat) (c : Chunk) : List UInt8 :=
  c.lines.take (chunkSize stride c / bytesPerPixel * bytesPerPixel)

section Segments

variable {stride : Int} {bpp : Nat} {c : Chunk} {cs : List Chunk} {δ row height : Nat}

theorem imageSegment_eq (h : chunkSize stride c ≤ c.lines.length) :
    imageSegment stride c δ = .ok ⟨c.lines, chunkSize stride c, δ⟩ :=
  if_neg (Nat.not_lt.mpr h)

theorem readMoreSegments_eq (hpos : ∀ c ∈ cs, 0 < c.numLines)
    (hlen : ∀ c ∈ cs, chunkSize stride c ≤ c.lines.length)
    (hrow : row + (cs.map Chunk.numLines).sum = height) (hδ : δ + segsPixels stride bpp cs < 2 ^ 32) :
    readMoreSegments stride bpp height cs row δ = .ok (segsOf stride bpp δ cs) := by
  induction cs generalizing row δ with
  | nil => exact if_neg (by simp at hrow; omega)
  | cons c cs ih =>
    rw [List.map_cons, List.sum_cons] at hrow
    simp only [segsPixels, List.map_cons, List.sum_cons] at hδ
    have hc := hpos c List.mem_cons_self
    have hrest : readMoreSegments stride bpp height cs (row + c.numLines) (δ + chunkSize stride c / bpp) =
        .ok (segsOf stride bpp (δ + chunkSize stride c / bpp) cs) :=
      ih (fun d hd => hpos d (List.mem_cons_of_mem _ hd))
        (fun d hd => hlen d (List.mem_cons_of_mem _ hd)) (by omega) (by rw [segsPixels]; omega)
    rw [readMoreSegments, if_pos (by omega), if_neg (by omega),
      imageSegment_eq (hlen c List.mem_cons_self)]
    change (readMoreSegments stride bpp height cs (row + c.numLines)
      ((δ + chunkSize stride c / bpp) % 2 ^ 32) >>= _) = _
    rw [Nat.mod_eq_of_lt (by omega), hrest]
    rfl

theorem lzReadImageSegments_eq (hpos : ∀ c ∈ cs, 0 < c.numLines)
    (hlen : ∀ d ∈ c :: cs, chunkSize stride d ≤ d.lines.length)
    (hrow : c.numLines + (cs.map Chunk.numLines).sum = height)
    (hδ : segsPixels stride bpp (c :: cs) < 2 ^ 32) :
    lzReadImageSegments stride bpp height c cs = .ok (segsOf stride bpp 0 (c :: cs)) := by
  simp only [segsPixels, List.map_cons, List.sum_cons] at hδ
  have hrest : readMoreSegments stride bpp height cs c.numLines (chunkSize stride c / bpp) =
      .ok (segsOf stride bpp (chunkSize stride c / bpp) cs) :=
    readMoreSegments_eq hpos (fun d hd => hlen d (List.mem_cons_of_mem _ hd)) hrow
      (by rw [segsPixels]; omega)
  rw [lzReadImageSegments, imageSegment_eq (hlen c List.mem_cons_self)]
  change (readMoreSegments stride bpp height cs c.numLines (chunkSize stride c / bpp % 2 ^ 32) >>= _) = _
  rw [Nat.mod_eq_of_lt (by omega), hrest, segsOf, Nat.zero_add]
  rfl

variable {k}

theorem length_chunkBytes (bpp : Nat) (h : chunkSize stride c ≤ c.lines.length) :
    (chunkBytes stride bpp c).length = chunkSize stride c / bpp * bpp := by
  rw [chunkBytes, List.length_take, min_eq_left ((Nat.div_mul_le_self _ _).trans h)]

/-- A pixel within a part of a buffer. -/
theorem pixel_append {pre mid post lines : List UInt8} {i n : Nat} (hpre : pre.length = δ * k.size)
    (hmid : mid = lines.take (n * k.size)) (hlen : mid.length = n * k.size) (hi : i < n) :
    k.pixel lines i = k.pixel (pre ++ (mid ++ post)) (δ + i) := by
  refine k.load_congr fun j hj => ?_
  have hlt : i * k.size + j < n * k.size := calc
    i * k.size + j < i * k.size + k.size := by omega
    _ = (i + 1) * k.size := by ring
    _ ≤ n * k.size := Nat.mul_le_mul_right _ hi
  have hidx : (δ + i) * k.size + j = pre.length + (i * k.size + j) := by
    rw [hpre]
    ring
  simp only [List.getD_eq_getElem?_getD, List.getElem?_drop, hidx]
  rw [List.getElem?_append_right (by omega), Nat.add_sub_cancel_left,
    List.getElem?_append_left (by omega), hmid, List.getElem?_take_of_lt hlt]

/-- The segments lie one behind the other in the bytes of their whole pixels. -/
theorem laid_segsOf (pre : List UInt8) (hlen : ∀ c ∈ cs, chunkSize stride c ≤ c.lines.length)
    (hpre : pre.length = δ * k.size) :
    Laid k (k.pixel (pre ++ cs.flatMap (chunkBytes stride k.size))) δ (segsOf stride k.size δ cs)
      (δ + segsPixels stride k.size cs) := by
  induction cs generalizing δ pre with
  | nil => exact rfl
  | cons c cs ih =>
    have hc := length_chunkBytes k.size (hlen c List.mem_cons_self)
    have hpre' : (pre ++ chunkBytes stride k.size c).length =
        (δ + chunkSize stride c / k.size) * k.size := by
      rw [List.length_append, hpre, hc]
      ring
    have hrest := ih _ (fun d hd => hlen d (List.mem_cons_of_mem _ hd)) hpre'
    rw [List.flatMap_cons]
    rw [List.append_assoc] at hrest
    refine ⟨rfl, fun i hi => pixel_append hpre rfl hc hi, ?_⟩
    rw [segsPixels, List.map_cons, List.sum_cons, ← Nat.add_assoc]
    exact hrest

end Segments

section Header

variable {space : Nat → Nat}

/-- The bytes that `lz_encode` writes before the compressed ones. -/
def header (x : LzInput) : List UInt8 :=
  be32 lzMagic ++ (be32 lzVersion ++ (be32 x.type.code ++ (be32 x.width ++ (be32 x.height ++
    (be32 (x.stride % 2 ^ 32).toNat ++ be32 x.topDown)))))

theorem lzEncode_header (hs : ∀ i, 0 < space i) (n : Nat) (x : LzImage) {segs : List LzImageSegment}
    (hread : lzReadImageSegments x.stride x.type.rgbBytesPerPixel x.height x.first x.more = .ok segs) :
    ∃ io, io.bytes = header x.toLzInput ∧
      lzEncode space n x.toLzInput = compressType space x.type segs io := by
  have hw := (encode32_writes hs lzMagic).bind ((encode32_writes hs lzVersion).bind
    ((encode32_writes hs x.type.code).bind ((encode32_writes hs x.width).bind
      ((encode32_writes hs x.height).bind ((encode32_writes hs (x.stride % 2 ^ 32).toNat).bind
        (encode32_writes hs x.topDown))))))
  obtain ⟨io, e, hb, -, -⟩ := hw (Io.reset n)
  refine ⟨io, hb, ?_⟩
  rw [lzEncode, x.stride_ok]
  change (lzReadImageSegments x.stride x.type.rgbBytesPerPixel x.height x.first x.more >>= _) = _
  rw [hread]
  have := congrArg (· >>= compressType space x.type segs) e
  simp only [bind_assoc] at this
  exact this

theorem bmod_int {a : Int} (h₁ : -2147483648 ≤ a) (h₂ : a < 2147483648) : a.bmod (2 ^ 32) = a :=
  Int.bmod_eq_of_le (by norm_num; exact h₁) (by norm_num; exact h₂)

theorem toInt_of_lt {w : Nat} (h : w < 2 ^ 31) : toInt w = w :=
  bmod_int (by omega) (by omega)

theorem emod_bmod_int (a : Int) : (a % 4294967296).bmod (2 ^ 32) = a.bmod (2 ^ 32) :=
  Int.emod_bmod a (2 ^ 32)

theorem toInt_stride {s : Int} (h₁ : -2 ^ 31 ≤ s) (h₂ : s < 2 ^ 31) :
    toInt (s % 2 ^ 32).toNat = s := by
  have hmod : ((s % 4294967296).toNat : Int) = s % 4294967296 := by omega
  have : toInt (s % 4294967296).toNat = s := by
    unfold toInt
    rw [hmod, emod_bmod_int]
    exact bmod_int (by omega) (by omega)
  norm_num
  exact this

theorem lzDecodeBegin_header (x : LzImage) {i : In} {r : List UInt8} (hf : i.Full)
    (h : i.bytes = header x.toLzInput ++ r) :
    ∃ i', lzDecodeBegin i = .ok ⟨x.type, x.width, x.height, x.stride, x.topDown, i'⟩ ∧ i'.bytes = r ∧
      i'.Full := by
  have hw := x.width_lt
  have hh := x.height_lt
  have hcode := x.type.code_lt
  simp only [header, List.append_assoc] at h
  obtain ⟨i₁, e₁, h₁, f₁⟩ := decode32_be32 (by decide) hf h
  obtain ⟨i₂, e₂, h₂, f₂⟩ := decode32_be32 (by decide) f₁ h₁
  obtain ⟨i₃, e₃, h₃, f₃⟩ := decode32_be32 (by omega) f₂ h₂
  obtain ⟨i₄, e₄, h₄, f₄⟩ := decode32_be32 (by omega) f₃ h₃
  obtain ⟨i₅, e₅, h₅, f₅⟩ := decode32_be32 (by omega) f₄ h₄
  obtain ⟨i₆, e₆, h₆, f₆⟩ := decode32_be32 (by omega) f₅ h₅
  obtain ⟨i₇, e₇, h₇, f₇⟩ := decode32_be32 x.topDown_lt f₆ h₆
  refine ⟨i₇, ?_, h₇, f₇⟩
  rw [lzDecodeBegin, e₁]
  change (decode32 i₁ >>= _) = _
  rw [e₂]
  change (decode32 i₂ >>= _) = _
  rw [e₃]
  change (decode32 i₃ >>= _) = _
  rw [e₄]
  change (decode32 i₄ >>= _) = _
  rw [e₅]
  change (decode32 i₅ >>= _) = _
  rw [e₆]
  change (decode32 i₆ >>= _) = _
  rw [e₇]
  dsimp only [bind, Except.bind]
  rw [LzImageType.ofCode_code, toInt_of_lt hw, toInt_of_lt hh, toInt_stride x.le_stride x.stride_lt]

end Header

section Decode

variable {k} {X old : Nat → k.Pixel} {out : List k.Pixel}

theorem length_flatMap_store (out : List k.Pixel) :
    (out.flatMap k.store).length = out.length * k.size := by
  induction out with
  | nil => simp
  | cons o out ih =>
    rw [List.flatMap_cons, List.length_append, k.store_length, ih, List.length_cons]
    ring

theorem pixel_flatMap_store {p : Nat} {o : k.Pixel} (h : out[p]? = some o) :
    k.pixel (out.flatMap k.store) p = o := by
  induction out generalizing p with
  | nil => cases h
  | cons q out ih =>
    rw [List.flatMap_cons]
    cases p with
    | zero =>
      obtain rfl : q = o := by simpa using h
      simpa [PixelKind.pixel] using k.load_store q (out.flatMap k.store)
    | succ p =>
      rw [← ih (by simpa using h), PixelKind.pixel, PixelKind.pixel]
      congr 1
      rw [Nat.succ_mul, Nat.add_comm, ← List.drop_drop, ← k.store_length q, List.drop_left]

theorem mulInt_natCast {a b : Nat} (h : a * b < 2 ^ 31) : mulInt a b = (a * b : Nat) := by
  have := Nat.zero_le (a * b)
  rw [mulInt, ← Nat.cast_mul]
  exact bmod_int (by omega) (by omega)

end Decode

theorem LzImageType.bytesPerPixel_eq {t : LzImageType} (h : t ≠ .invalid) :
    t.rgbBytesPerPixel = t.kind.size := by
  cases t with
  | invalid => exact absurd rfl h
  | _ => rfl

section Sizes

variable {stride : Int} {c : Chunk} {cs : List Chunk} {w b : Nat}

theorem chunkSize_eq (hst : stride = (w * b : Nat)) :
    chunkSize stride c = c.numLines * (w * b) % 2 ^ 32 := by
  rw [chunkSize, hst, ← Nat.cast_mul]
  norm_cast

theorem chunkPixels_le (hst : stride = (w * b : Nat)) : chunkSize stride c / b ≤ c.numLines * w := by
  refine Nat.div_le_of_le_mul ?_
  rw [chunkSize_eq hst]
  calc
    c.numLines * (w * b) % 2 ^ 32 ≤ c.numLines * (w * b) := Nat.mod_le _ _
    _ = b * (c.numLines * w) := by ring

theorem chunkPixels_lt (hst : stride = (w * b : Nat)) (hb : 0 < b)
    (h : 2 ^ 32 ≤ c.numLines * (w * b)) : chunkSize stride c / b < c.numLines * w := by
  rw [Nat.div_lt_iff_lt_mul hb, chunkSize_eq hst]
  calc
    c.numLines * (w * b) % 2 ^ 32 < 2 ^ 32 := Nat.mod_lt _ (by norm_num)
    _ ≤ c.numLines * (w * b) := h
    _ = c.numLines * w * b := by ring

theorem chunkPixels_eq (hst : stride = (w * b : Nat)) (hb : 0 < b)
    (h : c.numLines * (w * b) < 2 ^ 32) : chunkSize stride c / b = c.numLines * w := by
  rw [chunkSize_eq hst, Nat.mod_eq_of_lt h, ← Nat.mul_assoc, Nat.mul_div_cancel _ hb]

theorem segsPixels_le (cs : List Chunk) (hst : stride = (w * b : Nat)) :
    segsPixels stride b cs ≤ (cs.map Chunk.numLines).sum * w := by
  induction cs with
  | nil => simp [segsPixels]
  | cons c cs ih =>
    simp only [segsPixels, List.map_cons, List.sum_cons, Nat.add_mul] at ih ⊢
    exact Nat.add_le_add (chunkPixels_le hst) ih

theorem segsPixels_lt (hst : stride = (w * b : Nat)) (hb : 0 < b) (hc : c ∈ cs)
    (h : 2 ^ 32 ≤ c.numLines * (w * b)) :
    segsPixels stride b cs < (cs.map Chunk.numLines).sum * w := by
  induction cs with
  | nil => cases hc
  | cons d cs ih =>
    have hle := segsPixels_le cs hst
    have hd := chunkPixels_le hst (c := d)
    simp only [segsPixels, List.map_cons, List.sum_cons, Nat.add_mul] at ih hle ⊢
    obtain rfl | hc := List.mem_cons.mp hc
    · have := chunkPixels_lt hst hb h
      omega
    · have := ih hc
      omega

theorem segsPixels_eq (hst : stride = (w * b : Nat)) (hb : 0 < b)
    (h : ∀ c ∈ cs, c.numLines * (w * b) < 2 ^ 32) :
    segsPixels stride b cs = (cs.map Chunk.numLines).sum * w := by
  induction cs with
  | nil => simp [segsPixels]
  | cons c cs ih =>
    have hc := chunkPixels_eq hst hb (h c List.mem_cons_self)
    have hcs := ih fun d hd => h d (List.mem_cons_of_mem _ hd)
    simp only [segsPixels, List.map_cons, List.sum_cons, Nat.add_mul] at hcs ⊢
    rw [hc, hcs]

end Sizes

namespace LzImage

variable (x : LzImage)

theorem sum_numLines : ((x.first :: x.more).map Chunk.numLines).sum = x.height := by
  rw [List.map_cons, List.sum_cons, x.numLines_sum]

theorem stride_eq_of_rgb (h : x.type.isPlt = false) :
    x.stride = (x.width * x.type.rgbBytesPerPixel : Nat) := by
  have hok := x.stride_ok
  rw [checkStride, if_neg (by simp [h])] at hok
  split_ifs at hok with h₁ h₂
  exact not_not.mp h₂

theorem stride_eq (hpos : 0 < x.stride) : x.stride = (x.lineWidth * x.type.kind.size : Nat) := by
  rw [lineWidth]
  by_cases h : x.type.isPlt = true
  · have hsize : x.type.kind.size = 1 := by
      revert h
      cases x.type <;> simp [LzImageType.isPlt, LzImageType.kind, PixelKind.plt]
    rw [if_pos h, hsize]
    omega
  · rw [if_neg h, ← LzImageType.bytesPerPixel_eq x.type_ne]
    exact x.stride_eq_of_rgb (by simpa using h)

theorem lineWidth_pos (hpos : 0 < x.stride) : 0 < x.lineWidth := by
  rw [lineWidth]
  split
  · omega
  · exact x.width_pos

theorem pixelsNum_pos (hpos : 0 < x.stride) : 0 < x.pixelsNum :=
  Nat.mul_pos x.height_pos (x.lineWidth_pos hpos)

theorem chunkSize_le (hpos : 0 < x.stride) {c : Chunk} (hc : c ∈ x.first :: x.more) :
    chunkSize x.stride c ≤ c.lines.length := by
  have hst := x.stride_eq hpos
  rw [x.lines_length c hc, chunkSize_eq hst, hst, Int.natAbs_natCast]
  exact Nat.mod_le _ _

/-- The segments of the image. -/
def segs : List LzImageSegment := segsOf x.stride x.type.kind.size 0 (x.first :: x.more)

/-- The pixels in them. -/
def segsNum : Nat := segsPixels x.stride x.type.kind.size (x.first :: x.more)

/-- The bytes of these pixels. -/
def segsBytes : List UInt8 :=
  (x.first :: x.more).flatMap (chunkBytes x.stride x.type.kind.size)

theorem segsNum_le (hpos : 0 < x.stride) : x.segsNum ≤ x.pixelsNum := by
  have := segsPixels_le (x.first :: x.more) (x.stride_eq hpos)
  rwa [x.sum_numLines] at this

theorem laid_segs (hpos : 0 < x.stride) :
    Laid x.type.kind (x.type.kind.pixel x.segsBytes) 0 x.segs x.segsNum := by
  have hpre : ([] : List UInt8).length = 0 * x.type.kind.size := by simp
  have := laid_segsOf [] (fun c hc => x.chunkSize_le hpos hc) hpre
  rwa [Nat.zero_add] at this

theorem lzRead_eq (hpos : 0 < x.stride) (hT : x.pixelsNum < 2 ^ 31) :
    lzReadImageSegments x.stride x.type.rgbBytesPerPixel x.height x.first x.more = .ok x.segs := by
  rw [LzImageType.bytesPerPixel_eq x.type_ne]
  have hle := x.segsNum_le hpos
  refine lzReadImageSegments_eq x.more_pos (fun c hc => x.chunkSize_le hpos hc) x.numLines_sum ?_
  rw [segsNum] at hle
  omega

variable {x}

theorem Fits.numLines_lt (h : x.Fits) {c : Chunk} (hc : c ∈ x.first :: x.more) :
    c.numLines * (x.lineWidth * x.type.kind.size) < 2 ^ 32 := by
  have := h.2.2 c hc
  rw [x.stride_eq h.1] at this
  norm_cast at this

theorem Fits.segsNum_eq (h : x.Fits) : x.segsNum = x.pixelsNum := by
  rw [segsNum, segsPixels_eq (x.stride_eq h.1) x.type.kind.size_pos fun c hc => h.numLines_lt hc,
    x.sum_numLines]
  rfl

theorem Fits.segsBytes_eq (h : x.Fits) : x.segsBytes = x.bytes := by
  refine List.flatMap_congr fun c hc => ?_
  have hst := x.stride_eq h.1
  rw [chunkBytes, List.take_of_length_le]
  rw [chunkPixels_eq hst x.type.kind.size_pos (h.numLines_lt hc), x.lines_length c hc, hst,
    Int.natAbs_natCast, Nat.mul_assoc]

/-- A segment that ends within a pixel is one whose size does not fit. -/
theorem Fits.aligned (h : x.Fits) : ∀ seg ∈ x.segs, seg.size % x.type.kind.size = 0 := by
  have hst := x.stride_eq h.1
  have hmem : ∀ cs δ, (∀ c ∈ cs, c ∈ x.first :: x.more) →
      ∀ seg ∈ segsOf x.stride x.type.kind.size δ cs, seg.size % x.type.kind.size = 0 := by
    intro cs
    induction cs with
    | nil =>
      intro δ _ seg hseg
      cases hseg
    | cons c cs ih =>
      intro δ hcs seg hseg
      obtain rfl | hseg := List.mem_cons.mp hseg
      · change chunkSize x.stride c % _ = 0
        rw [chunkSize_eq hst, Nat.mod_eq_of_lt (h.numLines_lt (hcs c List.mem_cons_self)),
          ← Nat.mul_assoc, Nat.mul_mod_left]
      · exact ih _ (fun d hd => hcs d (List.mem_cons_of_mem _ hd)) seg hseg
  exact hmem _ 0 fun c hc => hc

section RoundTrip

variable {space : Nat → Nat} {n : Nat}

theorem compressType_eq {t : LzImageType} (h : t ≠ .invalid) (h' : t ≠ .rgba)
    (segs : List LzImageSegment) (io : Io) :
    compressType space t segs io = compress t.kind space segs io := by
  cases t with
  | invalid => exact absurd rfl h
  | rgba => exact absurd rfl h'
  | _ => rfl

theorem lzDecode_eq {d : Decoder} (h : d.type ≠ .invalid) (h' : d.type ≠ .rgba) (buf : Nat → UInt8) :
    lzDecode d buf = (decodePass d.type.kind buf
        (mulInt d.height (if d.type.isPlt then d.stride else d.width)) d.input >>= fun p =>
      decodeEnd (mulInt d.height (if d.type.isPlt then d.stride else d.width)) p.1 p.2
        d.type.kind.store) := by
  obtain ⟨t, w, hh, st, td, i⟩ := d
  cases t with
  | invalid => exact absurd rfl h
  | rgba => exact absurd rfl h'
  | _ => rfl

theorem restores_of_kind {t : LzImageType} (h : t ≠ .invalid) (h' : t ≠ .rgba)
    {old p out : t.kind.Pixel} (hr : t.kind.Restores old p out) : t.Restores p out := by
  cases t with
  | invalid => exact absurd rfl h
  | rgba => exact absurd rfl h'
  | xxxa =>
    have hpad : (out : Rgb32Pixel) = { (old : Rgb32Pixel) with pad := (p : Rgb32Pixel).pad } := hr
    have := congrArg Rgb32Pixel.pad hpad
    exact this
  | _ => exact hr

theorem mulInt_eq (hpos : 0 < x.stride) (hT : x.pixelsNum < 2 ^ 31) :
    mulInt x.height (if x.type.isPlt then x.stride else x.width) = x.pixelsNum := by
  rw [pixelsNum, ← mulInt_natCast hT, lineWidth]
  congr 1
  split
  · omega
  · rfl

/-- One pass of the encoder over the segments of the image. -/
theorem lzEncode_single (hs : ∀ i, 0 < space i) (hpos : 0 < x.stride) (hT : x.pixelsNum < 2 ^ 31)
    (ht : x.type ≠ .rgba) :
    (lzEncode space n x.toLzInput = .error .fault ∧ ∃ seg ∈ x.segs, seg.size % x.type.kind.size ≠ 0) ∨
    ∃ io, lzEncode space n x.toLzInput = .ok io ∧
      Coded x.type.kind (x.type.kind.pixel x.segsBytes) (header x.toLzInput) io x.segsNum := by
  have hle := x.segsNum_le hpos
  obtain ⟨io₀, hb, he⟩ := lzEncode_header hs n x (x.lzRead_eq hpos hT)
  rw [he, compressType_eq x.type_ne ht]
  exact compress_coded hs (x.laid_segs hpos) (by omega) hb

/-- The end of a pass that read all of its input and filled the buffer. -/
theorem decodeEnd_ok {k : PixelKind} {out : List k.Pixel} {i : In} (hf : i.Full) (hi : i.bytes = [])
    {size : Int} (hsize : (out.length : Int) = size) :
    decodeEnd size out i k.store = .ok (out.flatMap k.store, i) := by
  rw [decodeEnd, (isIoToDecodeEnd_iff hf).mpr hi, if_neg (by simp), if_neg (not_not.mpr hsize)]

theorem length_bytes_natAbs : x.bytes.length = x.height * x.stride.natAbs := by
  have hsum : ∀ cs : List Chunk, (∀ c ∈ cs, c ∈ x.first :: x.more) →
      (cs.flatMap Chunk.lines).length = (cs.map Chunk.numLines).sum * x.stride.natAbs := by
    intro cs hcs
    induction cs with
    | nil => simp
    | cons c cs ih =>
      rw [List.flatMap_cons, List.length_append, ih fun d hd => hcs d (List.mem_cons_of_mem _ hd),
        x.lines_length c (hcs c List.mem_cons_self), List.map_cons, List.sum_cons, Nat.add_mul]
  rw [bytes, hsum _ fun c hc => hc, x.sum_numLines]

theorem length_bytes (hpos : 0 < x.stride) : x.bytes.length = x.pixelsNum * x.type.kind.size := by
  rw [length_bytes_natAbs, x.stride_eq hpos, Int.natAbs_natCast, pixelsNum, Nat.mul_assoc]

theorem Fits.roundTrips_single (h : x.Fits) (hs : ∀ i, 0 < space i) (ht : x.type ≠ .rgba) :
    x.RoundTrips space n := by
  have hT := h.2.1
  obtain ⟨-, seg, hseg, hbad⟩ | ⟨io, he, bs, hbs, hst⟩ := lzEncode_single (n := n) hs h.1 hT ht
  · exact absurd (h.aligned seg hseg) hbad
  rw [h.segsNum_eq, h.segsBytes_eq] at hst
  refine ⟨io, he, fun i hf hi => ?_⟩
  obtain ⟨i₁, e₁, h₁, f₁⟩ := lzDecodeBegin_header x hf (hi.trans hbs)
  refine ⟨_, e₁, rfl, rfl, rfl, rfl, rfl, fun buf => ?_⟩
  obtain ⟨out, i₂, e₂, hout, hlen, h₂, f₂⟩ := decompress_stream
    (fun p => x.type.kind.load ((List.range x.type.kind.size).map fun j =>
      buf (p * x.type.kind.size + j))) hst (x.pixelsNum_pos h.1) f₁ (by rw [h₁, List.append_nil])
  refine ⟨out.flatMap x.type.kind.store, i₂, ?_, h₂, ?_, fun p hp => ?_⟩
  · rw [lzDecode_eq x.type_ne ht]
    change (decodePass x.type.kind buf (mulInt x.height (if x.type.isPlt then x.stride else x.width))
      i₁ >>= _) = _
    rw [mulInt_eq h.1 hT, decodePass, e₂]
    exact decodeEnd_ok f₂ h₂ (by rw [hlen])
  · rw [length_flatMap_store, hlen, length_bytes h.1]
  · have hget : out[p]? = some out[p] := List.getElem?_eq_getElem (by omega)
    rw [pixel_flatMap_store hget]
    exact restores_of_kind x.type_ne ht (hout p _ hget)

theorem laid_alpha {X : Nat → Rgb32Pixel} {a b : Nat} {segs : List LzImageSegment}
    (h : Laid .rgb32 X a segs b) : Laid .rgbAlpha X a segs b := by
  induction segs generalizing a with
  | nil => exact h
  | cons seg segs ih => exact ⟨h.1, h.2.1, ih h.2.2⟩

theorem getD_of_getElem? {α : Type} {l : List α} {i : Nat} {a d : α} (h : l[i]? = some a) :
    l.getD i d = a := by
  rw [List.getD_eq_getElem?_getD, h, Option.getD_some]

theorem pixel_of_passes {p rgb out : Rgb32Pixel} (hout : out = { rgb with pad := p.pad })
    (hrgb : rgb = { p with pad := 0 }) : out = p := by
  rw [hout, hrgb]

theorem restores_rgba {t : LzImageType} (ht : t = .rgba) {bs out : List UInt8} {p : Nat}
    (h : PixelKind.rgb32.pixel out p = PixelKind.rgb32.pixel bs p) :
    t.Restores (t.kind.pixel bs p) (t.kind.pixel out p) := by
  subst ht
  exact h

/-- An image with alpha is two streams, the second over the pixels of the first. -/
theorem Fits.roundTrips_rgba (h : x.Fits) (hs : ∀ i, 0 < space i) (ht : x.type = .rgba) :
    x.RoundTrips space n := by
  have hT := h.2.1
  have hpos := x.pixelsNum_pos h.1
  have hkind : x.type.kind = .rgb32 := by rw [ht]; rfl
  have hal := h.aligned
  have hl := x.laid_segs h.1
  rw [h.segsNum_eq, h.segsBytes_eq, hkind] at hl
  rw [hkind] at hal
  obtain ⟨io₀, hb, he⟩ := lzEncode_header hs n x (x.lzRead_eq h.1 hT)
  rw [ht] at he
  obtain ⟨-, seg, hseg, hbad⟩ | ⟨io₁, c₁, bs₁, hbs₁, hst₁⟩ := compress_coded hs hl (by omega) hb
  · exact absurd (hal seg hseg) hbad
  have hl' : Laid .rgbAlpha (PixelKind.rgbAlpha.pixel x.bytes) 0 x.segs x.pixelsNum := laid_alpha hl
  obtain ⟨-, seg, hseg, hbad⟩ | ⟨io₂, c₂, bs₂, hbs₂, hst₂⟩ := compress_coded hs hl' (by omega) hbs₁
  · exact absurd (hal seg hseg) hbad
  refine ⟨io₂, ?_, fun i hf hi => ?_⟩
  · rw [he, compressType, c₁]
    exact c₂
  rw [hbs₂, List.append_assoc] at hi
  obtain ⟨i₁, e₁, h₁, f₁⟩ := lzDecodeBegin_header x hf hi
  refine ⟨_, e₁, rfl, rfl, rfl, rfl, rfl, fun buf => ?_⟩
  obtain ⟨rgb, i₂, e₂, hrgb, hlen₂, h₂, f₂⟩ := decompress_stream
    (fun p => PixelKind.rgb32.load ((List.range PixelKind.rgb32.size).map fun j =>
      buf (p * PixelKind.rgb32.size + j))) hst₁ hpos f₁ h₁
  obtain ⟨out, i₃, e₃, hout, hlen₃, h₃, f₃⟩ := decompress_stream (k := .rgbAlpha)
    (fun p => rgb.getD p ⟨0, 0, 0, 0⟩) hst₂ hpos f₂ (by rw [h₂, List.append_nil])
  refine ⟨out.flatMap PixelKind.rgbAlpha.store, i₃, ?_, h₃, ?_, fun p hp => ?_⟩
  · have hsize := mulInt_eq h.1 hT
    simp only [lzDecode, ht] at hsize ⊢
    rw [hsize]
    change (decompress .rgb32 _ (x.pixelsNum : Int) i₁ >>= _) = _
    rw [e₂]
    change (decompress .rgbAlpha _ (x.pixelsNum : Int) i₂ >>= _) = _
    rw [e₃]
    change (if (rgb.length : Int) ≠ x.pixelsNum then _ else _) = _
    rw [if_neg (by rw [hlen₂]; simp)]
    exact decodeEnd_ok f₃ h₃ (by rw [hlen₃])
  · rw [length_flatMap_store (k := .rgbAlpha), hlen₃, length_bytes h.1, hkind]
    rfl
  · have hget : out[p]? = some out[p] := List.getElem?_eq_getElem (by omega)
    have hget' : rgb[p]? = some rgb[p] := List.getElem?_eq_getElem (by omega)
    have hfirst : rgb.getD p ⟨0, 0, 0, 0⟩ = rgb[p] := getD_of_getElem? hget'
    refine restores_rgba ht ((pixel_flatMap_store (k := .rgbAlpha) hget).trans ?_)
    exact pixel_of_passes (hout p _ hget) (hfirst.trans (hrgb p _ hget'))

theorem decodeEnd_length {k : PixelKind} {size : Int} {px : List k.Pixel} {i i' : In}
    {out : List UInt8} (h : decodeEnd size px i k.store = .ok (out, i')) :
    (out.length : Int) = size * k.size := by
  rw [decodeEnd] at h
  split_ifs at h with h₁ h₂
  cases h
  rw [length_flatMap_store, ← not_not.mp h₂]
  push_cast
  ring

/-- What `lz_decode` leaves in the buffer has the size that its `int` says. -/
theorem lzDecode_length {d : Decoder} {buf : Nat → UInt8} {out : List UInt8} {i' : In}
    (h : lzDecode d buf = .ok (out, i')) :
    let size := mulInt d.height (if d.type.isPlt then d.stride else d.width)
    0 < size ∧ (out.length : Int) = size * d.type.kind.size := by
  obtain ⟨t, w, hh, st, td, i⟩ := d
  cases t with
  | invalid => cases h
  | rgba =>
    obtain ⟨⟨rgb, i₁⟩, hrgb, h⟩ := bind_eq_ok.mp h
    obtain ⟨⟨px, i₂⟩, -, h⟩ := bind_eq_ok.mp h
    change (if (rgb.length : Int) ≠ mulInt hh w then _ else _) = _ at h
    by_cases hlen : (rgb.length : Int) ≠ mulInt hh w
    · rw [if_pos hlen] at h
      cases h
    rw [if_neg hlen] at h
    exact ⟨(decompress_length hrgb).2, decodeEnd_length (k := .rgbAlpha) h⟩
  | _ =>
    obtain ⟨⟨px, i₁⟩, hpx, h⟩ := bind_eq_ok.mp h
    exact ⟨(decompress_length hpx).2, decodeEnd_length h⟩

/-- A size that comes out right in an `int` is one that an `int` holds. -/
theorem mulInt_lt (a b : Int) : mulInt a b < 2 ^ 31 := by
  have := Int.bmod_lt (x := a * b) (m := 2 ^ 32) (by norm_num)
  rw [mulInt]
  norm_num at this ⊢
  exact this

theorem RoundTrips.size (h : x.RoundTrips space n) : 0 < x.stride ∧ x.pixelsNum < 2 ^ 31 := by
  obtain ⟨io, -, hdec⟩ := h
  obtain ⟨d, -, htype, hwidth, hheight, hstride, -, hbuf⟩ :=
    hdec ⟨io.bytes, []⟩ (fun c hc => nomatch hc) (List.append_nil _)
  obtain ⟨out, i', hout, -, hlen, -⟩ := hbuf fun _ => 0
  obtain ⟨hpos, hsize⟩ := lzDecode_length hout
  rw [htype, hwidth, hheight, hstride] at hpos hsize
  rw [hlen, length_bytes_natAbs] at hsize
  have hlt := mulInt_lt x.height (if x.type.isPlt then x.stride else x.width)
  by_cases hplt : x.type.isPlt = true
  · have hk : x.type.kind.size = 1 := by
      revert hplt
      cases x.type <;> simp [LzImageType.isPlt, LzImageType.kind, PixelKind.plt]
    rw [if_pos hplt] at hpos hsize hlt
    rw [hk, Nat.cast_one, mul_one] at hsize
    have hst : 0 < x.stride := by
      by_contra hneg
      have habs : (x.height : Int) * x.stride = -((x.height * x.stride.natAbs : Nat) : Int) := by
        rw [Nat.cast_mul, ← mul_neg]
        congr 1
        omega
      rw [mulInt, habs] at hpos hsize hlt
      rw [bmod_int (by omega) (by omega)] at hpos
      omega
    refine ⟨hst, ?_⟩
    rw [pixelsNum, lineWidth, if_pos hplt, show x.stride.toNat = x.stride.natAbs by omega]
    omega
  · have hst := x.stride_eq_of_rgb (by simpa using hplt)
    have hbpp : 0 < x.type.rgbBytesPerPixel := by
      rw [LzImageType.bytesPerPixel_eq x.type_ne]
      exact x.type.kind.size_pos
    have hpos' : 0 < x.width * x.type.rgbBytesPerPixel := Nat.mul_pos x.width_pos hbpp
    rw [if_neg hplt] at hpos hsize hlt
    rw [hst, Int.natAbs_natCast, ← LzImageType.bytesPerPixel_eq x.type_ne, ← Nat.mul_assoc,
      Nat.cast_mul _ x.type.rgbBytesPerPixel] at hsize
    have hnum := mul_right_cancel₀ (Int.natCast_ne_zero.mpr hbpp.ne') hsize
    refine ⟨by omega, ?_⟩
    rw [pixelsNum, lineWidth, if_neg hplt]
    omega

/-- One stream does not fill the image when a segment is cut short. -/
theorem RoundTrips.fits (h : x.RoundTrips space n) (hs : ∀ i, 0 < space i) (ht : x.type ≠ .rgba) :
    x.Fits := by
  obtain ⟨hpos, hT⟩ := h.size
  refine ⟨hpos, hT, fun c hc => ?_⟩
  by_contra hbig
  have hst := x.stride_eq hpos
  have hbig' : 2 ^ 32 ≤ c.numLines * (x.lineWidth * x.type.kind.size) := by
    rw [hst] at hbig
    norm_cast at hbig
    omega
  have hlt : x.segsNum < x.pixelsNum := by
    have := segsPixels_lt hst x.type.kind.size_pos hc hbig'
    rwa [x.sum_numLines] at this
  obtain ⟨io, he, hdec⟩ := h
  obtain ⟨he', -⟩ | ⟨io', he', bs, hbs, hstream⟩ := lzEncode_single (n := n) hs hpos hT ht
  · rw [he] at he'
    cases he'
  rw [he] at he'
  cases he'
  have hfull : (⟨io.bytes, []⟩ : In).Full := fun c hc => nomatch hc
  have hbytes : (⟨io.bytes, []⟩ : In).bytes = header x.toLzInput ++ bs := (List.append_nil _).trans hbs
  obtain ⟨d, hbegin, -, -, -, -, -, hbuf⟩ := hdec _ hfull (List.append_nil _)
  obtain ⟨i₁, e₁, h₁, f₁⟩ := lzDecodeBegin_header x hfull hbytes
  rw [e₁] at hbegin
  cases hbegin
  obtain ⟨out, i', hout, -⟩ := hbuf fun _ => 0
  rw [lzDecode_eq x.type_ne ht] at hout
  obtain ⟨⟨px, i₂⟩, hpx, -⟩ := bind_eq_ok.mp hout
  rw [mulInt_eq hpos hT, decodePass, decompress_short hstream (by omega) f₁ h₁] at hpx
  cases hpx

/-- An image is decoded again from what `lz_encode` makes of it exactly when its sizes fit. Two streams
one behind the other could hide a segment that was cut short, so for an image with alpha this is only
one direction. -/
theorem roundTrips_iff_fits (x : LzImage) {space : Nat → Nat} (hs : ∀ i, 0 < space i) (n : Nat) :
    (x.Fits → x.RoundTrips space n) ∧ (x.type ≠ .rgba → x.RoundTrips space n → x.Fits) := by
  refine ⟨fun h => ?_, fun ht h => h.fits hs ht⟩
  by_cases ht : x.type = .rgba
  · exact h.roundTrips_rgba hs ht
  · exact h.roundTrips_single hs ht

/-- Two lines of two pixels. -/
def small : LzImage where
  type := .rgb32
  width := 2
  height := 2
  topDown := 1
  stride := 8
  first := ⟨1, [1, 2, 3, 0, 1, 2, 3, 0]⟩
  more := [⟨1, [4, 5, 6, 0, 1, 2, 3, 0]⟩]
  type_ne := by decide
  width_pos := (by decide : 2 > 0)
  width_lt := by decide
  height_pos := (by decide : 2 > 0)
  height_lt := by decide
  topDown_lt := by decide
  le_stride := by decide
  stride_lt := by decide
  numLines_sum := by decide
  more_pos := by decide
  lines_length := by decide
  stride_ok := by decide

theorem small_roundTrips : small.RoundTrips (fun _ => 1) 0 :=
  (small.roundTrips_iff_fits (fun _ => Nat.one_pos) 0).1
    ⟨by decide, by decide, by decide⟩

/-- 32768 lines of 131072 bytes in one segment. -/
def large : LzImage where
  type := .rgb32
  width := 32768
  height := 32768
  topDown := 1
  stride := 131072
  first := ⟨32768, List.replicate (32768 * 131072) 0⟩
  more := []
  type_ne := by decide
  width_pos := by decide
  width_lt := by decide
  height_pos := by decide
  height_lt := by decide
  topDown_lt := by decide
  le_stride := by decide
  stride_lt := by decide
  numLines_sum := rfl
  more_pos := fun c hc => nomatch hc
  lines_length := fun c hc => by
    obtain rfl := List.mem_singleton.mp hc
    exact List.length_replicate
  stride_ok := by decide

/-- The 2 ^ 32 bytes of the one segment come out as none. -/
theorem large_not_roundTrips : ¬ large.RoundTrips (fun _ => 1) 1 := by
  intro h
  have hlines := (h.fits (fun _ => Nat.one_pos) (by decide)).2.2 _ List.mem_cons_self
  exact absurd hlines (by decide)

end RoundTrip

end LzImage

end Colama.Spice.Lz

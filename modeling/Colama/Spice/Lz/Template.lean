import Colama.Spice.Lz.Pixel

namespace Colama.Spice.Lz.Decoder

structure Palette where
  numEnts : UInt16
  ents : Nat → UInt32

/-- What the macros of `lz_decompress_tmpl.c` are in one of its inclusions.

A unit is what `COPY_COMP_PIXEL` reads and writes at once: `bytes` bytes, for `scale` pixels (`CAST_PLT_DISTANCE`).
With `fieldwise` the fields of the pixel are stored as their bytes come in, else it is stored when all of them
are there. `put` is what a pixel becomes when another one is copied to its place. -/
structure Template where
  Pixel : Type
  bytes : Nat
  scale : UInt32
  lenBias : UInt32
  fieldwise : Bool
  comp : List UInt8 → Option (List Pixel)
  put : Pixel → Pixel → Pixel
  scale_pos : 1 ≤ scale.toNat
  scale_le : scale.toNat ≤ 8
  comp_length : ∀ {bs ps}, comp bs = some ps → ps.length = scale.toNat
  scale_of_fieldwise : fieldwise → scale = 1

namespace Template

/-- `COPY_PLT_ENTRY`. -/
def copyPltEntry (ent : UInt32) : Rgb32Pixel := ⟨ent.toUInt8, (ent >>> 8).toUInt8, (ent >>> 16).toUInt8, 0⟩

def pltToPlt : Template where
  Pixel := UInt8
  bytes := 1
  scale := 1
  lenBias := 3
  fieldwise := false
  comp bs := some [bs.getD 0 0]
  put _ p := p
  scale_pos := by decide
  scale_le := by decide
  comp_length h := by cases h; rfl
  scale_of_fieldwise := nofun

def plt8ToRgb32 (palette : Palette) : Template where
  Pixel := Rgb32Pixel
  bytes := 1
  scale := 1
  lenBias := 3
  fieldwise := false
  comp bs := some [copyPltEntry (palette.ents (bs.getD 0 0).toNat)]
  put _ p := p
  scale_pos := by decide
  scale_le := by decide
  comp_length h := by cases h; rfl
  scale_of_fieldwise := nofun

/-- The entry for four bits; the division by the number of the entries has to be by one that is not zero. -/
def plt4Entry (palette : Palette) (bits : UInt8) : Option Rgb32Pixel :=
  if palette.numEnts = 0 then none else some (copyPltEntry (palette.ents (bits.toNat % palette.numEnts.toNat)))

/-- Both pixels of a byte, from the bits in the order in which they are taken. -/
def plt4ToRgb32 (palette : Palette) (first second : UInt8 → UInt8) : Template where
  Pixel := Rgb32Pixel
  bytes := 1
  scale := 2
  lenBias := 3
  fieldwise := false
  comp bs := do
    let p ← plt4Entry palette (first (bs.getD 0 0))
    let q ← plt4Entry palette (second (bs.getD 0 0))
    some [p, q]
  put _ p := p
  scale_pos := by decide
  scale_le := by decide
  comp_length {bs ps} h := by
    obtain ⟨p, -, h⟩ := Option.bind_eq_some_iff.mp h
    obtain ⟨q, -, h⟩ := Option.bind_eq_some_iff.mp h
    cases h
    rfl
  scale_of_fieldwise := nofun

def plt4BeToRgb32 (palette : Palette) : Template := plt4ToRgb32 palette (fun byte => (byte >>> 4) &&& 0x0f) (· &&& 0x0f)

def plt4LeToRgb32 (palette : Palette) : Template := plt4ToRgb32 palette (· &&& 0x0f) fun byte => (byte >>> 4) &&& 0x0f

/-- The eight pixels of a byte, from its bits in the order given. -/
def plt1ToRgb32 (palette : Palette) (order : Fin 8 → UInt8) : Template where
  Pixel := Rgb32Pixel
  bytes := 1
  scale := 8
  lenBias := 3
  fieldwise := false
  comp bs := some ((List.finRange 8).map fun i =>
    copyPltEntry (palette.ents (if ((bs.getD 0 0) >>> order i) &&& 1 ≠ 0 then 1 else 0)))
  put _ p := p
  scale_pos := by decide
  scale_le := by decide
  comp_length h := by
    cases h
    rw [List.length_map, List.length_finRange]
    rfl
  scale_of_fieldwise := nofun

def plt1BeToRgb32 (palette : Palette) : Template := plt1ToRgb32 palette fun i => UInt8.ofNat (7 - i)

def plt1LeToRgb32 (palette : Palette) : Template := plt1ToRgb32 palette fun i => UInt8.ofNat i

def rgb16ToRgb16 : Template where
  Pixel := UInt16
  bytes := 2
  scale := 1
  lenBias := 2
  fieldwise := false
  comp bs := some [(bs.getD 0 0).toUInt16 <<< 8 ||| (bs.getD 1 0).toUInt16]
  put _ p := p
  scale_pos := by decide
  scale_le := by decide
  comp_length h := by cases h; rfl
  scale_of_fieldwise := nofun

/-- The three fields from the first two bytes. -/
def expandRgb16 (r b : UInt8) : Rgb32Pixel :=
  let mask : UInt8 := ~~~0x07
  let g := ((r <<< 6) ||| (b >>> 2)) &&& mask
  ⟨(b <<< 3) ||| ((b >>> 2) &&& 0x07), g ||| (g >>> 5), ((r <<< 1) &&& mask) ||| ((r >>> 4) &&& 0x07), 0⟩

def rgb16ToRgb32 : Template where
  Pixel := Rgb32Pixel
  bytes := 2
  scale := 1
  lenBias := 2
  fieldwise := true
  comp bs := some [expandRgb16 (bs.getD 0 0) (bs.getD 1 0)]
  put _ p := p
  scale_pos := by decide
  scale_le := by decide
  comp_length h := by cases h; rfl
  scale_of_fieldwise _ := rfl

def rgb24ToRgb24 : Template where
  Pixel := Rgb24Pixel
  bytes := 3
  scale := 1
  lenBias := 1
  fieldwise := true
  comp bs := some [⟨bs.getD 0 0, bs.getD 1 0, bs.getD 2 0⟩]
  put _ p := p
  scale_pos := by decide
  scale_le := by decide
  comp_length h := by cases h; rfl
  scale_of_fieldwise _ := rfl

def rgb32ToRgb32 : Template where
  Pixel := Rgb32Pixel
  bytes := 3
  scale := 1
  lenBias := 1
  fieldwise := true
  comp bs := some [⟨bs.getD 0 0, bs.getD 1 0, bs.getD 2 0, 0⟩]
  put _ p := p
  scale_pos := by decide
  scale_le := by decide
  comp_length h := by cases h; rfl
  scale_of_fieldwise _ := rfl

/-- Only the pad byte is copied. -/
def rgbAlpha : Template where
  Pixel := Rgb32Pixel
  bytes := 1
  scale := 1
  lenBias := 3
  fieldwise := false
  comp bs := some [⟨0, 0, 0, bs.getD 0 0⟩]
  put old p := { old with pad := p.pad }
  scale_pos := by decide
  scale_le := by decide
  comp_length h := by cases h; rfl
  scale_of_fieldwise := nofun

end Template

/-- What the decoder does to the output buffer, pixel by pixel. -/
inductive Event
  | write (i : Nat)
  | read (i : Nat)
  deriving DecidableEq

/-- The places in the output are counted in pixels from `out_buf` on. -/
structure DecoderState (Pixel : Type) where
  input : In
  op : Nat
  out : Nat → Pixel
  trace : List Event

variable (t : Template)

abbrev Dec := EStateM Error (DecoderState t.Pixel)

def decodeByte : Dec t UInt8 := fun s =>
  match decode s.input with
  | .ok (b, i) => .ok b { s with input := i }
  | .error e => .error e s

def decoderAssert (p : Prop) [Decidable p] : Dec t Unit := if p then pure () else throw .assertFailed

/-- The first store to the pixel at `op`. -/
def touch : Dec t Unit := modify fun s => { s with trace := s.trace ++ [.write s.op] }

/-- The pixel at `op` has its value, and `op` goes on. -/
def store (p : t.Pixel) : Dec t Unit :=
  modify fun s => { s with out := Function.update s.out s.op (t.put (s.out s.op) p), op := s.op + 1 }

def readPixel (ref : Nat) : Dec t t.Pixel := do
  modify fun s => { s with trace := s.trace ++ [.read ref] }
  return (← get).out ref

def decodeMore : Nat → List UInt8 → Dec t (List UInt8)
  | 0, bs => pure bs
  | n + 1, bs => do decodeMore n (bs ++ [← decodeByte t])

def storeAll : List t.Pixel → Dec t Unit
  | [] => pure ()
  | p :: ps => do
    touch t
    store t p
    storeAll ps

/-- `COPY_COMP_PIXEL`. -/
def copyCompPixel : Dec t Unit := do
  let first ← decodeByte t
  if t.fieldwise then touch t else pure ()
  let bs ← decodeMore t (t.bytes - 1) [first]
  match t.comp bs with
  | none => throw .fault
  | some ps => if t.fieldwise then ps.forM (store t) else storeAll t ps

variable (size : Int)

/-- `op <= op_limit`. -/
def assertLimit : Dec t Unit := do decoderAssert t (((← get).op : Int) ≤ size)

def copyComps : Nat → Dec t Unit
  | 0 => pure ()
  | n + 1 => do
    copyCompPixel t
    assertLimit t size
    copyComps n

omit size in
/-- The codes that are added to a length, up to the first that is not 255. -/
def lengthCodes : Nat → UInt32 → Dec t UInt32
  | 0, _ => throw .outOfFuel
  | n + 1, len => do
    let code ← decodeByte t
    if code = 255 then lengthCodes n (len + code.toUInt32) else pure (len + code.toUInt32)

omit size in
def matchLength (len : UInt32) : Dec t UInt32 := do
  let s ← get
  if len = 7 - 1 then lengthCodes t (s.input.bytes.length + 1) len else pure len

omit size in
def matchDistance (ofs : UInt32) : Dec t UInt32 := do
  let code ← decodeByte t
  if code = 255 ∧ ofs + code.toUInt32 - code.toUInt32 = (31 : UInt32) <<< 8 then do
    let hi ← decodeByte t
    let lo ← decodeByte t
    return (hi.toUInt32 <<< 8) + lo.toUInt32 + 8191
  else return ofs + code.toUInt32

def copyRunOf (b : t.Pixel) : Nat → Dec t Unit
  | 0 => pure ()
  | n + 1 => do
    touch t
    store t b
    assertLimit t size
    copyRunOf b n

def copyFrom : Nat → Nat → Dec t Unit
  | 0, _ => pure ()
  | n + 1, ref => do
    let b ← readPixel t ref
    touch t
    store t b
    assertLimit t size
    copyFrom n (ref + 1)

def copyMatch (len ofs : UInt32) : Dec t Unit := do
  let op := (← get).op
  let ref : Int := op - ofs.toNat
  decoderAssert t ((op : Int) + len.toNat ≤ size)
  decoderAssert t (ref + len.toNat ≤ size)
  decoderAssert t (0 ≤ ref)
  if ref = op - 1 then do
    let b ← readPixel t ref.toNat
    copyRunOf t size b len.toNat
  else copyFrom t size len.toNat ref.toNat

/-- A reference or a run; `ctrl` has at least `MAX_COPY`. -/
def reference (ctrl : UInt32) : Dec t Unit := do
  let len ← matchLength t ((ctrl >>> 5) - 1)
  let ofs ← matchDistance t ((ctrl &&& 31) <<< 8)
  copyMatch t size ((len + t.lenBias) * t.scale) ((ofs + 1) * t.scale)

/-- `ctrl + 1` units that follow as they are. -/
def literals (ctrl : UInt32) : Dec t Unit := do
  let op := (← get).op
  decoderAssert t ((op : Int) + ((ctrl + 1) * t.scale).toNat ≤ size)
  copyComps t size (ctrl + 1).toNat

def decompressRounds : Nat → UInt32 → Dec t Unit
  | 0, _ => throw .outOfFuel
  | n + 1, ctrl => do
    if ctrl ≥ 32 then reference t size ctrl else literals t size ctrl
    let s ← get
    if (s.op : Int) < size then do
      let next ← decodeByte t
      decompressRounds n next.toUInt32
    else pure ()

/-- The rounds are as many as the input can start. What is returned is `op - out_buf`. -/
def decompress : Dec t Nat := do
  let s ← get
  let ctrl ← decodeByte t
  decompressRounds t size (s.input.bytes.length + 1) ctrl.toUInt32
  return (← get).op

end Colama.Spice.Lz.Decoder

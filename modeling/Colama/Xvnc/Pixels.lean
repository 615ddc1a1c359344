import Colama.Lib.Bytes

namespace Colama.Xvnc

open Lib

/-- The bits per pixel of a client format. -/
inductive Bpp
  | bpp8 | bpp16 | bpp32
  deriving DecidableEq

/-- `bpp/8`. -/
def Bpp.size : Bpp → Nat
  | .bpp8 => 1
  | .bpp16 => 2
  | .bpp32 => 4

/-- `CARD8`, `CARD16` or `CARD32`. -/
abbrev Card (bpp : Bpp) := BitVec (8 * bpp.size)

variable {bpp : Bpp}

def Card.bytes (pix : Card bpp) : List UInt8 := leBytes bpp.size pix.toNat

/-- `GET_PIXEL`. -/
def Card.ofBytes (bs : List UInt8) : Card bpp := BitVec.ofNat _ (ofLeBytes bs)

@[simp] theorem Card.length_bytes (pix : Card bpp) : pix.bytes.length = bpp.size :=
  length_leBytes _ _

@[simp] theorem Card.ofBytes_bytes (pix : Card bpp) : Card.ofBytes pix.bytes = pix := by
  apply BitVec.eq_of_toNat_eq
  rw [Card.ofBytes, Card.bytes, ofLeBytes_leBytes, BitVec.toNat_ofNat, Nat.pow_mul]
  have hlt := pix.isLt
  rw [Nat.pow_mul] at hlt
  simp only [Nat.reducePow] at hlt ⊢
  rw [Nat.mod_mod, Nat.mod_eq_of_lt hlt]

theorem Card.bytes_ofBytes {bs : List UInt8} (h : bs.length = bpp.size) : (Card.ofBytes bs : Card bpp).bytes = bs := by
  have hlt := ofLeBytes_lt bs
  have hpow : 2 ^ (8 * bpp.size) = 256 ^ bpp.size := Nat.pow_mul 2 8 bpp.size
  rw [h] at hlt
  rw [Card.bytes, Card.ofBytes, BitVec.toNat_ofNat, hpow, Nat.mod_eq_of_lt hlt, ← h, leBytes_ofLeBytes]

theorem Bpp.size_pos (bpp : Bpp) : 0 < bpp.size := by
  cases bpp <;> decide

end Colama.Xvnc

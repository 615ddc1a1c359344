import Colama.Qemu.Block.ByteIo

namespace Colama.Qemu.Block.ByteIo

open Lib.Memory

theorem sectorSize_eq : BDRV_SECTOR_SIZE = 512 := rfl

/-- The sector that a request reaches once its offset in bytes has been cut to 64 bits. -/
def wrapSector (sectorNum : Int) : Int := sectorNum.bmod (2 ^ 55)

theorem int64_sector (sectorNum : Int) : int64 (sectorNum * BDRV_SECTOR_SIZE) = wrapSector sectorNum * 512 := by
  simp only [int64, wrapSector, sectorSize_eq, Int.bmod]
  omega

theorem wrapSector_of_lt {sectorNum : Int} (h : -2 ^ 54 ≤ sectorNum) (h' : sectorNum < 2 ^ 54) :
    wrapSector sectorNum = sectorNum := by
  simp only [wrapSector, Int.bmod]
  omega

theorem wrapSector_lt (sectorNum : Int) : -2 ^ 54 ≤ wrapSector sectorNum ∧ wrapSector sectorNum < 2 ^ 54 := by
  simp only [wrapSector, Int.bmod]
  omega

section Check

variable {d : Device} {sectorNum nbSectors : Int}

theorem bdrvGetlength_eq (d : Device) : bdrvGetlength d = d.totalSectors * 512 := by
  have := d.totalSectors_lt
  rw [bdrvGetlength, int64_sector, wrapSector_of_lt (by omega) (by omega)]

theorem bdrvCheckRequest_growable (h : bdrvIsInserted d) (hg : d.growable) :
    bdrvCheckRequest d sectorNum nbSectors = .ok () := by
  rw [bdrvCheckRequest, bdrvCheckByteRequest, if_neg (by simp [h]), if_pos hg]

/-- What the check really compares, on a device of a fixed size. -/
theorem bdrvCheckRequest_iff (h : bdrvIsInserted d) (hg : d.growable = false) (hlo : -2 ^ 31 ≤ nbSectors)
    (hhi : nbSectors < 2 ^ 54) :
    bdrvCheckRequest d sectorNum nbSectors = .ok () ↔ InDevice d (wrapSector sectorNum) nbSectors := by
  have htotal := d.totalSectors_lt
  have hwrap := wrapSector_lt sectorNum
  have hsize : uint64 (nbSectors * BDRV_SECTOR_SIZE) = (nbSectors * 512 % 2 ^ 64).toNat := by
    rw [uint64, sectorSize_eq]
    rfl
  rw [bdrvCheckRequest, bdrvCheckByteRequest, if_neg (by simp [h]), if_neg (by simp [hg]), int64_sector, hsize,
    bdrvGetlength_eq, InDevice]
  dsimp only
  by_cases hneg : wrapSector sectorNum * 512 < 0
  · rw [if_pos hneg]
    exact ⟨nofun, fun hd => by omega⟩
  · rw [if_neg hneg]
    by_cases hout : wrapSector sectorNum * 512 > d.totalSectors * 512 ∨
        uint64 (d.totalSectors * 512 - wrapSector sectorNum * 512) < (nbSectors * 512 % 2 ^ 64).toNat
    · rw [if_pos hout]
      simp only [uint64] at hout
      exact ⟨nofun, fun hd => by omega⟩
    · rw [if_neg hout]
      simp only [uint64] at hout
      exact ⟨fun _ => by omega, fun _ => rfl⟩

theorem bdrvCheckRequest_of_inDevice (h : bdrvIsInserted d) (hd : InDevice d sectorNum nbSectors) :
    bdrvCheckRequest d sectorNum nbSectors = .ok () := by
  have htotal := d.totalSectors_lt
  cases hg : d.growable with
  | true => exact bdrvCheckRequest_growable h hg
  | false =>
    obtain ⟨h₁, h₂, h₃⟩ := hd
    rw [bdrvCheckRequest_iff h hg (by omega) (by omega), wrapSector_of_lt (by omega) (by omega)]
    exact ⟨h₁, h₂, h₃⟩

end Check

/-- The device can be read. -/
structure Usable (d : Device) : Prop where
  hasDriver : d.hasDriver
  mediumPresent : d.mediumPresent

theorem Usable.inserted {d : Device} (h : Usable d) : bdrvIsInserted d := by
  rw [bdrvIsInserted, h.hasDriver, h.mediumPresent]
  rfl

theorem bind_ok {α β : Type} {x : Io α} {f : α → Io β} {d d' : Device} {a : α} (h : x d = .ok a d') :
    (x >>= f) d = f a d' := by
  simp only [bind, EStateM.bind, h]

section Pread

variable {d : Device} (hu : Usable d)

include hu

theorem bdrvRead_ok {s n : Nat} (h : s + n ≤ d.totalSectors) :
    bdrvRead s n d = .ok (readFrom d.bytes (s * 512) (n * 512)) d := by
  have hd : InDevice d s n := ⟨Int.natCast_nonneg s, Int.natCast_nonneg n, by omega⟩
  rw [bdrvRead, if_neg (by simp [hu.hasDriver]), bdrvCheckRequest_of_inDevice hu.inserted hd, drvRead, if_pos hd]
  rfl

theorem readSector_ok {s : Nat} (h : s < d.totalSectors) : bdrvRead s 1 d = .ok (readFrom d.bytes (s * 512) 512) d :=
  bdrvRead_ok (n := 1) hu h

theorem preadTail_ok (whole : List UInt8) {s c : Nat} (hc : c < 512) (h : s * 512 + c ≤ d.totalSectors * 512) :
    (if (c : Int) > 0 then do
      let tmpBuf ← bdrvRead s 1
      return whole ++ tmpBuf.take (c : Int).toNat
    else pure whole : Io (List UInt8)) d = .ok (whole ++ readFrom d.bytes (s * 512) c) d := by
  by_cases h0 : (c : Int) > 0
  · rw [if_pos h0, bind_ok (readSector_ok hu (by omega)), Int.toNat_natCast, take_readFrom _ _ (by omega)]
    rfl
  · obtain rfl : c = 0 := by omega
    rw [if_neg h0, readFrom, List.append_nil]
    rfl

theorem preadRest_ok {s c : Nat} (h : s * 512 + c ≤ d.totalSectors * 512) :
    preadRest s c d = .ok (readFrom d.bytes (s * 512) c) d := by
  have hnb : (c : Int) / BDRV_SECTOR_SIZE = ((c / 512 : Nat) : Int) := rfl
  rw [preadRest, hnb]
  by_cases hw : 0 < c / 512
  · have hend : (s + c / 512) * 512 + c % 512 ≤ d.totalSectors * 512 := by
      rwa [Nat.add_mul, Nat.add_assoc, Nat.div_add_mod']
    have hpos : ((c / 512 : Nat) : Int) > 0 := by omega
    have hs : (s : Int) + (c / 512 : Nat) = ((s + c / 512 : Nat) : Int) := by omega
    have hc : (c : Int) - (c / 512 : Nat) * BDRV_SECTOR_SIZE = ((c % 512 : Nat) : Int) := by
      rw [sectorSize_eq]
      omega
    have htail := preadTail_ok hu (readFrom d.bytes (s * 512) (c / 512 * 512)) (Nat.mod_lt c (by decide)) hend
    have hdiv : readFrom d.bytes (s * 512) (c / 512 * 512) ++ readFrom d.bytes ((s + c / 512) * 512) (c % 512) =
        readFrom d.bytes (s * 512) c := by
      rw [Nat.add_mul, ← readFrom_add, Nat.div_add_mod']
    simp only [if_pos hpos, hs, hc]
    rw [bind_ok (bdrvRead_ok hu (by omega)), htail, hdiv]
  · have hneg : ¬ ((c / 512 : Nat) : Int) > 0 := by omega
    have htail := preadTail_ok hu [] (show c < 512 by omega) h
    simp only [if_neg hneg, pure_bind]
    rw [htail, List.nil_append]

omit hu in
theorem headLength_eq (o c : Nat) : headLength o c = ((min ((512 - o % 512) % 512) c : Nat) : Int) := by
  rw [headLength, sectorSize_eq]
  omega

omit hu in
theorem sectorStart_of_no_head {o c : Nat} (h : ¬ ((min ((512 - o % 512) % 512) c : Nat) : Int) > 0) (h0 : c ≠ 0) :
    o / 512 * 512 = o := by
  omega

omit hu in
theorem inSector_eq (o : Nat) : inSector o = o % 512 := by
  rw [inSector, sectorSize_eq]
  omega

theorem bdrvPread_ok {o c : Nat} (h : o + c ≤ d.totalSectors * 512) :
    bdrvPread o c d = .ok (readFrom d.bytes o c) d := by
  have hsector : (o : Int) / BDRV_SECTOR_SIZE = ((o / 512 : Nat) : Int) := rfl
  have hdiv := Nat.div_add_mod' o 512
  rw [bdrvPread, headLength_eq, hsector, inSector_eq]
  dsimp only
  by_cases hlen : ((min ((512 - o % 512) % 512) c : Nat) : Int) > 0
  · have hhead : ((readFrom d.bytes (o / 512 * 512) 512).drop (o % 512)).take (min ((512 - o % 512) % 512) c) =
        readFrom d.bytes o (min ((512 - o % 512) % 512) c) := by
      rw [drop_readFrom _ _ (by omega), take_readFrom _ _ (by omega), hdiv]
    rw [if_pos hlen, bind_ok (readSector_ok hu (by omega)), Int.toNat_natCast, hhead]
    by_cases hdone : (c : Int) - (min ((512 - o % 512) % 512) c : Nat) = 0
    · rw [if_pos hdone]
      have hc : min ((512 - o % 512) % 512) c = c := by omega
      rw [hc]
      rfl
    · have hnext : ((o / 512 : Nat) : Int) + 1 = ((o / 512 + 1 : Nat) : Int) := rfl
      have hleft : (c : Int) - (min ((512 - o % 512) % 512) c : Nat) = ((c - (512 - o % 512) : Nat) : Int) := by omega
      have hmin : min ((512 - o % 512) % 512) c = 512 - o % 512 := by omega
      have hstart : (o / 512 + 1) * 512 = o + (512 - o % 512) := by omega
      rw [if_neg hdone, hnext, hleft, bind_ok (preadRest_ok hu (by omega)), hmin, hstart]
      change EStateM.Result.ok _ d = _
      rw [← readFrom_add, Nat.add_sub_cancel' (by omega)]
  · rw [if_neg hlen]
    have hle : o / 512 * 512 + c ≤ d.totalSectors * 512 := Nat.le_trans (Nat.add_le_add_right (Nat.div_mul_le_self o 512) c) h
    rw [preadRest_ok hu hle]
    by_cases h0 : c = 0
    · rw [h0]
      rfl
    · rw [sectorStart_of_no_head hlen h0]

end Pread

section Pwrite

/-- The device can be written. -/
structure Writable (d : Device) : Prop extends Usable d where
  writable : d.readOnly = false

/-- What a write leaves of a device: the bytes from `off` on are those of `bs`, and the rest of it is as it was. -/
structure Written (d d' : Device) (off : Nat) (bs : List UInt8) : Prop where
  totalSectors : d'.totalSectors = d.totalSectors
  hasDriver : d'.hasDriver = d.hasDriver
  mediumPresent : d'.mediumPresent = d.mediumPresent
  growable : d'.growable = d.growable
  readOnly : d'.readOnly = d.readOnly
  bytes : d'.bytes = writeFrom d.bytes off bs

variable {d d' d'' : Device} {off : Nat} {as bs : List UInt8}

theorem Written.writable (h : Written d d' off bs) (hw : Writable d) : Writable d' where
  hasDriver := h.hasDriver.trans hw.hasDriver
  mediumPresent := h.mediumPresent.trans hw.mediumPresent
  writable := h.readOnly.trans hw.writable

theorem Written.trans (h : Written d d' off as) (h' : Written d' d'' (off + as.length) bs) :
    Written d d'' off (as ++ bs) where
  totalSectors := h'.totalSectors.trans h.totalSectors
  hasDriver := h'.hasDriver.trans h.hasDriver
  mediumPresent := h'.mediumPresent.trans h.mediumPresent
  growable := h'.growable.trans h.growable
  readOnly := h'.readOnly.trans h.readOnly
  bytes := by rw [h'.bytes, h.bytes, writeFrom_writeFrom]

theorem Written.nil (d : Device) (off : Nat) : Written d d off [] := ⟨rfl, rfl, rfl, rfl, rfl, rfl⟩

variable (hw : Writable d)

include hw

theorem bdrvWrite_ok {s n : Nat} (h : s + n ≤ d.totalSectors) (buf : List UInt8) :
    ∃ d', bdrvWrite s buf n d = .ok () d' ∧ Written d d' (s * 512) (buf.take (n * 512)) := by
  have hd : InDevice d s n := ⟨Int.natCast_nonneg s, Int.natCast_nonneg n, by omega⟩
  rw [bdrvWrite, if_neg (by simp [hw.hasDriver]), if_neg (by simp [hw.writable]),
    bdrvCheckRequest_of_inDevice hw.inserted hd]
  dsimp only
  rw [drvWrite, if_pos (by exact hd)]
  exact ⟨_, rfl, rfl, rfl, rfl, rfl, rfl, rfl⟩

/-- A sector that is read, changed and written back. -/
theorem rewriteSector_ok {s o : Nat} (h : s < d.totalSectors) (bs : List UInt8) (hbs : o + bs.length ≤ 512) :
    ∃ d', bdrvWrite s (splice (readFrom d.bytes (s * 512) 512) o bs) 1 d = .ok () d' ∧
      Written d d' (s * 512 + o) bs := by
  obtain ⟨d', hd', hwr⟩ := bdrvWrite_ok (n := 1) hw h (splice (readFrom d.bytes (s * 512) 512) o bs)
  have hlen : (splice (readFrom d.bytes (s * 512) 512) o bs).length = 512 := by
    simp only [splice, List.length_append, List.length_take, List.length_drop, length_readFrom]
    omega
  refine ⟨d', hd', hwr.totalSectors, hwr.hasDriver, hwr.mediumPresent, hwr.growable, hwr.readOnly, ?_⟩
  rw [hwr.bytes, List.take_of_length_le (by omega), splice, writeFrom_splice _ _ hbs]

theorem pwriteTail_ok {s : Nat} (hbs : bs.length < 512) (h : s * 512 + bs.length ≤ d.totalSectors * 512) :
    ∃ d', (if (bs.length : Int) > 0 then do
      let tmpBuf ← bdrvRead s 1
      bdrvWrite s (splice tmpBuf 0 (bs.take (bs.length : Int).toNat)) 1
    else pure () : Io Unit) d = .ok () d' ∧ Written d d' (s * 512) bs := by
  by_cases h0 : (bs.length : Int) > 0
  · rw [if_pos h0, bind_ok (readSector_ok hw.toUsable (by omega)), Int.toNat_natCast, List.take_length]
    have hs := rewriteSector_ok (o := 0) hw (show s < d.totalSectors by omega) bs (by omega)
    rwa [Nat.add_zero] at hs
  · obtain rfl : bs = [] := List.eq_nil_of_length_eq_zero (by omega)
    exact ⟨d, rfl, .nil d _⟩

theorem pwriteRest_ok (bs : List UInt8) {s : Nat} (h : s * 512 + bs.length ≤ d.totalSectors * 512) :
    ∃ d', pwriteRest s bs bs.length d = .ok () d' ∧ Written d d' (s * 512) bs := by
  have hnb : (bs.length : Int) / BDRV_SECTOR_SIZE = ((bs.length / 512 : Nat) : Int) := rfl
  rw [pwriteRest, hnb]
  by_cases hn : 0 < bs.length / 512
  · have hpos : ((bs.length / 512 : Nat) : Int) > 0 := by omega
    have hle : s + bs.length / 512 ≤ d.totalSectors := by omega
    have hs : (s : Int) + (bs.length / 512 : Nat) = ((s + bs.length / 512 : Nat) : Int) := rfl
    have hdrop : (bs.drop (bs.length / 512 * 512)).length = bs.length % 512 := by
      rw [List.length_drop]
      omega
    have htake : (bs.take (bs.length / 512 * 512)).length = bs.length / 512 * 512 := by
      rw [List.length_take]
      omega
    have hc : (bs.length : Int) - (bs.length / 512 : Nat) * BDRV_SECTOR_SIZE =
        ((bs.drop (bs.length / 512 * 512)).length : Int) := by
      rw [sectorSize_eq, hdrop]
      omega
    have hstart : sectorStart (bs.length / 512 : Nat) = bs.length / 512 * 512 := rfl
    obtain ⟨d₁, hd₁, hwr₁⟩ := bdrvWrite_ok hw hle bs
    have hend : (s + bs.length / 512) * 512 + (bs.drop (bs.length / 512 * 512)).length ≤ d₁.totalSectors * 512 := by
      rwa [hwr₁.totalSectors, hdrop, Nat.add_mul, Nat.add_assoc, Nat.div_add_mod']
    obtain ⟨d₂, hd₂, hwr₂⟩ := pwriteTail_ok (hwr₁.writable hw) (hdrop.trans_lt (Nat.mod_lt _ (by decide))) hend
    simp only [if_pos hpos, hs, hc, hstart]
    refine ⟨d₂, (bind_ok hd₁).trans hd₂, ?_⟩
    rw [Nat.add_mul, ← htake] at hwr₂
    have htrans := hwr₁.trans hwr₂
    rwa [htake, List.take_append_drop] at htrans
  · have hneg : ¬ ((bs.length / 512 : Nat) : Int) > 0 := by omega
    have htail := pwriteTail_ok hw (show bs.length < 512 by omega) h
    simp only [if_neg hneg, pure_bind]
    exact htail

theorem bdrvPwrite_ok {o : Nat} (h : o + bs.length ≤ d.totalSectors * 512) :
    ∃ d', bdrvPwrite o bs bs.length d = .ok () d' ∧ Written d d' o bs := by
  have hsector : (o : Int) / BDRV_SECTOR_SIZE = ((o / 512 : Nat) : Int) := rfl
  have hdiv := Nat.div_add_mod' o 512
  rw [bdrvPwrite, headLength_eq, hsector, inSector_eq]
  by_cases hlen : ((min ((512 - o % 512) % 512) bs.length : Nat) : Int) > 0
  · have hhead : (bs.take (min ((512 - o % 512) % 512) bs.length)).length =
        min ((512 - o % 512) % 512) bs.length := by
      rw [List.length_take, Nat.min_eq_left (Nat.min_le_right _ _)]
    obtain ⟨d₁, hd₁, hwr₁⟩ := rewriteSector_ok hw (show o / 512 < d.totalSectors by omega)
      (bs.take (min ((512 - o % 512) % 512) bs.length)) (show o % 512 + _ ≤ 512 by omega)
    rw [if_pos hlen, bind_ok (readSector_ok hw.toUsable (by omega)), Int.toNat_natCast, bind_ok hd₁]
    rw [hdiv] at hwr₁
    by_cases hdone : (bs.length : Int) - (min ((512 - o % 512) % 512) bs.length : Nat) = 0
    · rw [if_pos hdone]
      have hall : bs.take (min ((512 - o % 512) % 512) bs.length) = bs := List.take_of_length_le (by omega)
      rw [hall] at hwr₁
      exact ⟨d₁, rfl, hwr₁⟩
    · have hmin : min ((512 - o % 512) % 512) bs.length = 512 - o % 512 := by omega
      have hnext : ((o / 512 : Nat) : Int) + 1 = ((o / 512 + 1 : Nat) : Int) := rfl
      rw [hmin] at hhead hwr₁ hdone
      have hdrop : (bs.drop (512 - o % 512)).length = bs.length - (512 - o % 512) := List.length_drop
      have hleft : (bs.length : Int) - (512 - o % 512 : Nat) = ((bs.drop (512 - o % 512)).length : Int) := by omega
      have hstart : (o / 512 + 1) * 512 = o + (bs.take (512 - o % 512)).length := by omega
      obtain ⟨d₂, hd₂, hwr₂⟩ := pwriteRest_ok (s := o / 512 + 1) (hwr₁.writable hw) (bs.drop (512 - o % 512))
        (by rw [hwr₁.totalSectors]; omega)
      rw [hstart] at hwr₂
      have htrans := hwr₁.trans hwr₂
      rw [List.take_append_drop] at htrans
      rw [hmin, if_neg hdone, hnext, hleft]
      exact ⟨d₂, hd₂, htrans⟩
  · have hle : o / 512 * 512 + bs.length ≤ d.totalSectors * 512 :=
      Nat.le_trans (Nat.add_le_add_right (Nat.div_mul_le_self o 512) _) h
    rw [if_neg hlen]
    obtain ⟨d', hd', hwr⟩ := pwriteRest_ok hw bs hle
    refine ⟨d', hd', ?_⟩
    by_cases h0 : bs.length = 0
    · obtain rfl : bs = [] := List.eq_nil_of_length_eq_zero h0
      exact ⟨hwr.totalSectors, hwr.hasDriver, hwr.mediumPresent, hwr.growable, hwr.readOnly, hwr.bytes⟩
    · rwa [sectorStart_of_no_head hlen h0] at hwr

end Pwrite

/-- The offset in bytes of the sector is an `int64_t`. -/
def SectorFits (sectorNum : Int) : Prop := -2 ^ 54 ≤ sectorNum ∧ sectorNum < 2 ^ 54

theorem check_sound_iff {d : Device} (hg : d.growable = false) {sectorNum nbSectors : Int} (hlo : -2 ^ 31 ≤ nbSectors)
    (hhi : nbSectors < 2 ^ 31) :
    (bdrvCheckRequest d sectorNum nbSectors = .ok () → InDevice d sectorNum nbSectors) ↔
      (bdrvIsInserted d → SectorFits sectorNum ∨ ¬ InDevice d (wrapSector sectorNum) nbSectors) := by
  have htotal := d.totalSectors_lt
  by_cases hi : bdrvIsInserted d
  · rw [bdrvCheckRequest_iff hi hg hlo (by omega)]
    constructor
    · intro h _
      by_cases hw : InDevice d (wrapSector sectorNum) nbSectors
      · obtain ⟨h₁, h₂, h₃⟩ := h hw
        exact .inl ⟨by omega, by omega⟩
      · exact .inr hw
    · intro h hw
      obtain hf | hn := h hi
      · rwa [wrapSector_of_lt hf.1 hf.2] at hw
      · exact absurd hw hn
  · have hout : bdrvCheckRequest d sectorNum nbSectors = .error .noMedium := by
      rw [bdrvCheckRequest, bdrvCheckByteRequest, if_pos (by simpa using hi)]
    rw [hout]
    exact ⟨fun _ h => absurd h hi, fun _ => nofun⟩

/-- `bdrv_pwrite` and `bdrv_pread` are the write and the read of an array of bytes, and the check keeps requests
inside a device of a fixed size unless the offset of the sector wraps to one that is inside. -/
theorem byte_io (d : Device) :
    (Writable d → ∀ (o : Nat) (bs : List UInt8), o + bs.length ≤ d.totalSectors * 512 →
      ∃ d', bdrvPwrite o bs bs.length d = .ok () d' ∧ Written d d' o bs) ∧
    (Usable d → ∀ o c : Nat, o + c ≤ d.totalSectors * 512 → bdrvPread o c d = .ok (readFrom d.bytes o c) d) ∧
    (d.growable = false → ∀ sectorNum nbSectors : Int, -2 ^ 31 ≤ nbSectors → nbSectors < 2 ^ 31 →
      ((bdrvCheckRequest d sectorNum nbSectors = .ok () → InDevice d sectorNum nbSectors) ↔
        (bdrvIsInserted d → SectorFits sectorNum ∨ ¬ InDevice d (wrapSector sectorNum) nbSectors))) :=
  ⟨fun hw _ bs h => @bdrvPwrite_ok _ bs hw _ h, fun hu _ _ h => bdrvPread_ok hu h,
    fun hg _ _ hlo hhi => check_sound_iff hg hlo hhi⟩

def twoSectors : Device := ⟨2, by decide, true, true, false, false, 0, fun _ => 0⟩

theorem byte_io_two_sectors :
    (∃ d', bdrvPwrite 510 [1, 2, 3, 4] 4 twoSectors = .ok () d' ∧ Written twoSectors d' 510 [1, 2, 3, 4]) ∧
    bdrvPread 510 4 twoSectors = .ok [0, 0, 0, 0] twoSectors ∧
    ((bdrvCheckRequest twoSectors 1 1 = .ok () → InDevice twoSectors 1 1) ↔
      (bdrvIsInserted twoSectors → SectorFits 1 ∨ ¬ InDevice twoSectors (wrapSector 1) 1)) :=
  ⟨(byte_io twoSectors).1 ⟨⟨rfl, rfl⟩, rfl⟩ 510 [1, 2, 3, 4] (by decide),
    (byte_io twoSectors).2.1 ⟨rfl, rfl⟩ 510 4 (by decide),
    (byte_io twoSectors).2.2 rfl 1 1 (by decide) (by decide)⟩

/-- One sector from 2^55 on is let through: its offset in bytes is 2^64. -/
theorem not_inDevice_wrapped : ¬ ∀ sectorNum nbSectors : Int, -2 ^ 63 ≤ sectorNum → sectorNum < 2 ^ 63 →
    -2 ^ 31 ≤ nbSectors → nbSectors < 2 ^ 31 →
    bdrvCheckRequest twoSectors sectorNum nbSectors = .ok () → InDevice twoSectors sectorNum nbSectors := by
  intro h
  exact absurd (h (2 ^ 55) 1 (by decide) (by decide) (by decide) (by decide) (by decide)) (by decide)

/-- A read or a write of bytes. -/
inductive Request
  | pread (offset count1 : Nat)
  | pwrite (offset : Nat) (buf : List UInt8)

namespace Request

def stop : Request → Nat
  | .pread offset count1 => offset + count1
  | .pwrite offset buf => offset + buf.length

def io : Request → Io (List UInt8)
  | .pread offset count1 => bdrvPread offset count1
  | .pwrite offset buf => do
    bdrvPwrite offset buf buf.length
    return []

/-- What the requests read of an array of bytes, and leave of it. -/
def runArray : List Request → (Nat → UInt8) → List (List UInt8) × (Nat → UInt8)
  | [], bytes => ([], bytes)
  | .pread offset count1 :: rs, bytes => (runArray rs bytes).map (readFrom bytes offset count1 :: ·) id
  | .pwrite offset buf :: rs, bytes => (runArray rs (writeFrom bytes offset buf)).map ([] :: ·) id

/-- A device behaves like an array of bytes over every run of requests that are inside. -/
theorem run_io {d : Device} (hd : Writable d) {rs : List Request} (h : ∀ r ∈ rs, r.stop ≤ d.totalSectors * 512) :
    ∃ d', rs.mapM io d = .ok (runArray rs d.bytes).1 d' ∧ d'.bytes = (runArray rs d.bytes).2 := by
  induction rs generalizing d with
  | nil => exact ⟨d, rfl, rfl⟩
  | cons r rs ih =>
    have hr := h r List.mem_cons_self
    have hrs r (hr : r ∈ rs) := h r (List.mem_cons_of_mem _ hr)
    rw [List.mapM_cons]
    cases r with
    | pread offset count1 =>
      obtain ⟨d', hrun, hbytes⟩ := ih hd hrs
      exact ⟨d', (bind_ok (bdrvPread_ok hd.toUsable hr)).trans (bind_ok hrun), hbytes⟩
    | pwrite offset buf =>
      obtain ⟨d₁, hwrite, hwritten⟩ := bdrvPwrite_ok hd hr
      obtain ⟨d', hrun, hbytes⟩ := ih (hwritten.writable hd) (hwritten.totalSectors ▸ hrs)
      rw [hwritten.bytes] at hrun hbytes
      have hio : io (.pwrite offset buf) d = .ok [] d₁ := bind_ok hwrite
      exact ⟨d', (bind_ok hio).trans (bind_ok hrun), hbytes⟩

theorem run_io_two_sectors :
    ∃ d', [pwrite 510 [1, 2, 3], pread 511 3].mapM io twoSectors = .ok [[], [2, 3, 0]] d' ∧
      d'.bytes = (runArray [pwrite 510 [1, 2, 3], pread 511 3] twoSectors.bytes).2 :=
  run_io ⟨⟨rfl, rfl⟩, rfl⟩ (by decide)

end Request

end Colama.Qemu.Block.ByteIo

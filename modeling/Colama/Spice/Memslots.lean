import Mathlib.Tactic

namespace Colama.Spice.Memslots

structure MemSlot where
  generation : Int32
  virtStartAddr : UInt64
  virtEndAddr : UInt64
  addressDelta : Int64
  deriving DecidableEq

def MemSlot.zero : MemSlot := ⟨0, 0, 0, 0⟩

/-- `mem_slots` has exactly the rows and entries that were allocated for it. -/
structure RedMemSlotInfo where
  numMemslotsGroups : UInt32
  numMemslots : UInt32
  memSlotBits : UInt8
  generationBits : UInt8
  memslotIdShift : UInt8
  memslotGenShift : UInt8
  internalGroupslotId : UInt8
  memslotGenMask : UInt64
  memslotCleanVirtMask : UInt64
  memSlots : List (List MemSlot)
  groups_eq : memSlots.length = numMemslotsGroups.toNat
  slots_eq : ∀ row ∈ memSlots, row.length = numMemslots.toNat

inductive Panic
  | groupIdTooBig | slotIdTooBig | generationNotValid | virtualAddressOverlap
  | virtualAddressOutOfRange
  deriving DecidableEq

/-- How a run ends early: in a `PANIC`, or in the read of an entry outside the tables. -/
inductive Stop
  | panic (p : Panic)
  | outOfTable
  deriving DecidableEq

def getMemslotId (info : RedMemSlotInfo) (addr : UInt64) : Int32 :=
  (addr >>> info.memslotIdShift.toUInt64).toUInt32.toInt32

def getGeneration (info : RedMemSlotInfo) (addr : UInt64) : Int32 :=
  ((addr >>> info.memslotGenShift.toUInt64) &&& info.memslotGenMask).toUInt32.toInt32

def getCleanVirt (info : RedMemSlotInfo) (addr : UInt64) : UInt64 :=
  addr &&& info.memslotCleanVirtMask

/-- `&info->mem_slots[group_id][slot_id]`, both subscripts signed as the compiler sees them. -/
def slotAt (info : RedMemSlotInfo) (groupId slotId : Int) : Except Stop MemSlot :=
  if groupId < 0 ∨ slotId < 0 then .error .outOfTable
  else match info.memSlots[groupId.toNat]? with
    | none => .error .outOfTable
    | some row => match row[slotId.toNat]? with
      | none => .error .outOfTable
      | some slot => .ok slot

def validateVirt (info : RedMemSlotInfo) (virt : UInt64) (slotId : Int32) (addSize : UInt32)
    (groupId : UInt32) : Except Stop Unit := do
  let slot ← slotAt info groupId.toNat slotId.toInt
  if virt + addSize.toUInt64 < virt then throw (.panic .virtualAddressOverlap)
  if virt < slot.virtStartAddr ∨ virt + addSize.toUInt64 > slot.virtEndAddr then
    throw (.panic .virtualAddressOutOfRange)

def getVirt (info : RedMemSlotInfo) (addr : UInt64) (addSize : UInt32) (groupId : Int32) :
    Except Stop UInt64 := do
  if groupId.toUInt32 > info.numMemslotsGroups then throw (.panic .groupIdTooBig)
  let slotId := getMemslotId info addr
  if slotId.toUInt32 > info.numMemslots then throw (.panic .slotIdTooBig)
  let slot ← slotAt info groupId.toInt slotId.toInt
  if getGeneration info addr ≠ slot.generation then throw (.panic .generationNotValid)
  let hVirt := getCleanVirt info addr + slot.addressDelta.toUInt64
  validateVirt info hVirt slotId addSize groupId.toUInt32
  return hVirt

def getVirtDelta (info : RedMemSlotInfo) (addr : UInt64) (groupId : Int32) : Except Stop UInt64 := do
  if groupId.toUInt32 > info.numMemslotsGroups then throw (.panic .groupIdTooBig)
  let slotId := getMemslotId info addr
  if slotId.toUInt32 > info.numMemslots then throw (.panic .slotIdTooBig)
  let slot ← slotAt info groupId.toInt slotId.toInt
  if getGeneration info addr ≠ slot.generation then throw (.panic .generationNotValid)
  return slot.addressDelta.toUInt64 - (addr - getCleanVirt info addr)

/-- The host memory that the slots map, as `QXLDataChunk` fields are read from it. -/
structure ChunkFields where
  dataSize : UInt32
  nextChunk : UInt64

/-- `sizeof(QXLDataChunk)`, and the offset of `data` in the packed struct. -/
def sizeofDataChunk : UInt32 := 20

structure ChunkResult where
  data : UInt64
  dataSize : UInt32
  next : UInt64

def validateChunk (mem : UInt64 → ChunkFields) (info : RedMemSlotInfo) (data : UInt64)
    (groupId : UInt32) : Except Stop ChunkResult := do
  let chunk ← getVirt info data sizeofDataChunk groupId.toInt32
  let dataSize := (mem chunk).dataSize
  validateVirt info (chunk + sizeofDataChunk.toUInt64) (getMemslotId info data) dataSize groupId
  return ⟨chunk + sizeofDataChunk.toUInt64, dataSize, (mem chunk).nextChunk⟩

/-- `none` when one of the two `ASSERT`s fails. -/
def redMemslotInfoInit (numGroups numSlots : UInt32) (generationBits idBits : UInt8)
    (internalGroupslotId : UInt8) : Option RedMemSlotInfo :=
  if numSlots > 0 ∧ numGroups > 0 then some {
    numMemslotsGroups := numGroups
    numMemslots := numSlots
    memSlotBits := idBits
    generationBits := generationBits
    memslotIdShift := 64 - idBits
    memslotGenShift := 64 - (idBits + generationBits)
    internalGroupslotId := internalGroupslotId
    memslotGenMask := ~~~((-1 : UInt64) <<< generationBits.toUInt64)
    memslotCleanVirtMask := (-1 : UInt64) >>> (idBits + generationBits).toUInt64
    memSlots := List.replicate numGroups.toNat (List.replicate numSlots.toNat .zero)
    groups_eq := List.length_replicate
    slots_eq := fun _ h => by rw [List.eq_of_mem_replicate h, List.length_replicate] }
  else none

/-- One entry of the tables is rewritten by `f`. -/
def modifySlot (info : RedMemSlotInfo) (groupId slotId : UInt32) (f : MemSlot → MemSlot) :
    RedMemSlotInfo :=
  { info with
    memSlots := info.memSlots.modify groupId.toNat (·.modify slotId.toNat f)
    groups_eq := by rw [List.length_modify, info.groups_eq]
    slots_eq := by
      intro row h
      obtain ⟨i, hi, rfl⟩ := List.mem_iff_getElem.mp h
      rw [List.getElem_modify]
      rw [List.length_modify] at hi
      split
      · rw [List.length_modify]; exact info.slots_eq _ (List.getElem_mem hi)
      · exact info.slots_eq _ (List.getElem_mem hi) }

def redMemslotInfoAddSlot (info : RedMemSlotInfo) (slotGroupId slotId : UInt32) (addrDelta : UInt64)
    (virtStart virtEnd : UInt64) (generation : UInt32) : Option RedMemSlotInfo :=
  if info.numMemslotsGroups > slotGroupId ∧ info.numMemslots > slotId then
    some (modifySlot info slotGroupId slotId fun _ =>
      ⟨generation.toInt32, virtStart, virtEnd, addrDelta.toInt64⟩)
  else none

def redMemslotInfoDelSlot (info : RedMemSlotInfo) (slotGroupId slotId : UInt32) :
    Option RedMemSlotInfo :=
  if info.numMemslotsGroups > slotGroupId ∧ info.numMemslots > slotId then
    some (modifySlot info slotGroupId slotId fun slot =>
      { slot with virtStartAddr := 0, virtEndAddr := 0 })
  else none

def redMemslotInfoReset (info : RedMemSlotInfo) : RedMemSlotInfo :=
  { info with
    memSlots := info.memSlots.map (·.map fun _ => .zero)
    groups_eq := by rw [List.length_map, info.groups_eq]
    slots_eq := by
      intro row h
      obtain ⟨row', h', rfl⟩ := List.mem_map.mp h
      rw [List.length_map, info.slots_eq _ h'] }

/-- The tables after `red_memslot_info_init` and any calls that change them. -/
inductive Built (generationBits idBits : UInt8) : RedMemSlotInfo → Prop
  | init {numGroups numSlots internal info} :
      redMemslotInfoInit numGroups numSlots generationBits idBits internal = some info →
      Built generationBits idBits info
  | addSlot {info info' g s delta start stop gen} : Built generationBits idBits info →
      redMemslotInfoAddSlot info g s delta start stop gen = some info' →
      Built generationBits idBits info'
  | delSlot {info info' g s} : Built generationBits idBits info →
      redMemslotInfoDelSlot info g s = some info' → Built generationBits idBits info'
  | reset {info} : Built generationBits idBits info →
      Built generationBits idBits (redMemslotInfoReset info)

/-- What the shifts and masks were set to by `red_memslot_info_init`; no later call changes it. -/
structure Packed (generationBits idBits : UInt8) (info : RedMemSlotInfo) : Prop where
  idShift : info.memslotIdShift = 64 - idBits
  genShift : info.memslotGenShift = 64 - (idBits + generationBits)
  genMask : info.memslotGenMask = ~~~((-1 : UInt64) <<< generationBits.toUInt64)

section Packed

variable {generationBits idBits : UInt8} {info info' : RedMemSlotInfo}

theorem packed_init {numGroups numSlots internal}
    (h : redMemslotInfoInit numGroups numSlots generationBits idBits internal = some info) :
    Packed generationBits idBits info := by
  unfold redMemslotInfoInit at h
  split at h
  · cases h
    exact ⟨rfl, rfl, rfl⟩
  · cases h

theorem Packed.modifySlot (h : Packed generationBits idBits info) (g s : UInt32)
    (f : MemSlot → MemSlot) : Packed generationBits idBits (modifySlot info g s f) :=
  ⟨h.idShift, h.genShift, h.genMask⟩

theorem Packed.addSlot {g s delta start stop gen} (h : Packed generationBits idBits info)
    (he : redMemslotInfoAddSlot info g s delta start stop gen = some info') :
    Packed generationBits idBits info' := by
  unfold redMemslotInfoAddSlot at he
  split at he
  · cases he
    exact h.modifySlot ..
  · cases he

theorem Packed.delSlot {g s} (h : Packed generationBits idBits info)
    (he : redMemslotInfoDelSlot info g s = some info') : Packed generationBits idBits info' := by
  unfold redMemslotInfoDelSlot at he
  split at he
  · cases he
    exact h.modifySlot ..
  · cases he

theorem Packed.reset (h : Packed generationBits idBits info) :
    Packed generationBits idBits (redMemslotInfoReset info) :=
  ⟨h.idShift, h.genShift, h.genMask⟩

theorem Built.packed (h : Built generationBits idBits info) : Packed generationBits idBits info := by
  induction h with
  | init he => exact packed_init he
  | addSlot _ he ih => exact ih.addSlot he
  | delSlot _ he ih => exact ih.delSlot he
  | reset _ ih => exact ih.reset

end Packed

/-- The generation field of a guest address, below the `idBits` bits of the slot id. -/
def generationField (generationBits idBits : UInt8) (addr : UInt64) : Nat :=
  addr.toNat / 2 ^ (64 - (idBits.toNat + generationBits.toNat)) % 2 ^ generationBits.toNat

theorem toNat_genMask : ∀ g : Fin 64,
    (~~~((-1 : UInt64) <<< (UInt8.ofNat g.1).toUInt64)).toNat = 2 ^ g.1 - 1 := by
  decide

theorem toNat_getGeneration {generationBits idBits : UInt8} {info : RedMemSlotInfo}
    (h : Packed generationBits idBits info) (hid : 1 ≤ idBits.toNat)
    (hsum : idBits.toNat + generationBits.toNat < 64) (addr : UInt64) :
    (getGeneration info addr).toUInt32.toNat = generationField generationBits idBits addr % 2 ^ 32 := by
  have hmask := toNat_genMask ⟨generationBits.toNat, by omega⟩
  rw [UInt8.ofNat_toNat] at hmask
  have hshift : ((64 : UInt8) - (idBits + generationBits)).toUInt64.toNat % 64
      = 64 - (idBits.toNat + generationBits.toNat) := by
    rw [UInt8.toNat_toUInt64, UInt8.toNat_sub, UInt8.toNat_add]
    simp only [UInt8.reduceToNat]
    omega
  rw [getGeneration, h.genShift, h.genMask, UInt32.toUInt32_toInt32, UInt64.toNat_toUInt32,
    UInt64.toNat_and, UInt64.toNat_shiftRight, hshift, hmask, Nat.and_two_pow_sub_one_eq_mod,
    Nat.shiftRight_eq_div_pow, generationField]

/-- Both subscripts are inside the allocated tables. -/
def InTable (info : RedMemSlotInfo) (groupId slotId : Int) : Prop :=
  (0 ≤ groupId ∧ groupId < info.numMemslotsGroups.toNat) ∧
    (0 ≤ slotId ∧ slotId < info.numMemslots.toNat)

/-- The access lies inside the slot and does not wrap around. -/
def InRange (slot : MemSlot) (virt : UInt64) (size : UInt32) : Prop :=
  slot.virtStartAddr ≤ virt ∧ virt.toNat + size.toNat ≤ slot.virtEndAddr.toNat

/-- The two `too big` checks of `get_virt` let the access through. -/
def Unchecked (info : RedMemSlotInfo) (addr : UInt64) (groupId : Int32) : Prop :=
  groupId.toUInt32 ≤ info.numMemslotsGroups ∧ (getMemslotId info addr).toUInt32 ≤ info.numMemslots

instance (info : RedMemSlotInfo) (g s : Int) : Decidable (InTable info g s) :=
  inferInstanceAs (Decidable (_ ∧ _))

instance (slot : MemSlot) (virt : UInt64) (size : UInt32) : Decidable (InRange slot virt size) :=
  inferInstanceAs (Decidable (_ ∧ _))

instance (info : RedMemSlotInfo) (addr : UInt64) (g : Int32) : Decidable (Unchecked info addr g) :=
  inferInstanceAs (Decidable (_ ∧ _))

section Checks

variable {info : RedMemSlotInfo} {slot : MemSlot} {addr : UInt64} {size : UInt32}

theorem slotAt_of_inTable {g s : Int} (h : InTable info g s) : ∃ slot, slotAt info g s = .ok slot := by
  obtain ⟨⟨hg0, hg⟩, hs0, hs⟩ := h
  have hgl : g.toNat < info.memSlots.length := by rw [info.groups_eq]; omega
  have hsl : s.toNat < (info.memSlots[g.toNat]).length := by
    rw [info.slots_eq _ (List.getElem_mem hgl)]
    omega
  refine ⟨info.memSlots[g.toNat][s.toNat], ?_⟩
  rw [slotAt, if_neg (by omega), List.getElem?_eq_getElem hgl]
  simp only [List.getElem?_eq_getElem hsl]

theorem slotAt_of_not_inTable {g s : Int} (h : ¬InTable info g s) :
    slotAt info g s = .error .outOfTable := by
  unfold slotAt
  split
  · rfl
  · split
    · rfl
    · rename_i row hrow
      split
      · rfl
      · rename_i slot hslot
        obtain ⟨hg, rfl⟩ := List.getElem?_eq_some_iff.mp hrow
        obtain ⟨hs, -⟩ := List.getElem?_eq_some_iff.mp hslot
        rw [info.slots_eq _ (List.getElem_mem hg)] at hs
        rw [info.groups_eq] at hg
        exact absurd ⟨⟨by omega, by omega⟩, by omega, by omega⟩ h

theorem inTable_of_slotAt {g s : Int} (h : slotAt info g s = .ok slot) : InTable info g s := by
  by_contra hn
  rw [slotAt_of_not_inTable hn] at h
  cases h

theorem toNat_add_size (virt : UInt64) (size : UInt32) :
    (virt + size.toUInt64).toNat = (virt.toNat + size.toNat) % 2 ^ 64 := by
  rw [UInt64.toNat_add, UInt32.toNat_toUInt64]

theorem validateVirt_of_inRange {virt : UInt64} {s : Int32} {g : UInt32}
    (hs : slotAt info g.toNat s.toInt = .ok slot) (h : InRange slot virt size) :
    validateVirt info virt s size g = .ok () := by
  have hend := slot.virtEndAddr.toNat_lt
  have hadd := toNat_add_size virt size
  obtain ⟨h₁, h₂⟩ := h
  rw [Nat.mod_eq_of_lt (by omega)] at hadd
  have hwrap : ¬virt + size.toUInt64 < virt := by rw [UInt64.lt_iff_toNat_lt]; omega
  have hrange : ¬(virt < slot.virtStartAddr ∨ virt + size.toUInt64 > slot.virtEndAddr) := by
    rw [UInt64.le_iff_toNat_le] at h₁
    rw [UInt64.lt_iff_toNat_lt, gt_iff_lt, UInt64.lt_iff_toNat_lt]
    omega
  simp only [validateVirt, hs, bind, Except.bind, if_neg hwrap, if_neg hrange, pure, Except.pure]

theorem validateVirt_of_not_inRange {virt : UInt64} {s : Int32} {g : UInt32}
    (hs : slotAt info g.toNat s.toInt = .ok slot) (h : ¬InRange slot virt size) :
    ∃ p, validateVirt info virt s size g = .error (.panic p) := by
  have hadd := toNat_add_size virt size
  by_cases hwrap : virt + size.toUInt64 < virt
  · exact ⟨.virtualAddressOverlap, by simp only [validateVirt, hs, bind, Except.bind, if_pos hwrap]; rfl⟩
  · have hrange : virt < slot.virtStartAddr ∨ virt + size.toUInt64 > slot.virtEndAddr := by
      rw [InRange, UInt64.le_iff_toNat_le] at h
      rw [UInt64.lt_iff_toNat_lt] at hwrap
      rw [UInt64.lt_iff_toNat_lt, gt_iff_lt, UInt64.lt_iff_toNat_lt]
      have := size.toNat_lt
      have := virt.toNat_lt
      omega
    exact ⟨.virtualAddressOutOfRange, by
      simp only [validateVirt, hs, bind, Except.bind, if_neg hwrap, if_pos hrange]; rfl⟩

/-- The host address that `get_virt` computes from the slot it found. -/
def hostAddr (info : RedMemSlotInfo) (addr : UInt64) (slot : MemSlot) : UInt64 :=
  getCleanVirt info addr + slot.addressDelta.toUInt64

theorem toNat_toUInt32_of_nonneg {g : Int32} (h : 0 ≤ g.toInt) : (g.toUInt32.toNat : Int) = g.toInt := by
  have hg : g.toInt = g.toBitVec.toInt := rfl
  have hn : g.toUInt32.toNat = g.toBitVec.toNat := rfl
  rw [hg, BitVec.toInt_eq_toNat_cond] at h ⊢
  have := g.toBitVec.isLt
  split at h <;> omega

theorem getVirt_of_not_unchecked {g : Int32} (h : ¬Unchecked info addr g) :
    ∃ p, getVirt info addr size g = .error (.panic p) := by
  by_cases hg : g.toUInt32 > info.numMemslotsGroups
  · exact ⟨.groupIdTooBig, by simp only [getVirt, if_pos hg]; rfl⟩
  · have hs : (getMemslotId info addr).toUInt32 > info.numMemslots := by
      by_contra hs
      exact h ⟨UInt32.not_lt.mp hg, UInt32.not_lt.mp hs⟩
    exact ⟨.slotIdTooBig, by simp only [getVirt, if_neg hg, if_pos hs]; rfl⟩

/-- Once the two checks pass, `get_virt` does whatever the entry it finds makes it do. -/
theorem getVirt_of_unchecked {g : Int32} (h : Unchecked info addr g) :
    getVirt info addr size g = (do
      let slot ← slotAt info g.toInt (getMemslotId info addr).toInt
      if getGeneration info addr ≠ slot.generation then throw (.panic .generationNotValid)
      validateVirt info (hostAddr info addr slot) (getMemslotId info addr) size g.toUInt32
      return hostAddr info addr slot) := by
  simp only [getVirt, gt_iff_lt, if_neg (UInt32.not_lt.mpr h.1), if_neg (UInt32.not_lt.mpr h.2)]
  rfl

theorem getVirt_of_not_inTable {g : Int32} (h : Unchecked info addr g)
    (ht : ¬InTable info g.toInt (getMemslotId info addr).toInt) :
    getVirt info addr size g = .error .outOfTable := by
  rw [getVirt_of_unchecked h, slotAt_of_not_inTable ht]
  rfl

theorem slotAt_toUInt32 {g : Int32} (hs : slotAt info g.toInt (getMemslotId info addr).toInt = .ok slot) :
    slotAt info g.toUInt32.toNat (getMemslotId info addr).toInt = .ok slot := by
  rw [toNat_toUInt32_of_nonneg (inTable_of_slotAt hs).1.1, hs]

theorem unchecked_of_slotAt {g : Int32}
    (hs : slotAt info g.toInt (getMemslotId info addr).toInt = .ok slot) : Unchecked info addr g := by
  obtain ⟨⟨hg₀, hg⟩, hs₀, hs⟩ := inTable_of_slotAt hs
  rw [← toNat_toUInt32_of_nonneg hg₀] at hg
  rw [← toNat_toUInt32_of_nonneg hs₀] at hs
  rw [Unchecked, UInt32.le_iff_toNat_le, UInt32.le_iff_toNat_le]
  omega

variable {g : Int32} (hs : slotAt info g.toInt (getMemslotId info addr).toInt = .ok slot)

include hs

theorem getVirt_of_generation_ne (hgen : getGeneration info addr ≠ slot.generation) :
    getVirt info addr size g = .error (.panic .generationNotValid) := by
  rw [getVirt_of_unchecked (unchecked_of_slotAt hs), hs]
  simp only [bind, Except.bind, if_pos hgen]
  rfl

theorem getVirt_of_inRange (hgen : getGeneration info addr = slot.generation)
    (hr : InRange slot (hostAddr info addr slot) size) :
    getVirt info addr size g = .ok (hostAddr info addr slot) := by
  rw [getVirt_of_unchecked (unchecked_of_slotAt hs), hs]
  simp only [bind, Except.bind, if_neg (not_not.mpr hgen),
    validateVirt_of_inRange (slotAt_toUInt32 hs) hr]
  rfl

theorem getVirt_of_not_inRange (hgen : getGeneration info addr = slot.generation)
    (hr : ¬InRange slot (hostAddr info addr slot) size) :
    ∃ p, getVirt info addr size g = .error (.panic p) := by
  obtain ⟨p, hp⟩ := validateVirt_of_not_inRange (slotAt_toUInt32 hs) hr
  refine ⟨p, ?_⟩
  rw [getVirt_of_unchecked (unchecked_of_slotAt hs), hs]
  simp only [bind, Except.bind, if_neg (not_not.mpr hgen), hp]

end Checks

/-- The entry that an access is checked against, and what the checks leave true of it. -/
def Validated (generationBits idBits : UInt8) (info : RedMemSlotInfo) (addr : UInt64)
    (groupId : Int32) (accesses : List (UInt64 × UInt32)) : Prop :=
  ∃ slot, slotAt info groupId.toInt (getMemslotId info addr).toInt = .ok slot ∧
    InTable info groupId.toInt (getMemslotId info addr).toInt ∧
    slot.generation.toUInt32.toNat = generationField generationBits idBits addr ∧
    ∀ a ∈ accesses, InRange slot a.1 a.2

/-- A run that panics is harmless, and one that leaves the tables is not. -/
def Guarded {α : Type} (run : Except Stop α) (good : α → Prop) : Prop :=
  match run with
  | .ok a => good a
  | .error (.panic _) => True
  | .error .outOfTable => False

def GetVirtSafe (generationBits idBits : UInt8) (info : RedMemSlotInfo) (addr : UInt64)
    (size : UInt32) (groupId : Int32) : Prop :=
  Guarded (getVirt info addr size groupId) fun virt =>
    Validated generationBits idBits info addr groupId [(virt, size)]

/-- Both the header, which ends where the data begins, and the data lie inside the slot. -/
def ValidateChunkSafe (generationBits idBits : UInt8) (mem : UInt64 → ChunkFields)
    (info : RedMemSlotInfo) (addr : UInt64) (groupId : UInt32) : Prop :=
  Guarded (validateChunk mem info addr groupId) fun r =>
    Validated generationBits idBits info addr groupId.toInt32
      [(r.data - sizeofDataChunk.toUInt64, sizeofDataChunk), (r.data, r.dataSize)]

/-- The checks let the access through although a subscript is outside the tables. They are written
with `>`, so this is the case of a subscript equal to the number of groups or slots, and of one
that is negative as an `int`. -/
def PastTable (info : RedMemSlotInfo) (addr : UInt64) (groupId : Int32) : Prop :=
  Unchecked info addr groupId ∧ ¬InTable info groupId.toInt (getMemslotId info addr).toInt

/-- The generation of the address needs more than the 32 bits that are compared, and those 32 bits
agree with a slot that lets the access through. -/
def GenerationCut (generationBits idBits : UInt8) (info : RedMemSlotInfo) (addr : UInt64)
    (groupId : Int32) (accepts : MemSlot → Prop) : Prop :=
  2 ^ 32 ≤ generationField generationBits idBits addr ∧
    ∃ slot, slotAt info groupId.toInt (getMemslotId info addr).toInt = .ok slot ∧
      generationField generationBits idBits addr % 2 ^ 32 = slot.generation.toUInt32.toNat ∧
      accepts slot

/-- The header and the data of the chunk at `addr` lie inside the slot. -/
def ChunkInRange (mem : UInt64 → ChunkFields) (info : RedMemSlotInfo) (addr : UInt64)
    (slot : MemSlot) : Prop :=
  InRange slot (hostAddr info addr slot) sizeofDataChunk ∧
    InRange slot (hostAddr info addr slot + sizeofDataChunk.toUInt64)
      (mem (hostAddr info addr slot)).dataSize

section Safe

variable {generationBits idBits : UInt8} {info : RedMemSlotInfo} {addr : UInt64} {g : Int32}

/-- The case analysis that `get_virt` and `validate_chunk` share. They differ in what they ask of
the slot once its generation has been accepted. -/
theorem guarded_iff {α : Type} {run : Except Stop α} {accepts : MemSlot → Prop}
    {accesses : α → List (UInt64 × UInt32)}
    (hmod : (getGeneration info addr).toUInt32.toNat =
      generationField generationBits idBits addr % 2 ^ 32)
    (hbig : ¬Unchecked info addr g → ∃ p, run = .error (.panic p))
    (hpast : PastTable info addr g → run = .error .outOfTable)
    (hslot : ∀ slot, slotAt info g.toInt (getMemslotId info addr).toInt = .ok slot →
      getGeneration info addr ≠ slot.generation ∨ ¬accepts slot → ∃ p, run = .error (.panic p))
    (hok : ∀ slot, slotAt info g.toInt (getMemslotId info addr).toInt = .ok slot →
      getGeneration info addr = slot.generation → accepts slot →
      ∃ a, run = .ok a ∧ ∀ x ∈ accesses a, InRange slot x.1 x.2) :
    Guarded run (fun a => Validated generationBits idBits info addr g (accesses a)) ↔
      ¬PastTable info addr g ∧ ¬GenerationCut generationBits idBits info addr g accepts := by
  by_cases hu : Unchecked info addr g
  · by_cases ht : InTable info g.toInt (getMemslotId info addr).toInt
    · obtain ⟨slot, hs⟩ := slotAt_of_inTable ht
      have hnp : ¬PastTable info addr g := fun hp => hp.2 ht
      by_cases ha : getGeneration info addr = slot.generation ∧ accepts slot
      · obtain ⟨a, hrun, hin⟩ := hok slot hs ha.1 ha.2
        have hgen : slot.generation.toUInt32.toNat =
            generationField generationBits idBits addr % 2 ^ 32 := by rw [← ha.1, hmod]
        rw [hrun]
        constructor
        · rintro ⟨slot', hs', -, hgen', -⟩
          rw [hs, Except.ok.injEq] at hs'
          subst hs'
          refine ⟨hnp, fun hc => ?_⟩
          have := hc.1
          have := slot.generation.toUInt32.toNat_lt
          omega
        · rintro ⟨-, hnc⟩
          refine ⟨slot, hs, ht, ?_, hin⟩
          rw [hgen]
          apply Nat.mod_eq_of_lt
          by_contra hge
          exact hnc ⟨by omega, slot, hs, hgen.symm, ha.2⟩
      · obtain ⟨p, hrun⟩ := hslot slot hs (not_and_or.mp ha)
        rw [hrun]
        refine ⟨fun _ => ⟨hnp, ?_⟩, fun _ => trivial⟩
        rintro ⟨-, slot', hs', hgen', hacc⟩
        rw [hs, Except.ok.injEq] at hs'
        subst hs'
        rw [← hmod] at hgen'
        have := congrArg UInt32.toInt32 (UInt32.toNat_inj.mp hgen')
        rw [Int32.toInt32_toUInt32, Int32.toInt32_toUInt32] at this
        exact ha ⟨this, hacc⟩
    · rw [hpast ⟨hu, ht⟩]
      exact ⟨False.elim, fun hn => hn.1 ⟨hu, ht⟩⟩
  · obtain ⟨p, hrun⟩ := hbig hu
    rw [hrun]
    refine ⟨fun _ => ⟨fun hp => hu hp.1, ?_⟩, fun _ => trivial⟩
    rintro ⟨-, slot, hs, -⟩
    exact hu (unchecked_of_slotAt hs)

theorem getVirtSafe_iff (hp : Packed generationBits idBits info) (hid : 1 ≤ idBits.toNat)
    (hsum : idBits.toNat + generationBits.toNat < 64) (addr : UInt64) (size : UInt32) (g : Int32) :
    GetVirtSafe generationBits idBits info addr size g ↔
      ¬PastTable info addr g ∧ ¬GenerationCut generationBits idBits info addr g
        fun slot => InRange slot (hostAddr info addr slot) size := by
  refine guarded_iff (toNat_getGeneration hp hid hsum addr) getVirt_of_not_unchecked
    (fun h => getVirt_of_not_inTable h.1 h.2) ?_ ?_
  · intro slot hs h
    by_cases hgen : getGeneration info addr = slot.generation
    · exact getVirt_of_not_inRange hs hgen (h.resolve_left (not_not.mpr hgen))
    · exact ⟨_, getVirt_of_generation_ne hs hgen⟩
  · intro slot hs hgen hr
    refine ⟨_, getVirt_of_inRange hs hgen hr, ?_⟩
    simpa using hr

theorem validateChunk_of_error {mem : UInt64 → ChunkFields} {g : UInt32} {stop : Stop}
    (h : getVirt info addr sizeofDataChunk g.toInt32 = .error stop) :
    validateChunk mem info addr g = .error stop := by
  simp only [validateChunk, h]
  rfl

theorem validateChunkSafe_iff (hp : Packed generationBits idBits info) (hid : 1 ≤ idBits.toNat)
    (hsum : idBits.toNat + generationBits.toNat < 64) (mem : UInt64 → ChunkFields) (addr : UInt64)
    (g : UInt32) :
    ValidateChunkSafe generationBits idBits mem info addr g ↔
      ¬PastTable info addr g.toInt32 ∧ ¬GenerationCut generationBits idBits info addr g.toInt32
        (ChunkInRange mem info addr) := by
  refine guarded_iff (toNat_getGeneration hp hid hsum addr) (fun h => ?_)
    (fun h => validateChunk_of_error (getVirt_of_not_inTable h.1 h.2)) ?_ ?_
  · obtain ⟨p, hp⟩ := getVirt_of_not_unchecked h
    exact ⟨p, validateChunk_of_error hp⟩
  · intro slot hs h
    by_cases hgen : getGeneration info addr = slot.generation
    · by_cases hr : InRange slot (hostAddr info addr slot) sizeofDataChunk
      · have hd := not_and.mp (h.resolve_left (not_not.mpr hgen)) hr
        obtain ⟨p, hp⟩ := validateVirt_of_not_inRange (slotAt_toUInt32 hs) hd
        refine ⟨p, ?_⟩
        simp only [validateChunk, getVirt_of_inRange hs hgen hr, bind, Except.bind]
        rw [UInt32.toUInt32_toInt32] at hp
        rw [hp]
      · obtain ⟨p, hp⟩ := getVirt_of_not_inRange hs hgen hr
        exact ⟨p, validateChunk_of_error hp⟩
    · exact ⟨_, validateChunk_of_error (getVirt_of_generation_ne hs hgen)⟩
  · intro slot hs hgen hr
    have hv := validateVirt_of_inRange (slotAt_toUInt32 hs) hr.2
    rw [UInt32.toUInt32_toInt32] at hv
    refine ⟨⟨hostAddr info addr slot + sizeofDataChunk.toUInt64, (mem (hostAddr info addr slot)).dataSize,
      (mem (hostAddr info addr slot)).nextChunk⟩, ?_, ?_⟩
    · simp only [validateChunk, getVirt_of_inRange hs hgen hr.1, bind, Except.bind, hv]
      rfl
    · simpa [ChunkInRange] using hr

end Safe

theorem guest_access_safe_iff {generationBits idBits : UInt8} {info : RedMemSlotInfo}
    (hb : Built generationBits idBits info) (hid : 1 ≤ idBits.toNat)
    (hsum : idBits.toNat + generationBits.toNat < 64) (addr : UInt64) :
    (∀ (size : UInt32) (groupId : Int32),
      GetVirtSafe generationBits idBits info addr size groupId ↔
        ¬PastTable info addr groupId ∧ ¬GenerationCut generationBits idBits info addr groupId
          fun slot => InRange slot (hostAddr info addr slot) size) ∧
    ∀ (mem : UInt64 → ChunkFields) (groupId : UInt32),
      ValidateChunkSafe generationBits idBits mem info addr groupId ↔
        ¬PastTable info addr groupId.toInt32 ∧
          ¬GenerationCut generationBits idBits info addr groupId.toInt32
            (ChunkInRange mem info addr) :=
  ⟨getVirtSafe_iff hb.packed hid hsum addr,
    fun mem => validateChunkSafe_iff hb.packed hid hsum mem addr⟩

theorem guest_access_safe_in_slot : ∃ info info',
    redMemslotInfoInit 1 8 8 8 0 = some info ∧
    redMemslotInfoAddSlot info 0 0 0 0x1000 0x2000 1 = some info' ∧
    getVirt info' 0x0001000000001000 16 0 = .ok 0x1000 ∧
    GetVirtSafe 8 8 info' 0x0001000000001000 16 0 := by
  refine ⟨_, _, rfl, rfl, by decide, ?_⟩
  have hi := Built.init (rfl : redMemslotInfoInit 1 8 8 8 0 = _)
  have hb := hi.addSlot (rfl : redMemslotInfoAddSlot _ 0 0 0 0x1000 0x2000 1 = _)
  refine ((guest_access_safe_iff hb (by decide) (by decide) _).1 16 0).mpr ⟨?_, ?_⟩
  · exact fun h => absurd h.2 (by decide)
  · exact fun h => absurd h.1 (by decide)

theorem not_guarded_outOfTable {α : Type} {run : Except Stop α} {good : α → Prop}
    (h : run = .error .outOfTable) : ¬Guarded run good := by
  rw [h]
  exact False.elim

/-- A guest address whose slot id is the number of slots is looked up behind the end of its row. -/
theorem not_getVirtSafe_slot_id_eq_num_memslots : ∃ info,
    redMemslotInfoInit 1 8 8 8 0 = some info ∧
    getVirt info 0x0800000000000000 16 0 = .error .outOfTable ∧
    ¬GetVirtSafe 8 8 info 0x0800000000000000 16 0 :=
  ⟨_, rfl, by decide, not_guarded_outOfTable (by decide)⟩

end Colama.Spice.Memslots

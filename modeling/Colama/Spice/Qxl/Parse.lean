import Colama.Lib.Bytes
import Colama.Spice.DataChunks

namespace Colama.Spice.Qxl

open Memslots DataChunks Lib

/-- The bytes at the host addresses. -/
abbrev HostMemory := UInt64 → UInt8

def HostMemory.bytes (host : HostMemory) (addr : UInt64) (n : Nat) : List UInt8 :=
  (List.range n).map fun i => host (addr + UInt64.ofNat i)

def HostMemory.u16 (host : HostMemory) (addr : UInt64) : UInt16 := UInt16.ofNat (ofLeBytes (host.bytes addr 2))

def HostMemory.u32 (host : HostMemory) (addr : UInt64) : UInt32 := UInt32.ofNat (ofLeBytes (host.bytes addr 4))

def HostMemory.u64 (host : HostMemory) (addr : UInt64) : UInt64 := UInt64.ofNat (ofLeBytes (host.bytes addr 8))

/-- `QXLDataChunk` is packed: `data_size`, `prev_chunk`, `next_chunk`, and then the data. -/
def HostMemory.chunks (host : HostMemory) (qxl : UInt64) : ChunkFields := ⟨host.u32 qxl, host.u64 (qxl + 12)⟩

/-- How parsing ends early: as the slots are looked up, in an `ASSERT`, in the `abort` at an unknown type or where
`spice_malloc` has no memory to give, or without any meaning, when an `int` overflows. -/
inductive Halt
  | stop (s : Stop)
  | assert
  | unknownType
  | noMemory
  | overflow
  deriving DecidableEq

/-- `none` where a loop has not ended within the rounds given to it. -/
abbrev Parse := ExceptT Halt Option

instance {α : Type} [DecidableEq α] : DecidableEq (Except Halt α)
  | .ok a, .ok b => decidable_of_iff (a = b) (by rw [Except.ok.injEq])
  | .error a, .error b => decidable_of_iff (a = b) (by rw [Except.error.injEq])
  | .ok _, .error _ => .isFalse nofun
  | .error _, .ok _ => .isFalse nofun

instance {α : Type} [DecidableEq α] : DecidableEq (Parse α) := inferInstanceAs (DecidableEq (Option (Except Halt α)))

namespace Parse

variable {α β : Type}

def checked (r : Except Stop α) : Parse α := ExceptT.mk (some (r.mapError .stop))

def looping (r : Option (Except Stop α)) : Parse α := ExceptT.mk (r.map (·.mapError .stop))

def assert (p : Prop) [Decidable p] : Parse Unit := if p then pure () else throw .assert

theorem bind_eq_pure {x : Parse α} {f : α → Parse β} {b : β} :
    x >>= f = pure b ↔ ∃ a, x = pure a ∧ f a = pure b := by
  constructor
  · intro h
    match x with
    | none => cases h
    | some (.error e) => cases h
    | some (.ok a) => exact ⟨a, rfl, h⟩
  · rintro ⟨a, rfl, h⟩
    exact h

theorem pure_inj {a b : α} : (pure a : Parse α) = pure b ↔ a = b := by
  constructor
  · intro h
    cases h
    rfl
  · rintro rfl
    rfl

theorem checked_eq_pure {r : Except Stop α} {a : α} : checked r = pure a ↔ r = .ok a := by
  cases r with
  | error e => exact ⟨nofun, nofun⟩
  | ok b => exact pure_inj.trans ⟨congrArg _, Except.ok.inj⟩

theorem looping_eq_pure {r : Option (Except Stop α)} {a : α} : looping r = pure a ↔ r = some (.ok a) := by
  match r with
  | none => exact ⟨nofun, nofun⟩
  | some (.error e) => exact ⟨nofun, nofun⟩
  | some (.ok b) => exact pure_inj.trans ⟨fun h => h ▸ rfl, fun h => Except.ok.inj (Option.some.inj h)⟩

theorem assert_eq_pure {p : Prop} [Decidable p] {u : Unit} : assert p = pure u ↔ p := by
  by_cases h : p
  · rw [assert, if_pos h]
    exact ⟨fun _ => h, fun _ => rfl⟩
  · rw [assert, if_neg h]
    exact ⟨nofun, fun hp => absurd hp h⟩

end Parse

variable {info : RedMemSlotInfo} {groupId : Int32}

/-- What `get_virt` lets through lies inside a slot. -/
theorem inSlot_of_getVirt {addr virt : UInt64} {size : UInt32} (h : getVirt info addr size groupId = .ok virt) :
    InSlot info groupId ⟨size, virt⟩ := by
  by_cases hu : Unchecked info addr groupId
  · by_cases ht : InTable info groupId.toInt (getMemslotId info addr).toInt
    · obtain ⟨slot, hs⟩ := slotAt_of_inTable ht
      by_cases hgen : getGeneration info addr = slot.generation
      · by_cases hr : InRange slot (hostAddr info addr slot) size
        · rw [getVirt_of_inRange hs hgen hr, Except.ok.injEq] at h
          subst h
          exact ⟨_, slot, slotAt_toUInt32 hs, hr⟩
        · obtain ⟨p, hp⟩ := getVirt_of_not_inRange hs hgen hr
          rw [hp] at h
          cases h
      · rw [getVirt_of_generation_ne hs hgen] at h
        cases h
    · rw [getVirt_of_not_inTable hu ht] at h
      cases h
  · obtain ⟨p, hp⟩ := @getVirt_of_not_unchecked _ _ size _ hu
    rw [hp] at h
    cases h

def redGetDataChunks (info : RedMemSlotInfo) (host : HostMemory) (groupId : Int32) (addr : UInt64) (rounds : Nat) :
    Parse (List RedDataChunk × UInt64) := do
  let memslotId := getMemslotId info addr
  let qxl ← Parse.checked (getVirt info addr sizeofDataChunk groupId)
  Parse.looping (redGetDataChunksPtr info host.chunks groupId memslotId qxl rounds)

/-- The chunks that a call returns are those of the chain, each inside a slot. -/
theorem redGetDataChunksPtr_eq_ok {mem : UInt64 → ChunkFields} {memslotId : Int32} {qxl : UInt64} {rounds : Nat}
    {r : List RedDataChunk × UInt64} (h : redGetDataChunksPtr info mem groupId memslotId qxl rounds = some (.ok r)) :
    ∃ l, Chain info mem groupId qxl l ∧ r.1 = (qxl :: l).map (chunkAt mem) ∧
      r.2.toNat = totalSize mem (qxl :: l) % 2 ^ 64 ∧ ∀ chunk ∈ r.1, InSlot info groupId chunk := by
  cases hc : readChunk info mem groupId memslotId qxl with
  | error stop =>
    rw [redGetDataChunksPtr, hc] at h
    cases h
  | ok chunk =>
    obtain ⟨rfl, hin⟩ := readChunk_eq_ok hc
    rw [redGetDataChunksPtr_of_readChunk hc] at h
    obtain ⟨l, hl, rfl, hall⟩ := whileNext_ok h
    refine ⟨l, hl, rfl, toNat_collected l, ?_⟩
    intro c hcm
    simp only [collected, List.singleton_append, List.mem_cons, List.mem_map] at hcm
    obtain rfl | ⟨x, hx, rfl⟩ := hcm
    · exact hin
    · exact hall x hx

end Colama.Spice.Qxl

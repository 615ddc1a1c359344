import Mathlib
import Colama.Lib.Chains
import Colama.Spice.Memslots

namespace Colama.Spice.DataChunks

open Memslots Lib

/-- A `RedDataChunk`; the links to its neighbours are its place in the list. -/
structure RedDataChunk where
  dataSize : UInt32
  data : UInt64
  deriving DecidableEq

variable (info : RedMemSlotInfo) (mem : UInt64 → ChunkFields) (groupId : Int32)

/-- What the code does with a chunk, at the head of the chain or later. -/
def readChunk (memslotId : Int32) (qxl : UInt64) : Except Stop RedDataChunk := do
  let dataSize := (mem qxl).dataSize
  validateVirt info (qxl + sizeofDataChunk.toUInt64) memslotId dataSize groupId.toUInt32
  return ⟨dataSize, qxl + sizeofDataChunk.toUInt64⟩

/-- The chunk behind `next_chunk` of the one at `qxl`, and its address. -/
def nextChunk (qxl : UInt64) : Except Stop (UInt64 × RedDataChunk) := do
  let memslotId := getMemslotId info (mem qxl).nextChunk
  let next ← getVirt info (mem qxl).nextChunk sizeofDataChunk groupId
  return (next, ← readChunk info mem groupId memslotId next)

/-- The `while` loop of `red_get_data_chunks_ptr`; `none` where it has not ended within the rounds given. -/
def whileNext : Nat → List RedDataChunk → UInt64 → UInt64 → Option (Except Stop (List RedDataChunk × UInt64))
  | 0, _, _, _ => none
  | n + 1, red, dataSize, qxl =>
    if (mem qxl).nextChunk = 0 then some (.ok (red, dataSize))
    else
      match nextChunk info mem groupId qxl with
      | .error stop => some (.error stop)
      | .ok (next, chunk) => whileNext n (red ++ [chunk]) (dataSize + chunk.dataSize.toUInt64) next

@[grind] def redGetDataChunksPtr (memslotId : Int32) (qxl : UInt64) (rounds : Nat) :
    Option (Except Stop (List RedDataChunk × UInt64)) :=
  match readChunk info mem groupId memslotId qxl with
  | .error stop => some (.error stop)
  | .ok chunk => whileNext info mem groupId rounds [chunk] chunk.dataSize.toUInt64 qxl

/-- The data lies inside a slot that the tables have for the group. -/
def InSlot (chunk : RedDataChunk) : Prop :=
  ∃ (slotId : Int32) (slot : MemSlot), slotAt info groupId.toUInt32.toNat slotId.toInt = .ok slot ∧
    InRange slot chunk.data chunk.dataSize

/-- The call comes to an end: in a panic, or with a list of chunks inside the slots and their whole size. -/
def ParsesSafely (memslotId : Int32) (qxl : UInt64) : Prop :=
  ∃ rounds r, redGetDataChunksPtr info mem groupId memslotId qxl rounds = some r ∧
    Guarded r fun (red, dataSize) =>
      (∀ chunk ∈ red, InSlot info groupId chunk) ∧ (red.map fun chunk => chunk.dataSize.toNat).sum = dataSize.toNat

/-- The address of the chunk that the loop goes on to. -/
def follow (qxl : UInt64) : Option UInt64 :=
  if (mem qxl).nextChunk = 0 then none
  else
    match nextChunk info mem groupId qxl with
    | .error _ => none
    | .ok (next, _) => some next

/-- The chunk that a run makes of the fields at an address. -/
def chunkAt (qxl : UInt64) : RedDataChunk := ⟨(mem qxl).dataSize, qxl + sizeofDataChunk.toUInt64⟩

/-- The chunks that follow the one at an address, up to one whose `next_chunk` is null. -/
inductive Chain : UInt64 → List UInt64 → Prop
  | last {qxl : UInt64} (h : (mem qxl).nextChunk = 0) : Chain qxl []
  | next {qxl next : UInt64} {l : List UInt64} (h : follow info mem groupId qxl = some next) (hl : Chain next l) :
    Chain qxl (next :: l)

instance finiteUInt64 : Finite UInt64 := Finite.of_injective UInt64.toFin fun _ _ => UInt64.toFin_inj.mp

variable {info mem groupId}

theorem validateVirt_of_not_inTable {virt : UInt64} {memslotId : Int32} {size group : UInt32}
    (h : ¬ InTable info group.toNat memslotId.toInt) :
    validateVirt info virt memslotId size group = .error .outOfTable := by
  rw [validateVirt, slotAt_of_not_inTable h]
  rfl

theorem readChunk_of_not_inTable {memslotId : Int32} {qxl : UInt64}
    (h : ¬ InTable info groupId.toUInt32.toNat memslotId.toInt) :
    readChunk info mem groupId memslotId qxl = .error .outOfTable := by
  rw [readChunk, validateVirt_of_not_inTable h]
  rfl

/-- Where the slot is one of the tables', the chunk is inside it or the call panics. -/
theorem readChunk_of_inTable (mem : UInt64 → ChunkFields) {memslotId : Int32} (qxl : UInt64)
    (h : InTable info groupId.toUInt32.toNat memslotId.toInt) :
    (readChunk info mem groupId memslotId qxl = .ok (chunkAt mem qxl) ∧ InSlot info groupId (chunkAt mem qxl)) ∨
      ∃ p, readChunk info mem groupId memslotId qxl = .error (.panic p) := by
  obtain ⟨slot, hs⟩ := slotAt_of_inTable h
  by_cases hr : InRange slot (qxl + sizeofDataChunk.toUInt64) (mem qxl).dataSize
  · refine .inl ⟨?_, memslotId, slot, hs, hr⟩
    simp only [readChunk, validateVirt_of_inRange hs hr]
    rfl
  · obtain ⟨p, hp⟩ := validateVirt_of_not_inRange hs hr
    refine .inr ⟨p, ?_⟩
    simp only [readChunk, hp]
    rfl

theorem readChunk_eq_ok {memslotId : Int32} {qxl : UInt64} {chunk : RedDataChunk}
    (h : readChunk info mem groupId memslotId qxl = .ok chunk) :
    chunk = chunkAt mem qxl ∧ InSlot info groupId chunk := by
  by_cases ht : InTable info groupId.toUInt32.toNat memslotId.toInt
  · obtain ⟨hr, hin⟩ | ⟨p, hp⟩ := readChunk_of_inTable mem qxl ht
    · rw [hr, Except.ok.injEq] at h
      subst h
      exact ⟨rfl, hin⟩
    · rw [hp] at h
      cases h
  · rw [readChunk_of_not_inTable ht] at h
    cases h

theorem nextChunk_eq_ok {qxl next : UInt64} {chunk : RedDataChunk}
    (h : nextChunk info mem groupId qxl = .ok (next, chunk)) :
    chunk = chunkAt mem next ∧ InSlot info groupId chunk := by
  rw [nextChunk] at h
  cases hv : getVirt info (mem qxl).nextChunk sizeofDataChunk groupId with
  | error stop => simp [hv, bind, Except.bind] at h
  | ok virt =>
    cases hr : readChunk info mem groupId (getMemslotId info (mem qxl).nextChunk) virt with
    | error stop => simp [hv, hr, bind, Except.bind] at h
    | ok chunk' =>
      simp only [hv, hr, bind, Except.bind, pure, Except.pure, Except.ok.injEq, Prod.mk.injEq] at h
      obtain ⟨rfl, rfl⟩ := h
      exact readChunk_eq_ok hr

theorem nextChunk_of_error {qxl : UInt64} {stop : Stop}
    (h : getVirt info (mem qxl).nextChunk sizeofDataChunk groupId = .error stop) :
    nextChunk info mem groupId qxl = .error stop := by
  simp only [nextChunk, h]
  rfl

/-- Only `get_virt` can leave the tables here: the slot of the data is the one that it has looked up. -/
theorem nextChunk_outOfTable_iff {qxl : UInt64} :
    nextChunk info mem groupId qxl = .error .outOfTable ↔ PastTable info (mem qxl).nextChunk groupId := by
  have panics {p : Panic} (h : nextChunk info mem groupId qxl = .error (.panic p)) :
      nextChunk info mem groupId qxl ≠ .error .outOfTable := by
    rw [h]
    nofun
  refine ⟨fun h => ?_, fun h => nextChunk_of_error (getVirt_of_not_inTable h.1 h.2)⟩
  by_cases hu : Unchecked info (mem qxl).nextChunk groupId
  · refine ⟨hu, fun ht => ?_⟩
    obtain ⟨slot, hs⟩ := slotAt_of_inTable ht
    by_cases hgen : getGeneration info (mem qxl).nextChunk = slot.generation
    · by_cases hr : InRange slot (hostAddr info (mem qxl).nextChunk slot) sizeofDataChunk
      · have hv := getVirt_of_inRange hs hgen hr
        have ht' := inTable_of_slotAt (slotAt_toUInt32 hs)
        simp only [nextChunk, hv, bind, Except.bind] at h
        obtain ⟨hok, -⟩ | ⟨p, hp⟩ := readChunk_of_inTable mem
          (hostAddr info (mem qxl).nextChunk slot) ht'
        · simp [hok, pure, Except.pure] at h
        · simp [hp] at h
      · obtain ⟨p, hp⟩ := getVirt_of_not_inRange hs hgen hr
        exact panics (nextChunk_of_error hp) h
    · exact panics (nextChunk_of_error (getVirt_of_generation_ne hs hgen)) h
  · have hpanic : ∃ p, getVirt info (mem qxl).nextChunk sizeofDataChunk groupId = .error (.panic p) := getVirt_of_not_unchecked hu
    obtain ⟨p, hp⟩ := hpanic
    exact absurd h (panics (nextChunk_of_error hp))

/-- The sizes of the chunks at the addresses, added up. -/
def totalSize (mem : UInt64 → ChunkFields) (l : List UInt64) : Nat := (l.map fun qxl => (mem qxl).dataSize.toNat).sum

theorem whileNext_of_last {qxl : UInt64} (h : (mem qxl).nextChunk = 0) (n : Nat) (red : List RedDataChunk)
    (dataSize : UInt64) : whileNext info mem groupId (n + 1) red dataSize qxl = some (.ok (red, dataSize)) :=
  if_pos h

theorem whileNext_of_error {qxl : UInt64} {stop : Stop} (h : (mem qxl).nextChunk ≠ 0)
    (hs : nextChunk info mem groupId qxl = .error stop) (n : Nat) (red : List RedDataChunk) (dataSize : UInt64) :
    whileNext info mem groupId (n + 1) red dataSize qxl = some (.error stop) := by
  rw [whileNext, if_neg h, hs]

/-- At a chunk the chain ends, or the run does, or the loop goes on with the next chunk. -/
theorem follow_cases (info : RedMemSlotInfo) (mem : UInt64 → ChunkFields) (groupId : Int32) (qxl : UInt64) :
    ((mem qxl).nextChunk = 0 ∧ follow info mem groupId qxl = none) ∨
    (∃ stop, (mem qxl).nextChunk ≠ 0 ∧ nextChunk info mem groupId qxl = .error stop ∧
      follow info mem groupId qxl = none) ∨
    ∃ next, (mem qxl).nextChunk ≠ 0 ∧ nextChunk info mem groupId qxl = .ok (next, chunkAt mem next) ∧
      follow info mem groupId qxl = some next ∧ InSlot info groupId (chunkAt mem next) := by
  by_cases h0 : (mem qxl).nextChunk = 0
  · exact .inl ⟨h0, if_pos h0⟩
  · cases hn : nextChunk info mem groupId qxl with
    | error stop => exact .inr (.inl ⟨stop, h0, rfl, by rw [follow, if_neg h0, hn]⟩)
    | ok r =>
      obtain ⟨next, chunk⟩ := r
      obtain ⟨rfl, hin⟩ := nextChunk_eq_ok hn
      exact .inr (.inr ⟨next, h0, rfl, by rw [follow, if_neg h0, hn], hin⟩)

theorem whileNext_of_follow {qxl next : UInt64} (h : follow info mem groupId qxl = some next) (n : Nat)
    (red : List RedDataChunk) (dataSize : UInt64) :
    whileNext info mem groupId (n + 1) red dataSize qxl =
      whileNext info mem groupId n (red ++ [chunkAt mem next]) (dataSize + (mem next).dataSize.toUInt64) next := by
  obtain ⟨-, hf⟩ | ⟨_, -, -, hf⟩ | ⟨next', h0, hn, hf, -⟩ := follow_cases info mem groupId qxl
  · rw [hf] at h
    cases h
  · rw [hf] at h
    cases h
  · rw [hf, Option.some.injEq] at h
    subst h
    rw [whileNext, if_neg h0, hn]
    rfl

theorem whileNext_of_ends {qxl : UInt64} (h : Ends (follow info mem groupId) qxl) :
    ∀ red dataSize, ∃ n r, whileNext info mem groupId n red dataSize qxl = some r := by
  induction h with
  | intro qxl _ ih =>
    intro red dataSize
    obtain ⟨h0, -⟩ | ⟨stop, h0, hs, -⟩ | ⟨next, -, -, hf, -⟩ := follow_cases info mem groupId qxl
    · exact ⟨1, _, whileNext_of_last h0 0 red dataSize⟩
    · exact ⟨1, _, whileNext_of_error h0 hs 0 red dataSize⟩
    · obtain ⟨n, r, hr⟩ := ih next hf (red ++ [chunkAt mem next]) (dataSize + (mem next).dataSize.toUInt64)
      exact ⟨n + 1, r, (whileNext_of_follow hf n red dataSize).trans hr⟩

theorem ends_of_whileNext {n : Nat} {red : List RedDataChunk} {dataSize qxl : UInt64}
    {r : Except Stop (List RedDataChunk × UInt64)} (h : whileNext info mem groupId n red dataSize qxl = some r) :
    Ends (follow info mem groupId) qxl := by
  induction n generalizing red dataSize qxl with
  | zero => cases h
  | succ n ih =>
    refine ⟨qxl, fun next hf => ?_⟩
    rw [whileNext_of_follow hf] at h
    exact ih h

/-- The run comes by every chunk of the chain, and what it does from there on is what it does. -/
theorem whileNext_reached {qxl qxl' : UInt64} (h : Relation.ReflTransGen (LeadsTo (follow info mem groupId)) qxl qxl')
    {n : Nat} {red : List RedDataChunk} {dataSize : UInt64} {r : Except Stop (List RedDataChunk × UInt64)}
    (hr : whileNext info mem groupId n red dataSize qxl = some r) :
    ∃ n' red' dataSize', whileNext info mem groupId n' red' dataSize' qxl' = some r := by
  induction h using Relation.ReflTransGen.head_induction_on generalizing n red dataSize with
  | refl => exact ⟨n, red, dataSize, hr⟩
  | head hf _ ih =>
    cases n with
    | zero => cases hr
    | succ n =>
      rw [whileNext_of_follow hf] at hr
      exact ih hr

theorem whileNext_outOfTable {n : Nat} {red : List RedDataChunk} {dataSize qxl : UInt64}
    (h : whileNext info mem groupId n red dataSize qxl = some (.error .outOfTable)) :
    ∃ qxl', Relation.ReflTransGen (LeadsTo (follow info mem groupId)) qxl qxl' ∧ (mem qxl').nextChunk ≠ 0 ∧
      PastTable info (mem qxl').nextChunk groupId := by
  induction n generalizing red dataSize qxl with
  | zero => cases h
  | succ n ih =>
    obtain ⟨h0, -⟩ | ⟨stop, h0, hs, -⟩ | ⟨next, -, -, hf, -⟩ := follow_cases info mem groupId qxl
    · rw [whileNext_of_last h0] at h
      cases h
    · rw [whileNext_of_error h0 hs, Option.some.injEq, Except.error.injEq] at h
      subst h
      exact ⟨qxl, .refl, h0, nextChunk_outOfTable_iff.1 hs⟩
    · rw [whileNext_of_follow hf] at h
      obtain ⟨qxl', hreach, hpast⟩ := ih h
      exact ⟨qxl', hreach.head hf, hpast⟩

/-- What the loop returns when it ends at the end of the chain. -/
def collected (mem : UInt64 → ChunkFields) (red : List RedDataChunk) (dataSize : UInt64) (l : List UInt64) :
    List RedDataChunk × UInt64 :=
  (red ++ l.map (chunkAt mem), dataSize + (l.map fun qxl => (mem qxl).dataSize.toUInt64).sum)

theorem whileNext_of_chain {qxl : UInt64} {l : List UInt64} (h : Chain info mem groupId qxl l) {n : Nat}
    {red : List RedDataChunk} {dataSize : UInt64} {r : Except Stop (List RedDataChunk × UInt64)}
    (hr : whileNext info mem groupId n red dataSize qxl = some r) : r = .ok (collected mem red dataSize l) := by
  induction h generalizing n red dataSize with
  | last h0 =>
    cases n with
    | zero => cases hr
    | succ n =>
      rw [whileNext_of_last h0, Option.some.injEq] at hr
      simp [← hr, collected]
  | next hf _ ih =>
    cases n with
    | zero => cases hr
    | succ n =>
      rw [whileNext_of_follow hf] at hr
      rw [ih hr]
      simp [collected, UInt64.add_assoc]

theorem whileNext_ok {n : Nat} {red : List RedDataChunk} {dataSize qxl : UInt64}
    {r : List RedDataChunk × UInt64} (h : whileNext info mem groupId n red dataSize qxl = some (.ok r)) :
    ∃ l, Chain info mem groupId qxl l ∧ r = collected mem red dataSize l ∧
      ∀ x ∈ l, InSlot info groupId (chunkAt mem x) := by
  induction n generalizing red dataSize qxl with
  | zero => cases h
  | succ n ih =>
    obtain ⟨h0, -⟩ | ⟨stop, h0, hs, -⟩ | ⟨next, -, -, hf, hin⟩ := follow_cases info mem groupId qxl
    · have := whileNext_of_chain (.last h0) h
      exact ⟨[], .last h0, Except.ok.inj this, by simp⟩
    · rw [whileNext_of_error h0 hs] at h
      cases h
    · have h' := h
      rw [whileNext_of_follow hf] at h'
      obtain ⟨l, hl, -, hall⟩ := ih h'
      exact ⟨next :: l, .next hf hl, Except.ok.inj (whileNext_of_chain (.next hf hl) h),
        List.forall_mem_cons.mpr ⟨hin, hall⟩⟩

theorem toNat_sum (l : List UInt64) :
    ((l.map fun qxl => (mem qxl).dataSize.toUInt64).sum).toNat = totalSize mem l % 2 ^ 64 := by
  induction l with
  | nil => rfl
  | cons x l ih => simp [totalSize, UInt64.toNat_add] at ih ⊢; rw [ih]; simp

/-- What the guest's memory must not do: name a slot at the very end of the tables where the code looks it up,
lead the chain back to one of its chunks, or add up sizes that a `size_t` does not hold. -/
structure WellFormed (info : RedMemSlotInfo) (mem : UInt64 → ChunkFields) (groupId memslotId : Int32)
    (qxl : UInt64) : Prop where
  inTable : InTable info groupId.toUInt32.toNat memslotId.toInt
  notPastTable : readChunk info mem groupId memslotId qxl = .ok (chunkAt mem qxl) →
    ∀ qxl', Relation.ReflTransGen (LeadsTo (follow info mem groupId)) qxl qxl' → (mem qxl').nextChunk ≠ 0 →
      ¬ PastTable info (mem qxl').nextChunk groupId
  noCycle : readChunk info mem groupId memslotId qxl = .ok (chunkAt mem qxl) →
    ∀ qxl', Relation.ReflTransGen (LeadsTo (follow info mem groupId)) qxl qxl' →
      ¬ Relation.TransGen (LeadsTo (follow info mem groupId)) qxl' qxl'
  total : readChunk info mem groupId memslotId qxl = .ok (chunkAt mem qxl) →
    ∀ l, Chain info mem groupId qxl l → totalSize mem (qxl :: l) < 2 ^ 64

variable {memslotId : Int32} {qxl : UInt64}

theorem redGetDataChunksPtr_of_readChunk (h : readChunk info mem groupId memslotId qxl = .ok (chunkAt mem qxl))
    (n : Nat) : redGetDataChunksPtr info mem groupId memslotId qxl n =
      whileNext info mem groupId n [chunkAt mem qxl] (mem qxl).dataSize.toUInt64 qxl := by
  rw [redGetDataChunksPtr, h]
  rfl

theorem toNat_collected (l : List UInt64) :
    (collected mem [chunkAt mem qxl] (mem qxl).dataSize.toUInt64 l).2.toNat = totalSize mem (qxl :: l) % 2 ^ 64 := by
  rw [collected, UInt64.toNat_add, toNat_sum]
  simp [totalSize]

theorem sum_collected (l : List UInt64) :
    ((collected mem [chunkAt mem qxl] (mem qxl).dataSize.toUInt64 l).1.map fun chunk => chunk.dataSize.toNat).sum =
      totalSize mem (qxl :: l) := by
  simp [collected, totalSize, chunkAt, Function.comp_def]

theorem parsesSafely_of_wellFormed (h : WellFormed info mem groupId memslotId qxl) :
    ParsesSafely info mem groupId memslotId qxl := by
  obtain ⟨hr, hin⟩ | ⟨p, hp⟩ := readChunk_of_inTable mem qxl h.inTable
  · obtain ⟨n, r, hn⟩ := whileNext_of_ends (ends_iff.mpr (h.noCycle hr)) [chunkAt mem qxl]
      (mem qxl).dataSize.toUInt64
    refine ⟨n, r, (redGetDataChunksPtr_of_readChunk hr n).trans hn, ?_⟩
    cases r with
    | error stop =>
      cases stop with
      | panic p => trivial
      | outOfTable =>
        obtain ⟨qxl', hreach, h0, hpast⟩ := whileNext_outOfTable hn
        exact h.notPastTable hr qxl' hreach h0 hpast
    | ok r =>
      obtain ⟨l, hl, rfl, hall⟩ := whileNext_ok hn
      refine ⟨?_, ?_⟩
      · intro chunk hc
        simp only [List.singleton_append, List.mem_cons, List.mem_map] at hc
        obtain rfl | ⟨x, hx, rfl⟩ := hc
        · exact hin
        · exact hall x hx
      · exact (sum_collected l).trans ((toNat_collected l).trans (Nat.mod_eq_of_lt (h.total hr l hl))).symm
  · exact ⟨0, .error (.panic p), by rw [redGetDataChunksPtr, hp], trivial⟩

theorem ParsesSafely.inTable (h : ParsesSafely info mem groupId memslotId qxl) :
    InTable info groupId.toUInt32.toNat memslotId.toInt := by
  by_contra ht
  obtain ⟨n, r, hr, hg⟩ := h
  rw [redGetDataChunksPtr, readChunk_of_not_inTable ht, Option.some.injEq] at hr
  subst hr
  exact hg

theorem wellFormed_of_parsesSafely (h : ParsesSafely info mem groupId memslotId qxl) :
    WellFormed info mem groupId memslotId qxl := by
  have ht := h.inTable
  obtain ⟨n, r, hr, hg⟩ := h
  refine ⟨ht, fun hc qxl' hreach h0 hpast => ?_, fun hc => ?_, fun hc l hl => ?_⟩
  · rw [redGetDataChunksPtr_of_readChunk hc] at hr
    obtain ⟨n', red', dataSize', hr'⟩ := whileNext_reached hreach hr
    cases n' with
    | zero => cases hr'
    | succ n' =>
      rw [whileNext_of_error h0 (nextChunk_outOfTable_iff.mpr hpast), Option.some.injEq] at hr'
      subst hr'
      exact hg
  · rw [redGetDataChunksPtr_of_readChunk hc] at hr
    exact ends_iff.mp (ends_of_whileNext hr)
  · rw [redGetDataChunksPtr_of_readChunk hc] at hr
    obtain rfl := whileNext_of_chain hl hr
    have hsum := (sum_collected l).symm.trans (hg.2.trans (toNat_collected l))
    have := Nat.mod_lt (totalSize mem (qxl :: l)) (y := 2 ^ 64) (by decide)
    omega

/-- `red_get_data_chunks_ptr` ends well just for the guest memory that is well formed. -/
theorem parsesSafely_iff : ParsesSafely info mem groupId memslotId qxl ↔ WellFormed info mem groupId memslotId qxl :=
  ⟨wellFormed_of_parsesSafely, parsesSafely_of_wellFormed⟩

/-- One slot of one group, at the host addresses from 0x1000 up to 0x2000. -/
def oneSlot : RedMemSlotInfo :=
  ((redMemslotInfoInit 1 1 8 8 0).bind fun info => redMemslotInfoAddSlot info 0 0 0 0x1000 0x2000 0).get rfl

/-- Any chunk of 4 bytes names the one at 0x1000 as its next. -/
theorem not_parsesSafely_self_chunk :
    ¬ ParsesSafely oneSlot (fun _ => ⟨4, 0x1000⟩) 0 0 0x1000 := by
  have hc : readChunk oneSlot (fun _ => ⟨4, 0x1000⟩) 0 0 0x1000 = .ok ⟨4, 0x1014⟩ := by decide
  have hf : follow oneSlot (fun _ => ⟨4, 0x1000⟩) 0 0x1000 = some 0x1000 := by decide
  intro h
  exact (wellFormed_of_parsesSafely h).noCycle hc 0x1000 .refl (.single hf)

end Colama.Spice.DataChunks

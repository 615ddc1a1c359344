import Colama.Spice.MarshallerRuns

namespace Colama.Spice.Marshaller

open Lib SpiceMarshallerData

/-- The bytes that all items have together. -/
def itemsLen (d : SpiceMarshallerData) : Nat := sumLen (allItems d)

section Totals

variable (alloc : Nat → Int) {d d' d'' : SpiceMarshallerData} {i n k : Nat} {m m' : SpiceMarshaller}

theorem itemsLen_eq : itemsLen d = (d.marshallers.map fun m => sumLen m.items).sum := by
  rw [itemsLen, sumLen, allItems, List.map_flatMap, List.flatMap_def, List.sum_flatten, List.map_map]
  rfl

theorem sum_map_set_add {l : List SpiceMarshaller} (f : SpiceMarshaller → Nat) (hm : l[i]? = some m) :
    ((l.set i m').map f).sum + f m = (l.map f).sum + f m' := by
  induction l generalizing i with
  | nil => cases hm
  | cons x l ih =>
    cases i with
    | zero =>
      cases hm
      simp only [List.set_cons_zero, List.map_cons, List.sum_cons]
      omega
    | succ i =>
      have hrest := ih hm
      simp only [List.set_cons_succ, List.map_cons, List.sum_cons]
      omega

theorem itemsLen_setMarshaller (m' : SpiceMarshaller) (hm : d.marshallers[i]? = some m) :
    itemsLen (d.setMarshaller i m') + sumLen m.items = itemsLen d + sumLen m'.items := by
  rw [itemsLen_eq, itemsLen_eq]
  exact sum_map_set_add (fun m => sumLen m.items) hm

theorem itemsLen_addSize (size : Nat) : itemsLen (d.addSize i size) = itemsLen d := by
  have hsame : ∀ l : List SpiceMarshaller, (l.modify i fun m => { m with totalSize := m.totalSize + size }).map
      (fun m => sumLen m.items) = l.map fun m => sumLen m.items := by
    intro l
    apply List.ext_getElem
    · simp
    · intro j hj hj'
      simp only [List.getElem_map, List.getElem_modify]
      split
      · rfl
      · rfl
  rw [itemsLen_eq, itemsLen_eq, SpiceMarshallerData.addSize]
  simp only [hsame]

theorem sumLen_append (items items' : List MarshallerItem) : sumLen (items ++ items') = sumLen items + sumLen items' := by
  rw [sumLen, List.map_append, List.sum_append, sumLen, sumLen]

theorem sumLen_singleton (item : MarshallerItem) : sumLen [item] = item.len := by
  simp [sumLen]

theorem sumLen_getLast {items : List MarshallerItem} {item : MarshallerItem} (h : items.getLast? = some item) :
    sumLen items = sumLen items.dropLast + item.len := by
  obtain ⟨init, rfl⟩ := List.getLast?_eq_some_iff.mp h
  rw [List.dropLast_concat, sumLen_append, sumLen_singleton]

/-- The totals come to be `n` bytes more above the bytes of the items than they were. -/
def Exceeds (d d' : SpiceMarshallerData) (n : Nat) : Prop :=
  d'.totalSize + itemsLen d = d.totalSize + itemsLen d' + n

theorem Exceeds.refl : Exceeds d d 0 := rfl

theorem Exceeds.trans (h : Exceeds d d' n) (h' : Exceeds d' d'' k) : Exceeds d d'' (n + k) := by
  unfold Exceeds at h h' ⊢
  omega

theorem Exceeds.grow (m' : SpiceMarshaller) (size : Nat) (hm : d.marshallers[i]? = some m)
    (ht : d'.totalSize = d.totalSize) (hms : d'.marshallers = (d.setMarshaller i m').marshallers)
    (hlen : sumLen m'.items = sumLen m.items + size) : Exceeds d (d'.addSize i size) 0 := by
  have hset := itemsLen_setMarshaller m' hm
  have hsame : itemsLen (d.setMarshaller i m') = itemsLen d' := by rw [itemsLen_eq, itemsLen_eq, hms]
  have htotal : (d'.addSize i size).totalSize = d.totalSize + size := by rw [← ht, addSize]
  unfold Exceeds
  rw [itemsLen_addSize, htotal]
  omega

theorem addItem_grow {d₀ : SpiceMarshallerData} {item : MarshallerItem} (hm : d.marshallers[i]? = some m)
    (hms₀ : d₀.marshallers = d.marshallers) (ht₀ : d₀.totalSize = d.totalSize)
    (hms : d'.marshallers = (addItem alloc d₀ i m item).1.marshallers)
    (ht : d'.totalSize = (addItem alloc d₀ i m item).1.totalSize) : Exceeds d (d'.addSize i item.len) 0 := by
  obtain ⟨a, b, c, heq, -⟩ := addItem_eq alloc (d := d₀) (i := i) (m := m) item
  rw [heq] at hms ht
  have hlen : sumLen (m.items ++ [item]) = sumLen m.items + item.len := by rw [sumLen_append, sumLen_singleton]
  refine Exceeds.grow ⟨m.totalSize, m.pointerRef, m.items ++ [item], a, b⟩ _ hm (ht.trans ht₀) (hms.trans ?_) hlen
  rw [setMarshaller, setMarshaller, hms₀]

theorem reserveSpace_exceeds {size : Nat} {p : Option (Loc Block)}
    (h : spiceMarshallerReserveSpace alloc d i size = some (d', p)) : Exceeds d d' 0 := by
  unfold spiceMarshallerReserveSpace at h
  split at h
  · cases h
    exact .refl
  · obtain ⟨m, hm, h⟩ := Option.bind_eq_some_iff.mp h
    split at h
    · obtain ⟨item, hlast, h⟩ := Option.bind_eq_some_iff.mp h
      cases h
      refine Exceeds.grow _ size hm rfl rfl ?_
      rw [sumLen_append, sumLen_singleton, sumLen_getLast hlast, Nat.add_assoc]
    · split at h
      · obtain ⟨rfl, -⟩ := Prod.mk.inj (Option.some.inj h)
        exact addItem_grow alloc hm rfl rfl rfl rfl
      · split at h
        · obtain ⟨rfl, -⟩ := Prod.mk.inj (Option.some.inj h)
          have hms₀ : { d with allocs := d.allocs + 1 }.marshallers = d.marshallers := rfl
          exact addItem_grow alloc hm hms₀ rfl rfl rfl
        · obtain ⟨rfl, -⟩ := Prod.mk.inj (Option.some.inj h)
          exact addItem_grow alloc hm rfl rfl rfl rfl

theorem reserveAndWrite_exceeds {bytes : List UInt8} (h : reserveAndWrite alloc d i bytes = some d') :
    Exceeds d d' 0 := by
  obtain ⟨⟨d₁, p⟩, hr, h⟩ := Option.bind_eq_some_iff.mp h
  have hres := reserveSpace_exceeds alloc hr
  cases p with
  | none =>
    cases h
    exact hres
  | some p =>
    cases h
    exact hres

theorem unreserveSpace_exceeds {size : Nat} (h : spiceMarshallerUnreserveSpace d i size = some d') :
    Exceeds d d' size := by
  unfold spiceMarshallerUnreserveSpace at h
  split at h
  · rename_i hzero
    cases h
    rw [hzero]
    exact .refl
  · obtain ⟨m, hm, h⟩ := Option.bind_eq_some_iff.mp h
    obtain ⟨item, hlast, h⟩ := Option.bind_eq_some_iff.mp h
    split at h
    · cases h
    · cases h
      have hset := itemsLen_setMarshaller
        { m with items := m.items.dropLast ++ [{ item with len := item.len - size }] } hm
      have hlen := sumLen_getLast hlast
      rw [sumLen_append, sumLen_singleton] at hset
      simp only at hset
      have htotal : ∀ m', (d.setMarshaller i m').totalSize = d.totalSize := fun _ => rfl
      unfold Exceeds
      rw [htotal]
      omega

theorem addRefFull_exceeds {u : UserData} (h : spiceMarshallerAddRefFull alloc d i u = some d') : Exceeds d d' 0 := by
  obtain ⟨m, hm, h⟩ := Option.bind_eq_some_iff.mp h
  split at h
  · cases h
    exact .refl
  · split at h
    · cases h
      exact .refl
    · cases h
      exact addItem_grow alloc hm rfl rfl rfl rfl

theorem addRefChunks_exceeds {us : List UserData} (h : spiceMarshallerAddRefChunks alloc d i us = some d') :
    Exceeds d d' 0 := by
  induction us generalizing d with
  | nil =>
    cases h
    exact .refl
  | cons u us ih =>
    obtain ⟨d₁, hu, h⟩ := Option.bind_eq_some_iff.mp h
    exact (addRefFull_exceeds alloc hu).trans (ih h)

theorem appendMarshaller_exceeds (ref : Option MarshallerRef) : Exceeds d (appendMarshaller alloc d ref) 0 := by
  have hlen : itemsLen (appendMarshaller alloc d ref) = itemsLen d := by
    rw [itemsLen_eq, itemsLen_eq, appendMarshaller, List.map_append, List.sum_append]
    simp [spiceMarshallerInit, sumLen]
  unfold Exceeds
  rw [hlen]
  rfl

theorem getPtrSubmarshaller_exceeds {is64bit : Bool}
    (h : spiceMarshallerGetPtrSubmarshaller alloc d i is64bit = some d') : Exceeds d d' 0 := by
  obtain ⟨d₁, hr, h⟩ := Option.bind_eq_some_iff.mp h
  obtain ⟨m, -, h⟩ := Option.bind_eq_some_iff.mp h
  obtain ⟨item, -, h⟩ := Option.bind_eq_some_iff.mp h
  cases h
  exact (reserveAndWrite_exceeds alloc hr).trans (appendMarshaller_exceeds alloc _)

theorem flush_exceeds : Exceeds d (spiceMarshallerFlush d) 0 := by
  rw [spiceMarshallerFlush_eq]
  exact .refl

/-- The bytes that are given back, from the last reset on. -/
def Op.unreserved (n : Nat) : Op → Nat
  | .unreserveSpace _ size => n + size
  | .reset => 0
  | _ => n

theorem step_unreserved {op : Op} (h : step alloc d op = some d') (hd : d.totalSize = itemsLen d + n) :
    d'.totalSize = itemsLen d' + op.unreserved n := by
  have hkeep {k : Nat} (hk : Exceeds d d' k) : d'.totalSize = itemsLen d' + (n + k) := by
    unfold Exceeds at hk
    omega
  cases op with
  | reserveSpace i bytes => exact hkeep (reserveAndWrite_exceeds alloc h)
  | add i bytes => exact hkeep (reserveAndWrite_exceeds alloc h)
  | addUint i width v => exact hkeep (reserveAndWrite_exceeds alloc h)
  | addRef i u => exact hkeep (addRefFull_exceeds alloc h)
  | addRefChunks i us => exact hkeep (addRefChunks_exceeds alloc h)
  | getSubmarshaller i =>
    cases h
    exact hkeep (appendMarshaller_exceeds alloc none)
  | getPtrSubmarshaller i is64bit => exact hkeep (getPtrSubmarshaller_exceeds alloc h)
  | unreserveSpace i size => exact hkeep (unreserveSpace_exceeds h)
  | setBase base =>
    cases h
    exact hd
  | flush =>
    cases h
    exact hkeep flush_exceeds
  | reset =>
    cases h
    rw [itemsLen_eq, spiceMarshallerReset]
    cases d.marshallers with
    | nil => rfl
    | cons _ _ => rfl

theorem run_unreserved {ops : List Op} (h : run alloc d ops = some d') (hd : d.totalSize = itemsLen d + n) :
    d'.totalSize = itemsLen d' + ops.foldl Op.unreserved n := by
  induction ops generalizing d n with
  | nil =>
    cases h
    exact hd
  | cons op ops ih =>
    obtain ⟨d₁, hstep, h⟩ := Option.bind_eq_some_iff.mp h
    exact ih h (step_unreserved alloc hstep hd)

end Totals

section Sending

variable {d : SpiceMarshallerData} {mem : Memory Block} {skip nVec : Nat} {items : List MarshallerItem}

/-- The bytes that `spice_marshaller_fill_iovec` offers. -/
def offered (d : SpiceMarshallerData) (nVec skip : Nat) : List UInt8 :=
  (spiceMarshallerFillIovec d nVec skip).flatMap fun e => d.mem.read e.1 e.2

/-- The bytes of all items, in their order. -/
def stream (d : SpiceMarshallerData) : List UInt8 := itemBytes d.mem (allItems d)

structure Sent where
  skip : Nat
  bytes : List UInt8

/-- One call with `nVec` entries, after which `count` of the offered bytes are sent. -/
def send (d : SpiceMarshallerData) (s : Sent) (nVec count : Nat) : Option Sent :=
  if 0 < nVec ∧ 0 < count ∧ count ≤ (offered d nVec s.skip).length then
    some ⟨s.skip + count, s.bytes ++ (offered d nVec s.skip).take count⟩
  else none

def sendAll (d : SpiceMarshallerData) : List (Nat × Nat) → Sent → Option Sent
  | [], s => some s
  | (nVec, count) :: calls, s => do sendAll d calls (← send d s nVec count)

theorem length_stream : (stream d).length = itemsLen d := length_itemBytes _ _

theorem fillIovec_prefix :
    (fillIovec nVec skip items).flatMap (fun e => mem.read e.1 e.2) <+: (itemBytes mem items).drop skip := by
  induction items generalizing nVec skip with
  | nil => exact List.nil_prefix
  | cons item items ih =>
    have hcons : itemBytes mem (item :: items) = mem.read item.data item.len ++ itemBytes mem items := rfl
    rw [hcons, List.drop_append, Memory.length_read, fillIovec.eq_def]
    simp only
    split
    · rename_i hle
      have hnil : (mem.read item.data item.len).drop skip = [] :=
        List.drop_of_length_le (by rwa [Memory.length_read])
      rw [hnil, List.nil_append]
      exact ih
    · rename_i hlt
      cases nVec with
      | zero => exact List.nil_prefix
      | succ n =>
        have hrest : (fillIovec n 0 items).flatMap (fun e => mem.read e.1 e.2) <+: (itemBytes mem items).drop 0 := ih
        rw [List.flatMap_cons, Memory.read_drop mem item.data (by omega), Nat.sub_eq_zero_of_le (by omega)]
        exact (List.prefix_append_right_inj _).mpr hrest

/-- Something is offered before the end. -/
theorem fillIovec_pos (hn : 0 < nVec) (h : skip < sumLen items) :
    0 < ((fillIovec nVec skip items).flatMap fun e => mem.read e.1 e.2).length := by
  induction items generalizing skip with
  | nil => exact absurd h (Nat.not_lt_zero skip)
  | cons item items ih =>
    have hcons : sumLen (item :: items) = item.len + sumLen items := by
      rw [sumLen, List.map_cons, List.sum_cons, sumLen]
    rw [fillIovec.eq_def]
    simp only
    split
    · exact ih (by omega)
    · obtain ⟨n, rfl⟩ : ∃ n, nVec = n + 1 := ⟨nVec - 1, by omega⟩
      rw [List.flatMap_cons, List.length_append, Memory.length_read]
      omega

theorem offered_prefix : offered d nVec skip <+: (stream d).drop skip := fillIovec_prefix

theorem offered_pos (hn : 0 < nVec) (h : skip < itemsLen d) : 0 < (offered d nVec skip).length := fillIovec_pos hn h

theorem offered_eq_nil (h : itemsLen d ≤ skip) : offered d nVec skip = [] := by
  have hpre : offered d nVec skip <+: (stream d).drop skip := offered_prefix
  rw [List.drop_of_length_le (by rwa [length_stream])] at hpre
  exact List.prefix_nil.mp hpre

/-- What is sent is the stream as far as it is counted. -/
theorem sendAll_eq {calls : List (Nat × Nat)} {s s' : Sent} (h : sendAll d calls s = some s')
    (hbytes : s.bytes = (stream d).take s.skip) (hle : s.skip ≤ itemsLen d) :
    s'.bytes = (stream d).take s'.skip ∧ s.skip + calls.length ≤ s'.skip ∧ s'.skip ≤ itemsLen d := by
  induction calls generalizing s with
  | nil =>
    cases h
    exact ⟨hbytes, le_rfl, hle⟩
  | cons call calls ih =>
    obtain ⟨s₁, hsend, h⟩ := Option.bind_eq_some_iff.mp h
    unfold send at hsend
    split at hsend
    · rename_i hcond
      obtain ⟨-, hpos, hcount⟩ := hcond
      cases hsend
      have hpre : offered d call.1 s.skip <+: (stream d).drop s.skip := offered_prefix
      have hlen := hpre.length_le
      rw [List.length_drop, length_stream] at hlen
      have htake : (offered d call.1 s.skip).take call.2 = ((stream d).drop s.skip).take call.2 := by
        obtain ⟨rest, hrest⟩ := hpre
        rw [← hrest, List.take_append_of_le_length hcount]
      obtain ⟨hbytes', hskip', hle'⟩ := ih h (by rw [hbytes, htake, List.take_add]) (by simp only; omega)
      simp only at hskip'
      exact ⟨hbytes', by rw [List.length_cons]; omega, hle'⟩
    · cases hsend

/-- A sender that counts what it has sent gets through the stream, once and in order, and stops at the total size. -/
structure Resumes (d : SpiceMarshallerData) : Prop where
  inOrder : ∀ calls s, sendAll d calls ⟨0, []⟩ = some s →
    s.bytes = (stream d).take s.skip ∧ calls.length ≤ s.skip ∧ s.skip ≤ spiceMarshallerGetTotalSize d
  proceeds : ∀ calls s, sendAll d calls ⟨0, []⟩ = some s → s.skip < spiceMarshallerGetTotalSize d →
    ∀ nVec, 0 < nVec → 0 < (offered d nVec s.skip).length
  stops : ∀ calls s, sendAll d calls ⟨0, []⟩ = some s → s.skip = spiceMarshallerGetTotalSize d →
    s.bytes = stream d ∧ ∀ nVec, offered d nVec s.skip = []

theorem sendAll_whole (h : 0 < itemsLen d) : ∃ n, sendAll d [n] ⟨0, []⟩ = some ⟨itemsLen d, stream d⟩ := by
  have hoff : offered d ((allItems d).length + 1) 0 = stream d := by
    have heq := fillIovec_eq d.mem 0 (Nat.le_succ (allItems d).length)
    rwa [List.drop_zero] at heq
  refine ⟨((allItems d).length + 1, itemsLen d), ?_⟩
  rw [sendAll, send, hoff, if_pos ⟨Nat.succ_pos _, h, length_stream.ge⟩, List.take_of_length_le length_stream.le,
    Nat.zero_add]
  rfl

theorem resumes_iff : Resumes d ↔ spiceMarshallerGetTotalSize d = itemsLen d := by
  constructor
  · intro h
    obtain ⟨calls, s, hsend, hskip⟩ : ∃ calls s, sendAll d calls ⟨0, []⟩ = some s ∧ s.skip = itemsLen d := by
      obtain hzero | hpos := Nat.eq_zero_or_pos (itemsLen d)
      · exact ⟨[], ⟨0, []⟩, rfl, hzero.symm⟩
      · obtain ⟨n, hn⟩ := sendAll_whole hpos
        exact ⟨[n], _, hn, rfl⟩
    obtain ⟨-, -, hle⟩ := h.inOrder calls s hsend
    by_contra hne
    have hpos := h.proceeds calls s hsend (by omega) 1 Nat.one_pos
    rw [offered_eq_nil hskip.ge] at hpos
    exact absurd hpos (Nat.lt_irrefl 0)
  · intro htotal
    have hsent {calls s} (hs : sendAll d calls ⟨0, []⟩ = some s) :=
      sendAll_eq hs List.take_zero.symm (Nat.zero_le _)
    refine ⟨fun calls s hs => ?_, fun calls s hs hlt nVec hn => ?_, fun calls s hs heq => ?_⟩
    · obtain ⟨hbytes, hskip, hle⟩ := hsent hs
      exact ⟨hbytes, by simpa using hskip, htotal ▸ hle⟩
    · exact offered_pos hn (htotal ▸ hlt)
    · rw [htotal] at heq
      refine ⟨?_, fun nVec => offered_eq_nil heq.ge⟩
      rw [(hsent hs).1, heq, List.take_of_length_le length_stream.le]

end Sending

/-- The message of a run can be sent piecewise exactly if nothing was given back since the last reset. -/
theorem run_resumes_iff (alloc : Nat → Int) (addr : Int) (mem : Memory Block) (ops : List Op) {d : SpiceMarshallerData}
    (h : run alloc (spiceMarshallerNew addr mem) ops = some d) : Resumes d ↔ ops.foldl Op.unreserved 0 = 0 := by
  have htotal := run_unreserved alloc (n := 0) h rfl
  rw [resumes_iff, spiceMarshallerGetTotalSize, htotal]
  omega

theorem run_resumes_iff_reset : ∃ d,
    run (fun k => 4096 * (k + 1)) (spiceMarshallerNew 64 fun _ _ => 0)
      [.reserveSpace 0 [1, 2], .unreserveSpace 0 1, .reset, .add 0 [3]] = some d ∧
    (Resumes d ↔
      [Op.reserveSpace 0 [1, 2], .unreserveSpace 0 1, .reset, .add 0 [3]].foldl Op.unreserved 0 = 0) :=
  ⟨_, rfl, run_resumes_iff (fun k => 4096 * (k + 1)) 64 (fun _ _ => 0) _ rfl⟩

/-- Two of three reserved bytes are given back: after the third the sender waits for more. -/
theorem not_resumes_unreserved : ∃ d,
    run (fun k => 4096 * (k + 1)) (spiceMarshallerNew 64 fun _ _ => 0)
      [.reserveSpace 0 [1, 2, 3], .unreserveSpace 0 2] = some d ∧ ¬Resumes d := by
  refine ⟨_, rfl, fun h => ?_⟩
  exact absurd (h.proceeds [(1, 1)] ⟨1, [1]⟩ rfl (by decide) 1 (by decide)) (by decide)

end Colama.Spice.Marshaller

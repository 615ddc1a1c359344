import Mathlib.Tactic
import Colama.Spice.MarshallerSpec

namespace Colama.Spice.Marshaller

open Lib

inductive Op
  | reserveSpace (i : Nat) (bytes : List UInt8)
  | add (i : Nat) (bytes : List UInt8)
  | addUint (i width v : Nat)
  | addRef (i : Nat) (u : UserData)
  | addRefChunks (i : Nat) (us : List UserData)
  | getSubmarshaller (i : Nat)
  | getPtrSubmarshaller (i : Nat) (is64bit : Bool)
  | unreserveSpace (i size : Nat)
  | setBase (base : UInt64)
  | flush
  | reset

def step (alloc : Nat → Int) (d : SpiceMarshallerData) : Op → Option SpiceMarshallerData
  | .reserveSpace i bytes => reserveAndWrite alloc d i bytes
  | .add i bytes => spiceMarshallerAdd alloc d i bytes
  | .addUint i width v => spiceMarshallerAddUint alloc d i width v
  | .addRef i u => spiceMarshallerAddRef alloc d i u
  | .addRefChunks i us => spiceMarshallerAddRefChunks alloc d i us
  | .getSubmarshaller _ => some (spiceMarshallerGetSubmarshaller alloc d)
  | .getPtrSubmarshaller i is64bit => spiceMarshallerGetPtrSubmarshaller alloc d i is64bit
  | .unreserveSpace i size => spiceMarshallerUnreserveSpace d i size
  | .setBase base => some (spiceMarshallerSetBase d base)
  | .flush => some (spiceMarshallerFlush d)
  | .reset => some (spiceMarshallerReset d)

def run (alloc : Nat → Int) (d : SpiceMarshallerData) : List Op → Option SpiceMarshallerData
  | [] => some d
  | op :: ops => do run alloc (← step alloc d op) ops

/-- The marshaller that a call is made on, and how many bytes the call reserves. -/
def Op.reserves : Op → Option (Nat × Nat)
  | .reserveSpace i bytes => some (i, bytes.length)
  | .add i bytes => some (i, bytes.length)
  | .addUint i width _ => some (i, width)
  | .getPtrSubmarshaller i is64bit => some (i, pointerSize is64bit)
  | _ => none

/-- The marshaller that is passed to a call, apart from the calls that take the root. -/
def Op.marshaller : Op → Option Nat
  | .reserveSpace i _ | .add i _ | .addUint i _ _ | .addRef i _ | .addRefChunks i _
  | .getSubmarshaller i | .getPtrSubmarshaller i _ | .unreserveSpace i _ => some i
  | .setBase _ | .flush | .reset => none

/-- The call is made on a marshaller that exists. -/
def Op.OnMarshaller (d : SpiceMarshallerData) (op : Op) : Prop :=
  ∀ i, op.marshaller = some i → i < d.marshallers.length

/-- The call does not extend an item that only seems to be the current one. -/
def Op.NoStrayItem (d : SpiceMarshallerData) (op : Op) : Prop :=
  ∀ i size, op.reserves = some (i, size) → size ≠ 0 → PiggyBackOk d i size

/-- Every call of the run, in the state it finds, meets the condition. -/
def Along (alloc : Nat → Int) (P : SpiceMarshallerData → Op → Prop) (d : SpiceMarshallerData) :
    List Op → Prop
  | [] => True
  | op :: ops => P d op ∧ ∀ d', step alloc d op = some d' → Along alloc P d' ops

/-- The calls that build a message, as opposed to those that change or send it. -/
def Op.Builds : Op → Prop
  | .unreserveSpace _ _ => False
  | .setBase _ => False
  | .flush => False
  | .reset => False
  | _ => True

/-- The bytes of each marshaller after a call, in terms of those before it. -/
def Op.extend (user : Nat → Nat → UInt8) (cs : List (List UInt8)) : Op → List (List UInt8)
  | .reserveSpace i bytes => cs.modify i (· ++ bytes)
  | .add i bytes => cs.modify i (· ++ bytes)
  | .addUint i width v => cs.modify i (· ++ littleEndian v width)
  | .addRef i u => cs.modify i (· ++ u.bytes user)
  | .addRefChunks i us => cs.modify i (· ++ us.flatMap (·.bytes user))
  | .getSubmarshaller _ => cs ++ [[]]
  | .getPtrSubmarshaller i is64bit =>
    cs.modify i (· ++ List.replicate (pointerSize is64bit) 0) ++ [[]]
  | _ => cs

variable (alloc : Nat → Int) {d : SpiceMarshallerData}

theorem step_writes {op : Op} (hi : Inv d) (hb : op.Builds) (hon : op.OnMarshaller d)
    (hok : op.NoStrayItem d) : ∃ d', step alloc d op = some d' ∧
      Writes d d' (op.extend (fun k => d.mem (.user k)) (contents d)) := by
  have hget : ∀ i, i < d.marshallers.length → ∃ m, d.marshallers[i]? = some m :=
    fun i h => ⟨_, List.getElem?_eq_getElem h⟩
  cases op with
  | reserveSpace i bytes =>
    obtain ⟨m, hm⟩ := hget i (hon i rfl)
    exact reserveAndWrite_writes alloc hi hm fun hne => hok i _ rfl (List.length_pos_of_ne_nil hne).ne'
  | add i bytes =>
    obtain ⟨m, hm⟩ := hget i (hon i rfl)
    exact reserveAndWrite_writes alloc hi hm fun hne => hok i _ rfl (List.length_pos_of_ne_nil hne).ne'
  | addUint i width v =>
    obtain ⟨m, hm⟩ := hget i (hon i rfl)
    refine reserveAndWrite_writes alloc hi hm fun hne => ?_
    have hlen := List.length_pos_of_ne_nil hne
    rw [length_littleEndian] at hlen ⊢
    exact hok i width rfl hlen.ne'
  | addRef i u =>
    obtain ⟨m, hm⟩ := hget i (hon i rfl)
    exact addRefFull_writes alloc hi hm u
  | addRefChunks i us =>
    obtain ⟨m, hm⟩ := hget i (hon i rfl)
    exact addRefChunks_writes alloc hi hm us
  | getSubmarshaller i => exact ⟨_, rfl, getSubmarshaller_writes alloc hi⟩
  | getPtrSubmarshaller i is64bit =>
    obtain ⟨m, hm⟩ := hget i (hon i rfl)
    exact getPtrSubmarshaller_writes alloc hi hm is64bit
      (hok i _ rfl (by cases is64bit <;> decide))
  | unreserveSpace => exact absurd hb id
  | setBase => exact absurd hb id
  | flush => exact absurd hb id
  | reset => exact absurd hb id

theorem new_inv (addr : Int) (mem : Memory Block) : Inv (spiceMarshallerNew addr mem) where
  root := ⟨_, [], rfl, rfl⟩
  position_le := Nat.zero_le _
  layout := by
    intro item hitem
    simp [allItems, spiceMarshallerNew, spiceMarshallerInit] at hitem
  size_eq := by
    intro m hm
    rw [List.mem_singleton.mp hm]
    rfl
  totalSize_eq := rfl
  resolves := by
    intro r hr
    cases hr
  apart := .nil

/-- Along a run that builds a message, the marshallers hold the bytes that were added to them. -/
theorem run_writes (user : Nat → Nat → UInt8) {ops : List Op} (hi : Inv d) (hb : ∀ op ∈ ops, op.Builds)
    (hok : Along alloc (fun d op => op.OnMarshaller d ∧ op.NoStrayItem d) d ops)
    (hu : ∀ k, d.mem (.user k) = user k) :
    ∃ d', run alloc d ops = some d' ∧ Inv d' ∧
      contents d' = ops.foldl (Op.extend user) (contents d) := by
  induction ops generalizing d with
  | nil => exact ⟨d, rfl, hi, rfl⟩
  | cons op ops ih =>
    obtain ⟨⟨hon, hstray⟩, hnext⟩ := hok
    obtain ⟨d₁, he, hw⟩ := step_writes alloc hi (hb op (.head _)) hon hstray
    obtain ⟨d₂, he₂, hi₂, hc₂⟩ := ih hw.inv (fun op h => hb op (.tail _ h)) (hnext d₁ he)
      (fun k => (hw.user_eq k).trans (hu k))
    refine ⟨d₂, by rw [run, he]; exact he₂, hi₂, ?_⟩
    rw [hc₂, hw.contents_eq, List.foldl_cons]
    simp only [hu]

@[simp] theorem length_itemBytes (mem : Memory Block) (items : List MarshallerItem) :
    (itemBytes mem items).length = sumLen items := by
  simp [itemBytes, sumLen]

theorem copyItems_eq (mem : Memory Block) (skip : Nat) (items : List MarshallerItem) :
    copyItems mem skip items = (itemBytes mem items).drop skip := by
  induction items generalizing skip with
  | nil => simp [copyItems, itemBytes]
  | cons item items ih =>
    have hcons : itemBytes mem (item :: items) = mem.read item.data item.len ++ itemBytes mem items := rfl
    rw [copyItems, hcons, List.drop_append, Memory.length_read]
    split
    · rename_i hle
      have hnil : (mem.read item.data item.len).drop skip = [] :=
        List.drop_of_length_le (by rwa [Memory.length_read])
      rw [ih, hnil, List.nil_append]
    · rename_i hlt
      rw [ih, Memory.read_drop mem item.data (by omega), Nat.sub_eq_zero_of_le (by omega)]

theorem itemBytes_allItems (d : SpiceMarshallerData) :
    itemBytes d.mem (allItems d) = (contents d).flatten := by
  rw [itemBytes, allItems, List.flatMap_assoc, contents, List.flatMap_def]
  rfl

theorem Inv.length_flatten (h : Inv d) : (contents d).flatten.length = d.totalSize := by
  rw [List.length_flatten, h.totalSize_eq, contents, List.map_map]
  congr 1
  refine List.map_congr_left fun m hm => ?_
  rw [h.size_eq m hm]
  exact length_itemBytes _ _

/-- The bytes that are returned and the length that is reported, seen from the root's items. -/
theorem linearize_eq (h : Inv d) {root : SpiceMarshaller} {subs : List SpiceMarshaller}
    (hms : d.marshallers = root :: subs) (skip : Nat) :
    spiceMarshallerLinearize d skip =
      if root.items.length = 1 then
        ((itemBytes d.mem root.items).drop skip, ((itemBytes d.mem root.items).drop skip).length)
      else ((contents d).flatten.drop skip, ((contents d).flatten.drop skip).length) := by
  rw [spiceMarshallerLinearize, hms]
  match hi : root.items with
  | [] =>
    simp only [hi, List.length_nil, zero_ne_one, if_false, copyItems_eq, itemBytes_allItems,
      List.length_drop, h.length_flatten]
  | [item] =>
    simp only [hi, List.length_singleton, if_true, itemBytes, List.flatMap_singleton]
    split
    · rename_i hle
      rw [List.drop_of_length_le (by rwa [Memory.length_read]), List.length_nil]
    · rename_i hlt
      rw [Memory.read_drop d.mem item.data (by omega), List.length_drop, Memory.length_read]
  | a :: b :: items =>
    simp only [hi, List.length_cons, Nat.add_eq_right, Nat.add_eq_zero_iff, one_ne_zero, and_false, if_false,
      copyItems_eq, itemBytes_allItems, List.length_drop, h.length_flatten]

/-- The root has one item, so that only this item is returned, and bytes of submarshallers behind
the first `skip` bytes are left out. -/
def CutsOff (d : SpiceMarshallerData) (skip : Nat) : Prop :=
  (d.marshallers.head?.map (·.items.length)) = some 1 ∧
    0 < (d.marshallers.tail.map (·.totalSize)).sum ∧ skip < d.totalSize

theorem linearize_eq_iff (h : Inv d) {skip : Nat} (hs : skip ≤ (contents d).flatten.length) :
    spiceMarshallerLinearize d skip =
      ((contents d).flatten.drop skip, ((contents d).flatten.drop skip).length) ↔ ¬CutsOff d skip := by
  obtain ⟨root, subs, hms, -⟩ := h.root
  rw [linearize_eq h hms skip]
  have htotal := h.length_flatten
  have hflat : (contents d).flatten =
      itemBytes d.mem root.items ++ (subs.map fun m => itemBytes d.mem m.items).flatten := by
    rw [contents, hms, List.map_cons, List.flatten_cons]
  have hsubs : (subs.map fun m => itemBytes d.mem m.items).flatten.length =
      (subs.map (·.totalSize)).sum := by
    have hsum := h.totalSize_eq
    have hroot := h.size_eq root (by rw [hms]; exact .head _)
    rw [hflat, List.length_append, length_itemBytes] at htotal
    rw [hms, List.map_cons, List.sum_cons] at hsum
    omega
  unfold CutsOff
  rw [hms, List.head?_cons, List.tail_cons, Option.map_some, Option.some.injEq]
  split
  · rename_i hone
    rw [hflat] at hs htotal ⊢
    rw [List.drop_append]
    simp only [Prod.mk.injEq, List.length_append, hone, true_and]
    constructor
    · rintro ⟨he, -⟩ ⟨hpos, hlt⟩
      have hnil := List.self_eq_append_right.mp he
      have := congrArg List.length hnil
      rw [List.length_drop, List.length_nil] at this
      rw [List.length_append] at htotal
      omega
    · intro hn
      have hnil : ((subs.map fun m => itemBytes d.mem m.items).flatten).drop
          (skip - (itemBytes d.mem root.items).length) = [] := by
        rw [List.drop_eq_nil_iff]
        rw [List.length_append] at hs htotal
        omega
      rw [hnil]
      simp
  · rename_i hone
    simp [hone]

/-- The message that a sequence of calls on a new marshaller stands for: the marshallers in creation
order, each with the bytes that were added to it. -/
def message (user : Nat → Nat → UInt8) (ops : List Op) : List UInt8 :=
  (ops.foldl (Op.extend user) [[]]).flatten

theorem run_linearize_iff (alloc : Nat → Int) (addr : Int) (mem : Memory Block) (ops : List Op)
    (hb : ∀ op ∈ ops, op.Builds)
    (hok : Along alloc (fun d op => op.OnMarshaller d ∧ op.NoStrayItem d)
      (spiceMarshallerNew addr mem) ops) :
    ∃ d, run alloc (spiceMarshallerNew addr mem) ops = some d ∧
      d.totalSize = (message (fun k => mem (.user k)) ops).length ∧
      ∀ skip, skip ≤ d.totalSize →
        (spiceMarshallerLinearize d skip =
            ((message (fun k => mem (.user k)) ops).drop skip,
              ((message (fun k => mem (.user k)) ops).drop skip).length) ↔ ¬CutsOff d skip) := by
  obtain ⟨d, he, hi, hc⟩ := run_writes alloc (fun k => mem (.user k)) (new_inv addr mem) hb hok
    fun _ => rfl
  have hm : (contents d).flatten = message (fun k => mem (.user k)) ops := by
    rw [hc]
    rfl
  rw [← hm]
  refine ⟨d, he, hi.length_flatten.symm, fun skip hs => linearize_eq_iff hi ?_⟩
  rwa [hi.length_flatten]

theorem run_linearize_two_marshallers : ∃ d,
    run (fun k => 4096 * (k + 1)) (spiceMarshallerNew 64 fun _ _ => 7)
      [.add 0 [1, 2], .addRef 0 ⟨some (0, 0), 3⟩, .getSubmarshaller 0, .addUint 1 4 258] = some d ∧
    spiceMarshallerLinearize d 1 = ([2, 7, 7, 7, 2, 1, 0, 0], 8) := by
  have hok : Along (fun k => 4096 * (k + 1)) (fun d op => op.OnMarshaller d ∧ op.NoStrayItem d)
      (spiceMarshallerNew 64 fun _ _ => 7)
      [.add 0 [1, 2], .addRef 0 ⟨some (0, 0), 3⟩, .getSubmarshaller 0, .addUint 1 4 258] := by
    refine ⟨⟨by rintro i ⟨⟩; decide, ?_⟩, ?_⟩
    · rintro i size ⟨⟩ - m ⟨⟩ h
      exact absurd h (by decide)
    rintro d' ⟨⟩
    refine ⟨⟨by rintro i ⟨⟩; decide, ?_⟩, ?_⟩
    · rintro i size ⟨⟩
    rintro d' ⟨⟩
    refine ⟨⟨by rintro i ⟨⟩; decide, ?_⟩, ?_⟩
    · rintro i size ⟨⟩
    rintro d' ⟨⟩
    refine ⟨⟨by rintro i ⟨⟩; decide, ?_⟩, ?_⟩
    · rintro i size ⟨⟩ - m ⟨⟩ h
      exact absurd h (by decide)
    · intro d' _
      trivial
  obtain ⟨d, he, ht, hlin⟩ := run_linearize_iff _ 64 (fun _ _ => 7) _ (by simp [Op.Builds]) hok
  refine ⟨d, he, ?_⟩
  have hd := he
  cases hd
  exact (hlin 1 (by decide)).mpr fun h => absurd h.1 (by decide)

/-- A root with one item and a submarshaller: the byte of the submarshaller is not returned. -/
theorem not_linearize_one_item : ∃ d,
    run (fun k => 4096 * (k + 1)) (spiceMarshallerNew 64 fun _ _ => 0)
      [.add 0 [1], .getSubmarshaller 0, .add 1 [2]] = some d ∧
    spiceMarshallerLinearize d 0 = ([1], 1) ∧
    message (fun _ _ => 0) [.add 0 [1], .getSubmarshaller 0, .add 1 [2]] = [1, 2] ∧
    spiceMarshallerLinearize d 0 ≠
      (message (fun _ _ => 0) [.add 0 [1], .getSubmarshaller 0, .add 1 [2]],
        (message (fun _ _ => 0) [.add 0 [1], .getSubmarshaller 0, .add 1 [2]]).length) :=
  ⟨_, rfl, by decide, by decide, by decide⟩

/-- Nothing is given back that was reserved, because the totals would not follow. -/
def Op.NoUnreserve : Op → Prop
  | .unreserveSpace _ size => size = 0
  | _ => True

theorem step_inv {op : Op} (hi : Inv d) (hon : op.OnMarshaller d) (hok : op.NoStrayItem d)
    (hun : op.NoUnreserve) : ∃ d', step alloc d op = some d' ∧ Inv d' := by
  have hbuild (hb : op.Builds) : ∃ d', step alloc d op = some d' ∧ Inv d' := by
    obtain ⟨d', he, hw⟩ := step_writes alloc hi hb hon hok
    exact ⟨d', he, hw.inv⟩
  cases op with
  | unreserveSpace i size =>
    refine ⟨d, ?_, hi⟩
    rw [step, spiceMarshallerUnreserveSpace, show size = 0 from hun]
    rfl
  | setBase base =>
    exact ⟨_, rfl, hi.root, hi.position_le, hi.layout, hi.size_eq, hi.totalSize_eq, hi.resolves, hi.apart⟩
  | flush => exact ⟨_, rfl, spiceMarshallerFlush_eq d ▸ hi.setMem _⟩
  | reset => exact ⟨_, rfl, reset_inv hi⟩
  | reserveSpace => exact hbuild trivial
  | add => exact hbuild trivial
  | addUint => exact hbuild trivial
  | addRef => exact hbuild trivial
  | addRefChunks => exact hbuild trivial
  | getSubmarshaller => exact hbuild trivial
  | getPtrSubmarshaller => exact hbuild trivial

theorem run_inv {ops : List Op} (hi : Inv d)
    (hok : Along alloc (fun d op => op.OnMarshaller d ∧ op.NoStrayItem d ∧ op.NoUnreserve) d ops) :
    ∃ d', run alloc d ops = some d' ∧ Inv d' := by
  induction ops generalizing d with
  | nil => exact ⟨d, rfl, hi⟩
  | cons op ops ih =>
    obtain ⟨⟨hon, hstray, hun⟩, hnext⟩ := hok
    obtain ⟨d₁, he, hi₁⟩ := step_inv alloc hi hon hstray hun
    obtain ⟨d₂, he₂, hi₂⟩ := ih hi₁ (hnext d₁ he)
    exact ⟨d₂, by rw [run, he]; exact he₂, hi₂⟩

/-- The entries of the vector cover the message from `skip` on, if there are enough of them. -/
theorem fillIovec_eq (mem : Memory Block) (skip : Nat) {nVec : Nat} {items : List MarshallerItem}
    (hn : items.length ≤ nVec) :
    (fillIovec nVec skip items).flatMap (fun e => mem.read e.1 e.2) = (itemBytes mem items).drop skip := by
  induction items generalizing nVec skip with
  | nil => simp [fillIovec, itemBytes]
  | cons item items ih =>
    have hcons : itemBytes mem (item :: items) = mem.read item.data item.len ++ itemBytes mem items := rfl
    rw [List.length_cons] at hn
    obtain ⟨n, rfl⟩ : ∃ n, nVec = n + 1 := ⟨nVec - 1, by omega⟩
    rw [fillIovec, hcons, List.drop_append, Memory.length_read]
    split
    · rename_i hle
      have hnil : (mem.read item.data item.len).drop skip = [] :=
        List.drop_of_length_le (by rwa [Memory.length_read])
      rw [ih _ (by omega), hnil, List.nil_append]
    · rename_i hlt
      rw [List.flatMap_cons, ih _ (by omega), Memory.read_drop mem item.data (by omega),
        Nat.sub_eq_zero_of_le (by omega)]

theorem sum_fillIovec (mem : Memory Block) (es : List (Loc Block × Nat)) :
    (es.flatMap fun e => mem.read e.1 e.2).length = (es.map (·.2)).sum := by
  simp

theorem Inv.getOffset_eq (h : Inv d) (i : Nat) :
    spiceMarshallerGetOffset d i = .ofNat ((contents d).take i).flatten.length - d.base := by
  rw [spiceMarshallerGetOffset, List.length_flatten, contents, ← List.map_take, List.map_map]
  congr 3
  refine List.map_congr_left fun m hm => ?_
  rw [h.size_eq m (List.mem_of_mem_take hm)]
  exact (length_itemBytes _ _).symm

/-- The sizes that are kept in three places agree with each other and with the message. -/
structure Accounted (d : SpiceMarshallerData) : Prop where
  size : ∀ m ∈ d.marshallers, spiceMarshallerGetSize m = sumLen m.items
  total : spiceMarshallerGetTotalSize d = (d.marshallers.map spiceMarshallerGetSize).sum
  stream : spiceMarshallerGetTotalSize d = (contents d).flatten.length
  iovec : ∀ nVec, (allItems d).length ≤ nVec → ∀ skip,
    ((spiceMarshallerFillIovec d nVec skip).map (·.2)).sum = spiceMarshallerGetTotalSize d - skip ∧
      (spiceMarshallerFillIovec d nVec skip).flatMap (fun e => d.mem.read e.1 e.2) =
        (contents d).flatten.drop skip
  linearized : ∀ skip, skip ≤ spiceMarshallerGetTotalSize d → ¬CutsOff d skip →
    spiceMarshallerLinearize d skip =
      ((contents d).flatten.drop skip, spiceMarshallerGetTotalSize d - skip)
  offset : ∀ i, spiceMarshallerGetOffset d i = .ofNat ((contents d).take i).flatten.length - d.base
  pointers : ∀ j m ref, d.marshallers[j]? = some m → m.pointerRef = some ref → 0 < m.totalSize →
    ∃ p, lookupRef (spiceMarshallerFlush d) ref = some p ∧
      (ref.is64bit ∨ (spiceMarshallerGetOffset d j).toNat < 2 ^ 32 →
        ofLittleEndian ((spiceMarshallerFlush d).mem.read p (pointerSize ref.is64bit)) =
          (spiceMarshallerGetOffset d j).toNat)

theorem Inv.accounted (h : Inv d) : Accounted d where
  size := h.size_eq
  total := h.totalSize_eq
  stream := h.length_flatten.symm
  iovec := by
    intro nVec hn skip
    have hbytes := fillIovec_eq d.mem skip hn
    rw [itemBytes_allItems] at hbytes
    refine ⟨?_, hbytes⟩
    rw [← sum_fillIovec d.mem, spiceMarshallerFillIovec, hbytes, List.length_drop, h.length_flatten]
    rfl
  linearized := by
    intro skip hs hcut
    have hlen := h.length_flatten
    rw [(linearize_eq_iff h (hlen ▸ hs)).mpr hcut, List.length_drop, hlen]
    rfl
  offset := h.getOffset_eq
  pointers := by
    intro j m ref hm hr ht
    obtain ⟨p, hp, hread⟩ := flush_slot h hm hr ht
    refine ⟨p, hp, fun hfit => ?_⟩
    have hoff : spiceMarshallerGetOffset (spiceMarshallerFlush d) j = spiceMarshallerGetOffset d j := by
      rw [spiceMarshallerFlush_eq]
      rfl
    rw [hread, hoff, ofLittleEndian_littleEndian]
    refine Nat.mod_eq_of_lt ?_
    have hlt := (spiceMarshallerGetOffset d j).toNat_lt
    cases hb : ref.is64bit with
    | false => exact hfit.resolve_left (by simp [hb])
    | true => exact hlt

theorem run_accounted (alloc : Nat → Int) (addr : Int) (mem : Memory Block) (ops : List Op)
    (hok : Along alloc (fun d op => op.OnMarshaller d ∧ op.NoStrayItem d ∧ op.NoUnreserve)
      (spiceMarshallerNew addr mem) ops) :
    ∃ d, run alloc (spiceMarshallerNew addr mem) ops = some d ∧ Accounted d := by
  obtain ⟨d, he, hi⟩ := run_inv alloc (new_inv addr mem) hok
  exact ⟨d, he, hi.accounted⟩

theorem run_accounted_pointer : ∃ d,
    run (fun k => 4096 * (k + 1)) (spiceMarshallerNew 64 fun _ _ => 0)
      [.add 0 [1, 2], .getPtrSubmarshaller 0 false, .add 1 [9]] = some d ∧
    Accounted d ∧ (spiceMarshallerFlush d).mem.read ⟨.buffer 0, 2⟩ 4 = [6, 0, 0, 0] := by
  have hok : Along (fun k => 4096 * (k + 1))
      (fun d op => op.OnMarshaller d ∧ op.NoStrayItem d ∧ op.NoUnreserve)
      (spiceMarshallerNew 64 fun _ _ => 0)
      [.add 0 [1, 2], .getPtrSubmarshaller 0 false, .add 1 [9]] := by
    refine ⟨⟨by rintro i ⟨⟩; decide, ?_, trivial⟩, ?_⟩
    · rintro i size ⟨⟩ - m ⟨⟩ h
      exact absurd h (by decide)
    rintro d' ⟨⟩
    refine ⟨⟨by rintro i ⟨⟩; decide, ?_, trivial⟩, ?_⟩
    · rintro i size ⟨⟩ - m ⟨⟩ h
      exact ⟨_, rfl, rfl, rfl⟩
    rintro d' ⟨⟩
    refine ⟨⟨by rintro i ⟨⟩; decide, ?_, trivial⟩, ?_⟩
    · rintro i size ⟨⟩ - m ⟨⟩ h
      exact absurd h (by decide)
    · intro d' _
      trivial
  obtain ⟨d, he, ha⟩ := run_accounted _ 64 (fun _ _ => 0) _ hok
  refine ⟨d, he, ha, ?_⟩
  cases he
  decide

/-- Four of ten reserved bytes are given back, and the totals stay at ten. -/
theorem not_accounted_unreserve : ∃ d,
    run (fun k => 4096 * (k + 1)) (spiceMarshallerNew 64 fun _ _ => 0)
      [.reserveSpace 0 [1, 2, 3, 4, 5, 6, 7, 8, 9, 10], .unreserveSpace 0 4] = some d ∧
    spiceMarshallerGetTotalSize d = 10 ∧ (allItems d).map (·.len) = [6] ∧ ¬Accounted d := by
  refine ⟨_, rfl, rfl, rfl, fun h => ?_⟩
  exact absurd h.stream (by decide)

end Colama.Spice.Marshaller

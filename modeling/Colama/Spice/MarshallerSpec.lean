import Mathlib.Tactic
import Colama.Spice.Marshaller

namespace Colama.Spice.Marshaller

open Lib SpiceMarshallerData

/-- The range lies in what has been handed out so far. -/
def Within (d : SpiceMarshallerData) (p : Loc Block) (len : Nat) : Prop :=
  match p.block with
  | .buffer k => k < d.currentBuffer ∨ (k = d.currentBuffer ∧ p.off + len ≤ d.currentBufferPosition)
  | .own k => k < d.allocs
  | .user _ => True

def Layout (d : SpiceMarshallerData) : Prop := ∀ item ∈ allItems d, Within d item.data item.len

/-- When `spice_marshaller_reserve_space` extends an item, that item ends where the used part of the
current buffer does. `current_buffer_item` is not reset when the array it points into is moved, so
that it may meet an item of another array that has come to lie there. -/
def PiggyBackOk (d : SpiceMarshallerData) (i size : Nat) : Prop :=
  ∀ m, d.marshallers[i]? = some m → d.piggyBacks m size →
    ∃ item, m.items.getLast? = some item ∧ item.data.block = .buffer d.currentBuffer ∧
      item.data.off + item.len = d.currentBufferPosition

/-- The ways in which `size` bytes at `p` are added to the items of a marshaller. -/
inductive Grow (p : Loc Block) (size : Nat) : List MarshallerItem → List MarshallerItem → Prop
  | push (items : List MarshallerItem) : Grow p size items (items ++ [⟨p, size⟩])
  | extend (items : List MarshallerItem) (item : MarshallerItem) :
      p = ⟨item.data.block, item.data.off + item.len⟩ →
      Grow p size (items ++ [item]) (items ++ [{ item with len := item.len + size }])

/-- What a call that adds `size` bytes at `p` to the `i`-th marshaller does. -/
structure Added (d d' : SpiceMarshallerData) (i : Nat) (m m' : SpiceMarshaller) (p : Loc Block)
    (size : Nat) : Prop where
  marshallers_eq : d'.marshallers = d.marshallers.set i m'
  grow : Grow p size m.items m'.items
  size_eq : m'.totalSize = m.totalSize + size
  pointerRef_eq : m'.pointerRef = m.pointerRef
  totalSize_eq : d'.totalSize = d.totalSize + size
  base_eq : d'.base = d.base
  mem_eq : d'.mem = d.mem
  position_le : d'.currentBufferPosition ≤ marshallerBufferSize
  within_mono : ∀ q len, Within d q len → Within d' q len
  within_new : ∀ item ∈ m'.items, item ∈ m.items ∨ Within d' item.data item.len
  within_added : Within d' p size

/-- The bytes are new, so that the caller may write to them. -/
structure Reserved (d d' : SpiceMarshallerData) (i : Nat) (m m' : SpiceMarshaller) (p : Loc Block)
    (size : Nat) : Prop extends Added d d' i m m' p size where
  fresh : ∀ q len, Within d q len → Memory.Disjoint q len p size
  not_user : ∀ k, p.block ≠ .user k

variable (alloc : Nat → Int) {d d' : SpiceMarshallerData} {i size : Nat} {m m' : SpiceMarshaller}

/-- A new item, whatever is done to the array of items to make room for it. -/
theorem addItem_eq (item : MarshallerItem) : ∃ n a c, addItem alloc d i m item =
    (({ d with allocs := c } : SpiceMarshallerData).setMarshaller i
      { m with items := m.items ++ [item], itemsSize := n, itemsAddr := a },
      { m with items := m.items ++ [item], itemsSize := n, itemsAddr := a }) ∧ d.allocs ≤ c := by
  unfold addItem
  split
  · exact ⟨_, _, _, rfl, by simp⟩
  · exact ⟨m.itemsSize, m.itemsAddr, d.allocs, rfl, le_rfl⟩

/-- A new item at `p` is added when what is in use grows from `d` to `d'` by its bytes. -/
theorem Added.of_push {p : Loc Block} {n a}
    (he : d'.marshallers = d.marshallers.set i
      ⟨m.totalSize + size, m.pointerRef, m.items ++ [⟨p, size⟩], n, a⟩)
    (ht : d'.totalSize = d.totalSize + size) (hb : d'.base = d.base) (hmem : d'.mem = d.mem)
    (hpos : d'.currentBufferPosition ≤ marshallerBufferSize)
    (hmono : ∀ q len, Within d q len → Within d' q len) (hnew : Within d' p size) :
    Added d d' i m ⟨m.totalSize + size, m.pointerRef, m.items ++ [⟨p, size⟩], n, a⟩ p size where
  marshallers_eq := he
  grow := .push _
  size_eq := rfl
  pointerRef_eq := rfl
  totalSize_eq := ht
  base_eq := hb
  mem_eq := hmem
  position_le := hpos
  within_mono := hmono
  within_new := by
    intro item hitem
    obtain h | h := List.mem_append.mp hitem
    · exact .inl h
    · rw [List.mem_singleton.mp h]
      exact .inr hnew
  within_added := hnew

theorem within_iff (p : Loc Block) (len : Nat) : Within d p len ↔
    (∀ k, p.block = .buffer k → k < d.currentBuffer ∨
      (k = d.currentBuffer ∧ p.off + len ≤ d.currentBufferPosition)) ∧
    (∀ k, p.block = .own k → k < d.allocs) := by
  obtain ⟨_ | _ | _, off⟩ := p <;> simp [Within]

theorem piggyBack_reserved (hi : i < d.marshallers.length) {init : List MarshallerItem}
    {item : MarshallerItem} (hitems : m.items = init ++ [item])
    (hblock : item.data.block = .buffer d.currentBuffer)
    (hend : item.data.off + item.len = d.currentBufferPosition) (hrem : size ≤ d.remainingBufferSize)
    (hpos : d.currentBufferPosition ≤ marshallerBufferSize) :
    ∃ m', Reserved d
      (({ d.setMarshaller i { m with items := init ++ [{ item with len := item.len + size }] } with
        currentBufferPosition := d.currentBufferPosition + size } : SpiceMarshallerData).addSize i size)
      i m m' ⟨item.data.block, item.data.off + item.len⟩ size := by
  refine ⟨⟨m.totalSize + size, m.pointerRef, init ++ [{ item with len := item.len + size }],
    m.itemsSize, m.itemsAddr⟩, ?_⟩
  have hnew : ∀ q len, Within d q len → Within
      (({ d.setMarshaller i { m with items := init ++ [{ item with len := item.len + size }] } with
        currentBufferPosition := d.currentBufferPosition + size } : SpiceMarshallerData).addSize i size)
      q len := by
    intro q len hq
    rw [within_iff] at hq ⊢
    refine ⟨fun k hk => ?_, hq.2⟩
    have := hq.1 k hk
    simp only [addSize, setMarshaller]
    omega
  exact {
    marshallers_eq := by simp [addSize, setMarshaller, List.modify_eq_set_getElem?, hi]
    grow := hitems ▸ .extend init item rfl
    size_eq := rfl
    pointerRef_eq := rfl
    totalSize_eq := rfl
    base_eq := rfl
    mem_eq := rfl
    position_le := by
      simp only [addSize, setMarshaller]
      unfold remainingBufferSize at hrem
      omega
    within_mono := hnew
    within_new := by
      intro x hx
      obtain h | h := List.mem_append.mp hx
      · exact .inl (hitems ▸ List.mem_append_left _ h)
      · rw [List.mem_singleton.mp h, within_iff]
        right
        simp only [addSize, setMarshaller, hblock, reduceCtorEq, false_imp_iff, implies_true, and_true]
        rintro k ⟨⟩
        exact .inr ⟨rfl, by omega⟩
    within_added := by
      rw [within_iff]
      simp only [addSize, setMarshaller, hblock, reduceCtorEq, false_imp_iff, implies_true, and_true]
      rintro k ⟨⟩
      exact .inr ⟨rfl, by omega⟩
    fresh := by
      intro q len hq he
      rw [within_iff] at hq
      simp only at he
      have := hq.1 d.currentBuffer (he.trans hblock)
      simp only
      omega
    not_user := fun k => by simp [hblock] }

theorem reserveSpace_reserved (hm : d.marshallers[i]? = some m) (hs : size ≠ 0)
    (hpos : d.currentBufferPosition ≤ marshallerBufferSize) (hok : PiggyBackOk d i size) :
    ∃ d' p m', spiceMarshallerReserveSpace alloc d i size = some (d', some p) ∧
      Reserved d d' i m m' p size := by
  obtain ⟨hi, -⟩ := List.getElem?_eq_some_iff.mp hm
  unfold spiceMarshallerReserveSpace
  simp only [if_neg hs, hm, Option.bind_eq_bind, Option.bind_some, Option.pure_def]
  split
  · rename_i hp
    obtain ⟨item, hlast, hblock, hend⟩ := hok m hm hp
    obtain ⟨init, hinit⟩ := List.getLast?_eq_some_iff.mp hlast
    rw [piggyBacks, Bool.and_eq_true, decide_eq_true_eq, decide_eq_true_eq] at hp
    obtain ⟨m', hr⟩ := piggyBack_reserved hi hinit hblock hend hp.2 hpos
    rw [hlast, hinit, List.dropLast_concat]
    exact ⟨_, _, m', rfl, hr⟩
  split
  · rename_i hrem
    obtain ⟨n, a, c, he, hc⟩ := addItem_eq alloc (d := d) (i := i) (m := m)
      ⟨⟨.buffer d.currentBuffer, d.currentBufferPosition⟩, size⟩
    rw [he]
    refine ⟨_, _, _, rfl, ⟨.of_push (n := n) (a := a) ?_ rfl rfl rfl ?_ ?_ ?_, ?_, by simp⟩⟩
    · simp [addSize, setMarshaller, List.modify_eq_set_getElem?, hi]
    · simp only [addSize, setMarshaller]
      unfold remainingBufferSize at hrem
      omega
    · intro q len hq
      rw [within_iff] at hq ⊢
      simp only [addSize, setMarshaller]
      exact ⟨fun k hk => by have := hq.1 k hk; omega, fun k hk => by have := hq.2 k hk; omega⟩
    · simp [Within, addSize, setMarshaller]
    · intro q len hq he
      rw [within_iff] at hq
      have := hq.1 d.currentBuffer he
      simp only
      omega
  split
  · obtain ⟨n, a, c, he, hc⟩ := addItem_eq alloc (d := { d with allocs := d.allocs + 1 })
      (i := i) (m := m) ⟨⟨.own d.allocs, 0⟩, size⟩
    rw [he]
    simp only at hc
    refine ⟨_, _, _, rfl, ⟨.of_push (n := n) (a := a) ?_ rfl rfl rfl ?_ ?_ ?_, ?_, by simp⟩⟩
    · simp [addSize, setMarshaller, List.modify_eq_set_getElem?, hi]
    · exact hpos
    · intro q len hq
      rw [within_iff] at hq ⊢
      simp only [addSize, setMarshaller]
      exact ⟨hq.1, fun k hk => by have := hq.2 k hk; omega⟩
    · simp only [Within, addSize, setMarshaller]
      omega
    · intro q len hq he
      rw [within_iff] at hq
      have := hq.2 d.allocs he
      omega
  · rename_i hhalf
    obtain ⟨n, a, c, he, hc⟩ := addItem_eq alloc (d := d) (i := i) (m := m)
      ⟨⟨.buffer (d.currentBuffer + 1), 0⟩, size⟩
    rw [he]
    refine ⟨_, _, _, rfl, ⟨.of_push (n := n) (a := a) ?_ rfl rfl rfl ?_ ?_ ?_, ?_, by simp⟩⟩
    · simp [addSize, setMarshaller, List.modify_eq_set_getElem?, hi]
    · simp only [addSize, setMarshaller]
      omega
    · intro q len hq
      rw [within_iff] at hq ⊢
      simp only [addSize, setMarshaller]
      exact ⟨fun k hk => by have := hq.1 k hk; omega, fun k hk => by have := hq.2 k hk; omega⟩
    · simp [Within, addSize, setMarshaller]
    · intro q len hq he
      rw [within_iff] at hq
      have := hq.1 (d.currentBuffer + 1) he
      omega

/-- The bytes of a marshaller, in the order of its items. -/
def itemBytes (mem : Memory Block) (items : List MarshallerItem) : List UInt8 :=
  items.flatMap fun item => mem.read item.data item.len

/-- The bytes of each marshaller, in creation order. -/
def contents (d : SpiceMarshallerData) : List (List UInt8) :=
  d.marshallers.map fun m => itemBytes d.mem m.items

theorem itemBytes_append (mem : Memory Block) (a b : List MarshallerItem) :
    itemBytes mem (a ++ b) = itemBytes mem a ++ itemBytes mem b := List.flatMap_append

theorem itemBytes_congr {mem mem' : Memory Block} {items : List MarshallerItem}
    (h : ∀ item ∈ items, mem'.read item.data item.len = mem.read item.data item.len) :
    itemBytes mem' items = itemBytes mem items := by
  rw [itemBytes, itemBytes]
  exact List.flatMap_congr h

/-- Bytes written to a reserved range end up behind those of the marshaller it is reserved for. -/
theorem Grow.itemBytes {p : Loc Block} {bytes : List UInt8} {items items' : List MarshallerItem}
    {mem : Memory Block} (h : Grow p bytes.length items items')
    (hframe : ∀ item ∈ items, Memory.Disjoint item.data item.len p bytes.length) :
    itemBytes (mem.write p bytes) items' = itemBytes mem items ++ bytes := by
  have hold : ∀ l, (∀ item ∈ l, Memory.Disjoint item.data item.len p bytes.length) →
      Marshaller.itemBytes (mem.write p bytes) l = Marshaller.itemBytes mem l := fun l hl =>
    itemBytes_congr fun item hitem => Memory.read_write_of_disjoint mem (hl item hitem).symm
  cases h with
  | push =>
    rw [itemBytes_append, hold items hframe]
    simp [Marshaller.itemBytes]
  | extend init item hp =>
    have hi := hold init fun x hx => hframe x (List.mem_append_left _ hx)
    have hl := hold [item] fun x hx => hframe x (List.mem_append_right _ hx)
    simp only [Marshaller.itemBytes, List.flatMap_cons, List.flatMap_nil, List.append_nil] at hl
    rw [itemBytes_append, itemBytes_append, hi, List.append_assoc]
    congr 1
    simp only [Marshaller.itemBytes, List.flatMap_cons, List.flatMap_nil, List.append_nil]
    rw [Memory.read_add, hl, ← hp, Memory.read_write]

theorem Reserved.contents_write {p : Loc Block} {bytes : List UInt8} (hm : d.marshallers[i]? = some m)
    (h : Reserved d d' i m m' p bytes.length) (hl : Layout d) :
    contents { d' with mem := d'.mem.write p bytes } = (contents d).modify i (· ++ bytes) := by
  have hframe : ∀ m ∈ d.marshallers, ∀ item ∈ m.items,
      Memory.Disjoint item.data item.len p bytes.length := fun m hm item hitem =>
    h.fresh _ _ (hl item (List.mem_flatMap.mpr ⟨m, hm, hitem⟩))
  have hmap : d.marshallers.map (fun m => itemBytes (d.mem.write p bytes) m.items) = contents d :=
    List.map_congr_left fun m hm => itemBytes_congr fun item hitem =>
      Memory.read_write_of_disjoint _ (hframe m hm item hitem).symm
  obtain ⟨hi, rfl⟩ := List.getElem?_eq_some_iff.mp hm
  simp only [contents, h.marshallers_eq, h.mem_eq, List.map_set]
  rw [h.grow.itemBytes (hframe _ (List.getElem_mem hi)), hmap, List.modify_eq_set_getElem?]
  simp [contents, hi]

theorem Added.layout {p : Loc Block} (hm : d.marshallers[i]? = some m)
    (h : Added d d' i m m' p size) (hl : Layout d) : Layout d' := by
  intro item hitem
  obtain ⟨x, hx, hitem⟩ := List.mem_flatMap.mp hitem
  rw [h.marshallers_eq] at hx
  obtain hx | rfl := List.mem_or_eq_of_mem_set hx
  · exact h.within_mono _ _ (hl item (List.mem_flatMap.mpr ⟨x, hx, hitem⟩))
  · obtain hold | hnew := h.within_new item hitem
    · exact h.within_mono _ _ (hl item (List.mem_flatMap.mpr ⟨m, List.mem_of_getElem? hm, hold⟩))
    · exact hnew

def sumLen (items : List MarshallerItem) : Nat := (items.map (·.len)).sum

/-- The pointer slots that wait for the offset of a submarshaller. -/
def pointerRefs (d : SpiceMarshallerData) : List MarshallerRef := d.marshallers.filterMap (·.pointerRef)

/-- Two slots have no byte in common. -/
def Apart (d : SpiceMarshallerData) (r r' : MarshallerRef) : Prop :=
  ∀ p p', lookupRef d r = some p → lookupRef d r' = some p' →
    Memory.Disjoint p (pointerSize r.is64bit) p' (pointerSize r'.is64bit)

/-- What holds of the data of a marshaller between two calls. -/
structure Inv (d : SpiceMarshallerData) : Prop where
  root : ∃ m ms, d.marshallers = m :: ms ∧ m.pointerRef = none
  position_le : d.currentBufferPosition ≤ marshallerBufferSize
  layout : Layout d
  size_eq : ∀ m ∈ d.marshallers, m.totalSize = sumLen m.items
  totalSize_eq : d.totalSize = (d.marshallers.map (·.totalSize)).sum
  resolves : ∀ r ∈ pointerRefs d, ∃ p, lookupRef d r = some p ∧ Within d p (pointerSize r.is64bit)
  apart : (pointerRefs d).Pairwise (Apart d)

theorem sum_map_set {l : List SpiceMarshaller} (f : SpiceMarshaller → Nat) (hm : l[i]? = some m)
    (h : f m' = f m + size) : ((l.set i m').map f).sum = (l.map f).sum + size := by
  induction l generalizing i with
  | nil => cases hm
  | cons x l ih =>
    cases i with
    | zero =>
      cases hm
      simp only [List.set_cons_zero, List.map_cons, List.sum_cons, h]
      omega
    | succ i =>
      simp only [List.set_cons_succ, List.map_cons, List.sum_cons, ih hm]
      omega

theorem Grow.sumLen {p : Loc Block} {items items' : List MarshallerItem} (h : Grow p size items items') :
    sumLen items' = sumLen items + size := by
  cases h with
  | push => simp [Marshaller.sumLen]
  | extend =>
    simp [Marshaller.sumLen]
    omega

/-- An item keeps its place when others are added or it is extended itself. -/
theorem Grow.getElem? {p : Loc Block} {items items' : List MarshallerItem} {k : Nat}
    {item : MarshallerItem} (h : Grow p size items items') (hk : items[k]? = some item) :
    ∃ item', items'[k]? = some item' ∧ item'.data = item.data := by
  obtain ⟨hlt, rfl⟩ := List.getElem?_eq_some_iff.mp hk
  cases h with
  | push => exact ⟨_, by rw [List.getElem?_append_left hlt, hk], rfl⟩
  | extend init last _ =>
    by_cases hi : k < init.length
    · refine ⟨_, by rw [List.getElem?_append_left hi, List.getElem?_eq_getElem hi], ?_⟩
      rw [List.getElem_append_left hi]
    · obtain rfl : k = init.length := by
        rw [List.length_append, List.length_singleton] at hlt
        omega
      simp

theorem lookupRef_set {ref : MarshallerRef} {q : Loc Block} {p : Loc Block}
    (hm : d.marshallers[i]? = some m) (hms : d'.marshallers = d.marshallers.set i m')
    (hg : Grow p size m.items m'.items) (h : lookupRef d ref = some q) : lookupRef d' ref = some q := by
  obtain ⟨hi, -⟩ := List.getElem?_eq_some_iff.mp hm
  simp only [lookupRef, Option.bind_eq_bind, Option.bind_eq_some_iff, Option.pure_def,
    Option.some.injEq] at h ⊢
  obtain ⟨x, hx, item, hitem, rfl⟩ := h
  rw [hms]
  by_cases he : i = ref.marshaller
  · subst he
    obtain rfl : m = x := by rw [hm] at hx; exact Option.some.inj hx
    obtain ⟨item', hitem', hdata⟩ := hg.getElem? hitem
    exact ⟨m', by rw [List.getElem?_set_self hi], item', hitem', by rw [hdata]⟩
  · exact ⟨x, by rw [List.getElem?_set_ne he, hx], item, hitem, rfl⟩

theorem filterMap_set {l : List SpiceMarshaller} (hm : l[i]? = some m)
    (h : m'.pointerRef = m.pointerRef) :
    (l.set i m').filterMap (·.pointerRef) = l.filterMap (·.pointerRef) := by
  induction l generalizing i with
  | nil => rfl
  | cons x l ih =>
    cases i with
    | zero =>
      cases hm
      simp only [List.set_cons_zero, List.filterMap_cons, h]
    | succ i => simp only [List.set_cons_succ, List.filterMap_cons, ih hm]

theorem Inv.apart_of_keeps (h : Inv d) (hrefs : pointerRefs d' = pointerRefs d)
    (hk : ∀ r q, lookupRef d r = some q → lookupRef d' r = some q) :
    (pointerRefs d').Pairwise (Apart d') := by
  rw [hrefs]
  refine h.apart.imp_of_mem fun {r r'} hr hr' hap p p' hp hp' => ?_
  obtain ⟨q, hq, -⟩ := h.resolves r hr
  obtain ⟨q', hq', -⟩ := h.resolves r' hr'
  rw [hk r q hq, Option.some.injEq] at hp
  rw [hk r' q' hq', Option.some.injEq] at hp'
  exact hap p p' (hp ▸ hq) (hp' ▸ hq')

theorem Added.pointerRefs_eq {p : Loc Block} (hm : d.marshallers[i]? = some m)
    (h : Added d d' i m m' p size) : pointerRefs d' = pointerRefs d := by
  rw [pointerRefs, h.marshallers_eq, filterMap_set hm h.pointerRef_eq, pointerRefs]

theorem Added.lookupRef_eq {p : Loc Block} (hm : d.marshallers[i]? = some m)
    (h : Added d d' i m m' p size) (r : MarshallerRef) (q : Loc Block) (hq : lookupRef d r = some q) :
    lookupRef d' r = some q :=
  lookupRef_set hm h.marshallers_eq h.grow hq

theorem Added.inv {p : Loc Block} (hm : d.marshallers[i]? = some m)
    (h : Added d d' i m m' p size) (hi : Inv d) : Inv d' := by
  have hkeep := h.lookupRef_eq hm
  have hrefs := h.pointerRefs_eq hm
  exact {
    root := by
      obtain ⟨r, ms, hr, hnone⟩ := hi.root
      rw [h.marshallers_eq, hr]
      cases i with
      | zero =>
        rw [hr] at hm
        cases hm
        exact ⟨m', ms, rfl, by rw [h.pointerRef_eq, hnone]⟩
      | succ i => exact ⟨r, ms.set i m', rfl, hnone⟩
    position_le := h.position_le
    layout := h.layout hm hi.layout
    size_eq := by
      intro x hx
      rw [h.marshallers_eq] at hx
      obtain hx | rfl := List.mem_or_eq_of_mem_set hx
      · exact hi.size_eq x hx
      · rw [h.size_eq, h.grow.sumLen, hi.size_eq m (List.mem_of_getElem? hm)]
    totalSize_eq := by
      rw [h.totalSize_eq, h.marshallers_eq, sum_map_set _ hm h.size_eq, hi.totalSize_eq]
    resolves := by
      intro r hr
      rw [hrefs] at hr
      obtain ⟨q, hq, hw⟩ := hi.resolves r hr
      exact ⟨q, hkeep r q hq, h.within_mono _ _ hw⟩
    apart := hi.apart_of_keeps hrefs hkeep }

/-- The invariant says nothing about the bytes in memory. -/
theorem Inv.setMem (h : Inv d) (mem : Memory Block) : Inv { d with mem } :=
  ⟨h.root, h.position_le, h.layout, h.size_eq, h.totalSize_eq, h.resolves, h.apart⟩

theorem reserveAndWrite_reserved {bytes : List UInt8} (hi : Inv d) (hm : d.marshallers[i]? = some m)
    (hb : bytes ≠ []) (hok : PiggyBackOk d i bytes.length) :
    ∃ d' m' p, reserveAndWrite alloc d i bytes = some { d' with mem := d'.mem.write p bytes } ∧
      Reserved d d' i m m' p bytes.length := by
  obtain ⟨d', p, m', he, hr⟩ := reserveSpace_reserved alloc hm
    (List.length_pos_of_ne_nil hb).ne' hi.position_le hok
  refine ⟨d', m', p, ?_, hr⟩
  rw [reserveAndWrite, he]
  rfl

/-- What a step of the marshaller does to the bytes of the marshallers, without any layout. -/
structure Writes (d d' : SpiceMarshallerData) (cs : List (List UInt8)) : Prop where
  inv : Inv d'
  contents_eq : contents d' = cs
  user_eq : ∀ k, d'.mem (.user k) = d.mem (.user k)

theorem modify_append_nil {α : Type} (l : List (List α)) (i : Nat) : l.modify i (· ++ []) = l := by
  simp only [List.append_nil]
  exact List.modify_id i l

theorem reserveAndWrite_writes {bytes : List UInt8} (hi : Inv d) (hm : d.marshallers[i]? = some m)
    (hok : bytes ≠ [] → PiggyBackOk d i bytes.length) :
    ∃ d', reserveAndWrite alloc d i bytes = some d' ∧
      Writes d d' ((contents d).modify i (· ++ bytes)) := by
  by_cases hb : bytes = []
  · subst hb
    exact ⟨d, rfl, hi, (modify_append_nil _ _).symm, fun _ => rfl⟩
  · obtain ⟨d', m', p, he, hr⟩ := reserveAndWrite_reserved alloc hi hm hb (hok hb)
    refine ⟨_, he, (hr.inv hm hi).setMem _, hr.contents_write hm hi.layout, fun k => ?_⟩
    simp only [Memory.write, hr.mem_eq]
    rw [Function.update_of_ne (hr.not_user k).symm]

/-- The bytes that a reference stands for. -/
def UserData.bytes (user : Nat → Nat → UInt8) (u : UserData) : List UInt8 :=
  match u.data with
  | none => []
  | some (k, off) => Memory.readFrom (user k) off u.size

theorem addRefFull_writes (hi : Inv d) (hm : d.marshallers[i]? = some m) (u : UserData) :
    ∃ d', spiceMarshallerAddRefFull alloc d i u = some d' ∧
      Writes d d' ((contents d).modify i (· ++ u.bytes fun k => d.mem (.user k))) := by
  obtain ⟨hlt, -⟩ := List.getElem?_eq_some_iff.mp hm
  obtain ⟨data, size⟩ := u
  cases data with
  | none =>
    refine ⟨d, ?_, hi, (modify_append_nil _ _).symm, fun _ => rfl⟩
    simp [spiceMarshallerAddRefFull, hm]
  | some ko =>
    obtain ⟨k, off⟩ := ko
    by_cases hs : size = 0
    · subst hs
      refine ⟨d, ?_, hi, (modify_append_nil _ _).symm, fun _ => rfl⟩
      simp [spiceMarshallerAddRefFull, hm]
    · obtain ⟨n, a, c, he, hc⟩ := addItem_eq alloc (d := d) (i := i) (m := m)
        ⟨⟨.user k, off⟩, size⟩
      have hadd : Added d ((({ d with allocs := c } : SpiceMarshallerData).setMarshaller i
          ⟨m.totalSize, m.pointerRef, m.items ++ [⟨⟨.user k, off⟩, size⟩], n, a⟩).addSize i size) i m
          ⟨m.totalSize + size, m.pointerRef, m.items ++ [⟨⟨.user k, off⟩, size⟩], n, a⟩
          ⟨.user k, off⟩ size := by
        refine .of_push ?_ rfl rfl rfl hi.position_le ?_ trivial
        · simp [addSize, setMarshaller, List.modify_eq_set_getElem?, hlt]
        · intro q len hq
          rw [within_iff] at hq ⊢
          simp only [addSize, setMarshaller]
          exact ⟨hq.1, fun k hk => by have := hq.2 k hk; omega⟩
      refine ⟨_, ?_, hadd.inv hm hi, ?_, fun _ => rfl⟩
      · simp only [spiceMarshallerAddRefFull, hm, Option.bind_eq_bind, Option.bind_some, if_neg hs, he,
          Option.pure_def]
      · obtain ⟨hlt, rfl⟩ := List.getElem?_eq_some_iff.mp hm
        rw [contents, hadd.marshallers_eq, hadd.mem_eq, List.map_set, itemBytes_append,
          List.modify_eq_set_getElem?]
        simp [contents, hlt, itemBytes, UserData.bytes, Memory.read]

theorem addRefChunks_writes (hi : Inv d) (hm : d.marshallers[i]? = some m) (us : List UserData) :
    ∃ d', spiceMarshallerAddRefChunks alloc d i us = some d' ∧
      Writes d d' ((contents d).modify i (· ++ us.flatMap (·.bytes fun k => d.mem (.user k)))) := by
  induction us generalizing d m with
  | nil => exact ⟨d, rfl, hi, (modify_append_nil _ _).symm, fun _ => rfl⟩
  | cons u us ih =>
    obtain ⟨d₁, he₁, hw₁⟩ := addRefFull_writes alloc hi hm u
    obtain ⟨m₁, hm₁⟩ : ∃ m₁, d₁.marshallers[i]? = some m₁ := by
      have hlen := congrArg List.length hw₁.contents_eq
      simp only [contents, List.length_map, List.length_modify] at hlen
      obtain ⟨hlt, -⟩ := List.getElem?_eq_some_iff.mp hm
      exact ⟨_, List.getElem?_eq_getElem (hlen ▸ hlt)⟩
    obtain ⟨d₂, he₂, hw₂⟩ := ih hw₁.inv hm₁
    refine ⟨d₂, ?_, hw₂.inv, ?_, fun k => (hw₂.user_eq k).trans (hw₁.user_eq k)⟩
    · rw [spiceMarshallerAddRefChunks, spiceMarshallerAddRef, he₁]
      exact he₂
    · rw [hw₂.contents_eq, hw₁.contents_eq, List.modify_modify_eq, List.flatMap_cons]
      simp only [hw₁.user_eq]
      congr 1
      funext x
      simp

theorem lookupRef_append {ref : MarshallerRef} {q : Loc Block} {ms : List SpiceMarshaller}
    (hms : d'.marshallers = d.marshallers ++ ms) (h : lookupRef d ref = some q) :
    lookupRef d' ref = some q := by
  simp only [lookupRef, Option.bind_eq_bind, Option.bind_eq_some_iff] at h ⊢
  obtain ⟨x, hx, h⟩ := h
  obtain ⟨hlt, -⟩ := List.getElem?_eq_some_iff.mp hx
  exact ⟨x, by rw [hms, List.getElem?_append_left hlt, hx], h⟩

/-- A new empty marshaller, whose slot, if it has one, is apart from the others. -/
theorem Inv.append {alloc : Nat → Int} {ref : Option MarshallerRef} (h : Inv d) (hd : d' = appendMarshaller alloc d ref)
    (hres : ∀ r ∈ ref, ∃ p, lookupRef d' r = some p ∧ Within d' p (pointerSize r.is64bit))
    (hap : ∀ r ∈ ref, ∀ r' ∈ pointerRefs d, Apart d' r' r) : Inv d' := by
  have hms : d'.marshallers =
      d.marshallers ++ [{ spiceMarshallerInit (alloc d.allocs) with pointerRef := ref }] := by
    rw [hd]
    rfl
  have hkeep : ∀ r q, lookupRef d r = some q → lookupRef d' r = some q :=
    fun r q => lookupRef_append hms
  have hmono : ∀ q len, Within d q len → Within d' q len := by
    intro q len hq
    rw [within_iff] at hq ⊢
    rw [hd]
    exact ⟨hq.1, fun k hk => Nat.lt_succ_of_lt (hq.2 k hk)⟩
  have hrefs : pointerRefs d' = pointerRefs d ++ ref.toList := by
    rw [pointerRefs, hms, List.filterMap_append, pointerRefs]
    cases ref <;> rfl
  exact {
    root := by
      obtain ⟨r, ms, hr, hnone⟩ := h.root
      exact ⟨r, _, by rw [hms, hr, List.cons_append], hnone⟩
    position_le := by rw [hd]; exact h.position_le
    layout := by
      intro item hitem
      refine hmono _ _ (h.layout item ?_)
      rw [allItems, hms, List.flatMap_append] at hitem
      simpa [allItems, spiceMarshallerInit] using hitem
    size_eq := by
      intro x hx
      rw [hms] at hx
      obtain hx | hx := List.mem_append.mp hx
      · exact h.size_eq x hx
      · rw [List.mem_singleton.mp hx]
        rfl
    totalSize_eq := by
      rw [hms, List.map_append, List.sum_append, ← h.totalSize_eq, hd]
      rfl
    resolves := by
      intro r hr
      rw [hrefs] at hr
      obtain hr | hr := List.mem_append.mp hr
      · obtain ⟨q, hq, hw⟩ := h.resolves r hr
        exact ⟨q, hkeep r q hq, hmono _ _ hw⟩
      · exact hres r (Option.mem_toList.mp hr)
    apart := by
      rw [hrefs, List.pairwise_append]
      refine ⟨?_, ?_, fun r hr r' hr' => hap r' (Option.mem_toList.mp hr') r hr⟩
      · refine h.apart.imp_of_mem fun {r r'} hr hr' hap p p' hp hp' => ?_
        obtain ⟨q, hq, -⟩ := h.resolves r hr
        obtain ⟨q', hq', -⟩ := h.resolves r' hr'
        rw [hkeep r q hq, Option.some.injEq] at hp
        rw [hkeep r' q' hq', Option.some.injEq] at hp'
        exact hap p p' (hp ▸ hq) (hp' ▸ hq')
      · cases ref <;> simp }

theorem contents_appendMarshaller (d : SpiceMarshallerData) (ref : Option MarshallerRef) :
    contents (appendMarshaller alloc d ref) = contents d ++ [[]] := by
  simp [contents, appendMarshaller, spiceMarshallerInit, itemBytes]

theorem getSubmarshaller_writes (h : Inv d) :
    Writes d (spiceMarshallerGetSubmarshaller alloc d) (contents d ++ [[]]) := by
  refine ⟨h.append rfl ?_ ?_, contents_appendMarshaller alloc d none, fun _ => rfl⟩
  · rintro r ⟨⟩
  · rintro r ⟨⟩

/-- After a reservation the last item ends with the reserved bytes. -/
theorem Grow.getLast? {p : Loc Block} {items items' : List MarshallerItem} (h : Grow p size items items') :
    ∃ item, items'.getLast? = some item ∧
      p = ⟨item.data.block, item.data.off + (item.len - size)⟩ := by
  cases h with
  | push => exact ⟨_, List.getLast?_concat, by simp⟩
  | extend init item hp => exact ⟨_, List.getLast?_concat, by simpa using hp⟩

theorem getPtrSubmarshaller_writes (hi : Inv d) (hm : d.marshallers[i]? = some m) (is64bit : Bool)
    (hok : PiggyBackOk d i (pointerSize is64bit)) :
    ∃ d', spiceMarshallerGetPtrSubmarshaller alloc d i is64bit = some d' ∧
      Writes d d' ((contents d).modify i (· ++ List.replicate (pointerSize is64bit) 0) ++ [[]]) := by
  have hne : List.replicate (pointerSize is64bit) (0 : UInt8) ≠ [] := by cases is64bit <;> decide
  obtain ⟨d₁, m₁, p, he, hr⟩ := reserveAndWrite_reserved alloc hi hm hne
    (by rwa [List.length_replicate])
  have hc := hr.contents_write hm hi.layout
  have hinv := (hr.inv hm hi).setMem (d₁.mem.write p (List.replicate (pointerSize is64bit) 0))
  rw [List.length_replicate] at hr
  obtain ⟨hlt, -⟩ := List.getElem?_eq_some_iff.mp hm
  have hm₁ : d₁.marshallers[i]? = some m₁ := by rw [hr.marshallers_eq, List.getElem?_set_self hlt]
  obtain ⟨item, hlast, hp⟩ := hr.grow.getLast?
  have hlast' : m₁.items[m₁.items.length - 1]? = some item := by
    rw [← List.getLast?_eq_getElem?, hlast]
  set d₂ : SpiceMarshallerData := { d₁ with mem := d₁.mem.write p (List.replicate (pointerSize is64bit) 0) }
  set ref : MarshallerRef := ⟨i, m₁.items.length - 1, is64bit, item.len - pointerSize is64bit⟩
  have hlookup : lookupRef (appendMarshaller alloc d₂ (some ref)) ref = some p := by
    refine lookupRef_append rfl ?_
    rw [lookupRef, show d₂.marshallers[ref.marshaller]? = some m₁ from hm₁]
    simp only [Option.bind_eq_bind, Option.bind_some, ref, hlast', Option.pure_def, ← hp]
  have hwithin : Within (appendMarshaller alloc d₂ (some ref)) p (pointerSize is64bit) := by
    have := hr.within_added
    rw [within_iff] at this ⊢
    exact ⟨this.1, fun k hk => Nat.lt_succ_of_lt (this.2 k hk)⟩
  refine ⟨appendMarshaller alloc d₂ (some ref), ?_, hinv.append rfl ?_ ?_, ?_, fun k => ?_⟩
  · rw [spiceMarshallerGetPtrSubmarshaller, he]
    simp only [Option.bind_eq_bind, Option.bind_some]
    rw [show d₂.marshallers[i]? = some m₁ from hm₁]
    simp only [Option.bind_some, hlast, Option.pure_def]
    rfl
  · rintro r ⟨⟩
    exact ⟨p, hlookup, hwithin⟩
  · rintro r ⟨⟩ r' hr' q q' hq hq'
    rw [hlookup, Option.some.injEq] at hq'
    subst hq'
    have hrefs := hr.toAdded.pointerRefs_eq hm
    rw [show pointerRefs d₂ = pointerRefs d₁ from rfl, hrefs] at hr'
    obtain ⟨q₀, hq₀, hw⟩ := hi.resolves r' hr'
    have hkeep := hr.toAdded.lookupRef_eq hm r' q₀ hq₀
    rw [lookupRef_append rfl (show lookupRef d₂ r' = some q₀ from hkeep), Option.some.injEq] at hq
    exact hq ▸ hr.fresh q₀ _ hw
  · rw [contents_appendMarshaller, hc]
  · simp only [appendMarshaller, d₂, Memory.write, hr.mem_eq]
    rw [Function.update_of_ne (hr.not_user k).symm]

theorem reset_inv (h : Inv d) : Inv (spiceMarshallerReset d) := by
  obtain ⟨r, ms, hr, hnone⟩ := h.root
  have hms : (spiceMarshallerReset d).marshallers = [{ r with items := [], totalSize := 0 }] := by
    simp [spiceMarshallerReset, hr]
  have hrefs : pointerRefs (spiceMarshallerReset d) = [] := by
    simp [pointerRefs, hms, hnone]
  exact {
    root := ⟨_, [], hms, hnone⟩
    position_le := Nat.zero_le _
    layout := by
      intro item hitem
      rw [allItems, hms] at hitem
      simp at hitem
    size_eq := by
      intro m hm
      rw [hms, List.mem_singleton] at hm
      rw [hm]
      rfl
    totalSize_eq := by
      rw [hms]
      rfl
    resolves := by
      rw [hrefs]
      simp
    apart := by
      rw [hrefs]
      exact .nil }

/-- The store that the loop of `spice_marshaller_flush` makes for the `i`-th marshaller. -/
def pointerStore (d : SpiceMarshallerData) (i : Nat) (m : SpiceMarshaller) :
    Option (Loc Block × List UInt8) := do
  let ref ← m.pointerRef
  if m.totalSize > 0 then
    let p ← lookupRef d ref
    return (p, littleEndian (spiceMarshallerGetOffset d i).toNat (pointerSize ref.is64bit))
  else none

@[grind] def pointerStores (d : SpiceMarshallerData) (i : Nat) : List SpiceMarshaller → List (Loc Block × List UInt8)
  | [] => []
  | m :: ms => (pointerStore d i m).toList ++ pointerStores d (i + 1) ms

theorem flushPointer_eq (d : SpiceMarshallerData) (i : Nat) (m : SpiceMarshaller) :
    flushPointer d i m = { d with mem := d.mem.writeAll (pointerStore d i m).toList } := by
  unfold flushPointer pointerStore
  cases m.pointerRef with
  | none => rfl
  | some ref =>
    simp only [Option.bind_eq_bind, Option.bind_some]
    split
    · cases lookupRef d ref <;> rfl
    · rfl

theorem pointerStores_setMem (d : SpiceMarshallerData) (mem : Memory Block) (i : Nat)
    (ms : List SpiceMarshaller) : pointerStores { d with mem } i ms = pointerStores d i ms := by
  induction ms generalizing i with
  | nil => rfl
  | cons m ms ih =>
    rw [pointerStores, pointerStores, ih]
    rfl

theorem flushFrom_eq (d : SpiceMarshallerData) (i : Nat) (ms : List SpiceMarshaller) :
    flushFrom d i ms = { d with mem := d.mem.writeAll (pointerStores d i ms) } := by
  induction ms generalizing d i with
  | nil => rfl
  | cons m ms ih =>
    rw [flushFrom, ih, flushPointer_eq, pointerStores_setMem, pointerStores]
    simp only [Memory.writeAll, List.foldl_append]

theorem spiceMarshallerFlush_eq (d : SpiceMarshallerData) :
    spiceMarshallerFlush d = { d with mem := d.mem.writeAll (pointerStores d 0 d.marshallers) } :=
  flushFrom_eq d 0 d.marshallers

/-- A store goes to the slot of a reference, and has the size of the slot. -/
theorem mem_pointerStore {w : Loc Block × List UInt8} (hw : w ∈ (pointerStore d i m).toList) :
    ∃ ref, m.pointerRef = some ref ∧ lookupRef d ref = some w.1 ∧
      w.2.length = pointerSize ref.is64bit := by
  rw [Option.mem_toList, pointerStore] at hw
  simp only [Option.bind_eq_bind, Option.bind_eq_some_iff] at hw
  obtain ⟨ref, href, hw⟩ := hw
  split at hw
  · obtain ⟨p, hp, hw⟩ := Option.bind_eq_some_iff.mp hw
    obtain rfl := Option.some.inj hw
    exact ⟨ref, href, hp, length_littleEndian _ _⟩
  · cases hw

theorem mem_pointerStores {w : Loc Block × List UInt8} {ms : List SpiceMarshaller}
    (hw : w ∈ pointerStores d i ms) : ∃ ref ∈ ms.filterMap (·.pointerRef),
      lookupRef d ref = some w.1 ∧ w.2.length = pointerSize ref.is64bit := by
  induction ms generalizing i with
  | nil => cases hw
  | cons m ms ih =>
    rw [pointerStores] at hw
    obtain hw | hw := List.mem_append.mp hw
    · obtain ⟨ref, href, h⟩ := mem_pointerStore hw
      exact ⟨ref, List.mem_filterMap.mpr ⟨m, .head _, href⟩, h⟩
    · obtain ⟨ref, href, h⟩ := ih hw
      exact ⟨ref, List.mem_filterMap.mpr (by
        obtain ⟨x, hx, hr⟩ := List.mem_filterMap.mp href
        exact ⟨x, .tail _ hx, hr⟩), h⟩

theorem pairwise_pointerStores {ms : List SpiceMarshaller}
    (h : (ms.filterMap (·.pointerRef)).Pairwise (Apart d)) :
    (pointerStores d i ms).Pairwise fun w w' => Memory.Disjoint w.1 w.2.length w'.1 w'.2.length := by
  induction ms generalizing i with
  | nil => exact .nil
  | cons m ms ih =>
    rw [pointerStores, List.pairwise_append]
    have htail : (ms.filterMap (·.pointerRef)).Pairwise (Apart d) := by
      rw [List.filterMap_cons] at h
      split at h
      · exact h
      · exact (List.pairwise_cons.mp h).2
    refine ⟨?_, ih htail, ?_⟩
    · cases pointerStore d i m <;> simp
    · intro w hw w' hw'
      obtain ⟨ref, href, hp, hl⟩ := mem_pointerStore hw
      obtain ⟨ref', href', hp', hl'⟩ := mem_pointerStores hw'
      rw [List.filterMap_cons, href] at h
      rw [hl, hl']
      exact (List.pairwise_cons.mp h).1 ref' href' _ _ hp hp'

theorem pointerStore_mem {ms : List SpiceMarshaller} {j : Nat} {w : Loc Block × List UInt8}
    (hm : ms[j]? = some m) (hw : pointerStore d (i + j) m = some w) : w ∈ pointerStores d i ms := by
  induction ms generalizing i j with
  | nil => cases hm
  | cons x ms ih =>
    rw [pointerStores]
    cases j with
    | zero =>
      cases hm
      rw [Nat.add_zero] at hw
      rw [hw]
      exact List.mem_append_left _ (.head _)
    | succ j =>
      refine List.mem_append_right _ (ih hm ?_)
      rw [Nat.add_right_comm]
      exact hw

/-- After a flush every slot of a submarshaller that is not empty holds its offset. -/
theorem flush_slot (h : Inv d) {j : Nat} {ref : MarshallerRef} (hm : d.marshallers[j]? = some m)
    (hr : m.pointerRef = some ref) (ht : 0 < m.totalSize) :
    ∃ p, lookupRef (spiceMarshallerFlush d) ref = some p ∧
      (spiceMarshallerFlush d).mem.read p (pointerSize ref.is64bit) =
        littleEndian (spiceMarshallerGetOffset (spiceMarshallerFlush d) j).toNat
          (pointerSize ref.is64bit) := by
  have href : ref ∈ pointerRefs d := List.mem_filterMap.mpr ⟨m, List.mem_of_getElem? hm, hr⟩
  obtain ⟨p, hp, -⟩ := h.resolves ref href
  rw [spiceMarshallerFlush_eq]
  refine ⟨p, hp, ?_⟩
  have hw : pointerStore d (0 + j) m = some (p, littleEndian (spiceMarshallerGetOffset d j).toNat
      (pointerSize ref.is64bit)) := by
    simp only [pointerStore, hr, Option.bind_eq_bind, Option.bind_some, gt_iff_lt, ht, if_true, hp,
      Option.pure_def, Nat.zero_add]
  have hread := Memory.read_writeAll d.mem (pairwise_pointerStores h.apart) (pointerStore_mem hm hw)
  simp only [length_littleEndian] at hread
  exact hread

end Colama.Spice.Marshaller

import Mathlib.Tactic
import Colama.Lib.Ring

namespace Colama.Lib

/-- How the items of a hash table are identified, and which chain an identity belongs to. -/
structure Keyed (α : Type*) where
  id : α → Nat
  key : Nat → Nat

/-- Items that are both in the chains of a hash table and in a ring, the last used at its head. They are
known by their address; the node `none` of the ring is its anchor. -/
structure LruTable (α : Type*) where
  item : Nat → α
  next : Nat
  links : Links (Option Nat)
  hashTable : Nat → List Nat

namespace LruTable

variable {α : Type*} (K : Keyed α)

def find (t : LruTable α) (id : Nat) : Option Nat :=
  (t.hashTable (K.key id)).find? fun p => K.id (t.item p) = id

/-- The address of a new item. -/
def alloc (t : LruTable α) : LruTable α := { t with next := t.next + 1 }

/-- The item is moved to the head of the ring. -/
def touch (t : LruTable α) (p : Nat) : LruTable α :=
  { t with links := (t.links.remove (some p)).add none (some p) }

def modify (t : LruTable α) (p : Nat) (a : α) : LruTable α :=
  { t with item := Function.update t.item p a }

/-- The item is taken out of its chain and of the ring. -/
def unlink (t : LruTable α) (p : Nat) : LruTable α :=
  let key := K.key (K.id (t.item p))
  { t with
    hashTable := Function.update t.hashTable key ((t.hashTable key).erase p)
    links := t.links.remove (some p) }

/-- The item `a` is put into its chain and at the head of the ring. -/
def link (t : LruTable α) (p : Nat) (a : α) : LruTable α :=
  let key := K.key (K.id a)
  { t with
    item := Function.update t.item p a
    hashTable := Function.update t.hashTable key (p :: t.hashTable key)
    links := t.links.add none (some p) }

/-- The ring holds the items of the list, from the head on, and the chains hold the same items. -/
structure Holds (t : LruTable α) (l : List Nat) : Prop where
  ring : IsRing t.links none (l.map some)
  chain_nodup : ∀ k, (t.hashTable k).Nodup
  mem_chain : ∀ k p, p ∈ t.hashTable k ↔ p ∈ l ∧ K.key (K.id (t.item p)) = k
  lt_next : ∀ p ∈ l, p < t.next

/-- The sum of a measure of the items. -/
def total (t : LruTable α) (size : α → Nat) (l : List Nat) : Int :=
  (l.map fun p => (size (t.item p) : Int)).sum

section Total

variable (t : LruTable α) (size : α → Nat)

@[simp] theorem total_nil : t.total size [] = 0 := rfl

theorem total_cons (p : Nat) (l : List Nat) :
    t.total size (p :: l) = size (t.item p) + t.total size l := by
  rw [total, List.map_cons, List.sum_cons]
  rfl

theorem total_append (l l' : List Nat) : t.total size (l ++ l') = t.total size l + t.total size l' := by
  rw [total, List.map_append, List.sum_append]
  rfl

theorem total_concat (l : List Nat) (p : Nat) :
    t.total size (l ++ [p]) = t.total size l + size (t.item p) := by
  rw [total_append, total_cons, total_nil, add_zero]

theorem total_nonneg (l : List Nat) : 0 ≤ t.total size l := by
  refine List.sum_nonneg fun n hn => ?_
  obtain ⟨p, -, rfl⟩ := List.mem_map.mp hn
  exact Int.natCast_nonneg _

theorem total_congr {t t' : LruTable α} {size : α → Nat} {l : List Nat}
    (h : ∀ p ∈ l, size (t'.item p) = size (t.item p)) : t'.total size l = t.total size l := by
  rw [total, total, List.map_congr_left]
  intro p hp
  rw [h p hp]

theorem total_perm {t : LruTable α} {size : α → Nat} {l l' : List Nat} (h : l.Perm l') :
    t.total size l = t.total size l' := (h.map _).sum_eq

end Total

variable {K} {t t' : LruTable α} {l l' : List Nat} {p : Nat} {a : α}

theorem Holds.nodup (h : t.Holds K l) : l.Nodup :=
  List.Nodup.of_map some (List.nodup_cons.mp h.ring.nodup).2

/-- Only the links, the chains and the identity of the items count. -/
theorem Holds.congr (h : t.Holds K l) (hlinks : t'.links = t.links) (hchains : t'.hashTable = t.hashTable)
    (hnext : t.next ≤ t'.next) (hid : ∀ p ∈ l, K.id (t'.item p) = K.id (t.item p)) : t'.Holds K l where
  ring := by rw [hlinks]; exact h.ring
  chain_nodup := by rw [hchains]; exact h.chain_nodup
  mem_chain k p := by
    rw [hchains, h.mem_chain]
    exact and_congr_right fun hp => by rw [hid p hp]
  lt_next p hp := (h.lt_next p hp).trans_le hnext

theorem Holds.alloc (h : t.Holds K l) : t.alloc.Holds K l :=
  h.congr rfl rfl (Nat.le_succ _) fun _ _ => rfl

theorem modify_item_self (t : LruTable α) (p : Nat) (a : α) : (t.modify p a).item p = a :=
  Function.update_self _ _ _

theorem modify_item_of_ne {q : Nat} (h : q ≠ p) : (t.modify p a).item q = t.item q :=
  Function.update_of_ne h _ _

theorem Holds.modify (h : t.Holds K l) (hid : K.id a = K.id (t.item p)) : (t.modify p a).Holds K l := by
  refine h.congr rfl rfl le_rfl fun q _ => ?_
  by_cases hq : q = p
  · subst hq
    exact (congrArg K.id (modify_item_self _ _ _)).trans hid
  · exact congrArg K.id (modify_item_of_ne hq)

theorem Holds.length_le (h : t.Holds K l) : l.length ≤ t.next := by
  have hsub : l ⊆ List.range t.next := fun p hp => List.mem_range.mpr (h.lt_next p hp)
  have := (List.subperm_of_subset h.nodup hsub).length_le
  rwa [List.length_range] at this

theorem Holds.next_notMem (h : t.Holds K l) : t.next ∉ l := fun hp => Nat.lt_irrefl _ (h.lt_next _ hp)

theorem Holds.mem_own_chain (h : t.Holds K l) (hp : p ∈ l) : p ∈ t.hashTable (K.key (K.id (t.item p))) :=
  (h.mem_chain _ p).mpr ⟨hp, rfl⟩

theorem Holds.getTail_concat (h : t.Holds K (l ++ [p])) : t.links.getTail none = some (some p) := by
  rw [h.ring.getTail_eq, List.map_append, List.map_singleton, List.getLast?_concat]

theorem Holds.getTail_nil (h : t.Holds K []) : t.links.getTail none = none := h.ring.getTail_eq

/-- The item at the tail is unlinked. -/
theorem Holds.unlink (h : t.Holds K (l ++ [p])) : (t.unlink K p).Holds K l := by
  have hp : p ∉ l := fun hp => List.disjoint_of_nodup_append h.nodup hp (List.mem_singleton_self p)
  have hring := h.ring
  rw [List.map_append, List.map_singleton] at hring
  refine ⟨?_, fun k => ?_, fun k q => ?_, fun q hq => h.lt_next q (List.mem_append_left _ hq)⟩
  · have := hring.remove
    rwa [List.append_nil] at this
  · change (Function.update t.hashTable _ _ _).Nodup
    by_cases hk : k = K.key (K.id (t.item p))
    · subst hk
      rw [Function.update_self]
      exact (h.chain_nodup _).erase _
    · rw [Function.update_of_ne hk]
      exact h.chain_nodup k
  · have hmem := h.mem_chain k q
    rw [List.mem_append, List.mem_singleton] at hmem
    change q ∈ Function.update t.hashTable _ _ k ↔ q ∈ l ∧ K.key (K.id (t.item q)) = k
    by_cases hk : k = K.key (K.id (t.item p))
    · subst hk
      rw [Function.update_self, (h.chain_nodup _).mem_erase_iff, hmem]
      constructor
      · rintro ⟨hne, hl | rfl, hkey⟩
        · exact ⟨hl, hkey⟩
        · exact absurd rfl hne
      · rintro ⟨hl, hkey⟩
        exact ⟨fun he => hp (he ▸ hl), .inl hl, hkey⟩
    · rw [Function.update_of_ne hk, hmem]
      constructor
      · rintro ⟨hl | rfl, hkey⟩
        · exact ⟨hl, hkey⟩
        · exact absurd hkey.symm hk
      · rintro ⟨hl, hkey⟩
        exact ⟨.inl hl, hkey⟩

theorem link_item_self (t : LruTable α) (p : Nat) (a : α) : (t.link K p a).item p = a :=
  Function.update_self _ _ _

theorem link_item_of_ne {q : Nat} (h : q ≠ p) : (t.link K p a).item q = t.item q :=
  Function.update_of_ne h _ _

/-- A new item at the head. -/
theorem Holds.link (h : t.Holds K l) (hp : p ∉ l) (hlt : p < t.next) (a : α) :
    (t.link K p a).Holds K (p :: l) := by
  have hfresh (k : Nat) : p ∉ t.hashTable k := fun hmem => hp ((h.mem_chain k p).mp hmem).1
  have hchain (k : Nat) : (t.link K p a).hashTable k =
      if k = K.key (K.id a) then p :: t.hashTable k else t.hashTable k := by
    change Function.update t.hashTable _ _ k = _
    by_cases hk : k = K.key (K.id a)
    · rw [if_pos hk, hk, Function.update_self]
    · rw [if_neg hk, Function.update_of_ne hk]
  refine ⟨?_, fun k => ?_, fun k q => ?_, fun q hq => ?_⟩
  · refine h.ring.add ?_
    rw [List.mem_cons, not_or]
    refine ⟨nofun, fun hmem => ?_⟩
    obtain ⟨q, hq, he⟩ := List.mem_map.mp hmem
    exact hp (Option.some_inj.mp he ▸ hq)
  · rw [hchain]
    split
    · exact List.nodup_cons.mpr ⟨hfresh k, h.chain_nodup k⟩
    · exact h.chain_nodup k
  · rw [hchain, List.mem_cons]
    by_cases hq : q = p
    · subst hq
      rw [link_item_self]
      split
      · next hk => exact iff_of_true List.mem_cons_self ⟨.inl rfl, hk.symm⟩
      · next hk => exact iff_of_false (hfresh k) fun hmem => hk hmem.2.symm
    · rw [link_item_of_ne hq]
      have hmem := h.mem_chain k q
      split
      · rw [List.mem_cons, hmem]
        simp only [hq, false_or]
      · rw [hmem]
        simp only [hq, false_or]
  · obtain rfl | hq := List.mem_cons.mp hq
    · exact hlt
    · exact h.lt_next q hq

theorem total_link {size : α → Nat} (hp : p ∉ l) (a : α) :
    (t.link K p a).total size (p :: l) = size a + t.total size l := by
  rw [total_cons, link_item_self, total_congr]
  intro q hq
  have hne : q ≠ p := fun he => hp (he ▸ hq)
  rw [link_item_of_ne hne]

theorem Holds.touch (h : t.Holds K l) (hp : p ∈ l) :
    ∃ l', l'.Perm l ∧ (t.touch p).Holds K l' := by
  obtain ⟨l₁, l₂, rfl⟩ := List.append_of_mem hp
  have hperm : (p :: (l₁ ++ l₂)).Perm (l₁ ++ p :: l₂) := List.perm_middle.symm
  have hring := h.ring
  rw [List.map_append, List.map_cons] at hring
  have hnot : some p ∉ none :: (l₁.map some ++ l₂.map some) := by
    have hnodup := hperm.nodup_iff.mpr h.nodup
    rw [List.mem_cons, ← List.map_append, not_or]
    refine ⟨nofun, fun hmem => ?_⟩
    obtain ⟨q, hq, he⟩ := List.mem_map.mp hmem
    exact (List.nodup_cons.mp hnodup).1 (Option.some_inj.mp he ▸ hq)
  refine ⟨p :: (l₁ ++ l₂), hperm, ?_, h.chain_nodup, fun k q => ?_, fun q hq => ?_⟩
  · have := hring.remove.add hnot
    rwa [← List.map_append] at this
  · rw [hperm.mem_iff]
    exact h.mem_chain k q
  · exact h.lt_next q (hperm.mem_iff.mp hq)

theorem Holds.find_mem (h : t.Holds K l) {id : Nat} (hp : t.find K id = some p) :
    p ∈ l ∧ K.id (t.item p) = id := by
  refine ⟨((h.mem_chain _ p).mp (List.mem_of_find?_eq_some hp)).1, ?_⟩
  simpa using List.find?_some hp

theorem Holds.find_none (h : t.Holds K l) {id : Nat} (hnone : t.find K id = none) :
    ∀ p ∈ l, K.id (t.item p) ≠ id := by
  intro p hp he
  have := List.find?_eq_none.mp hnone p ((h.mem_chain _ p).mpr ⟨hp, by rw [he]⟩)
  exact this (by simpa using he)

/-- Nothing is in the table. -/
theorem holds_nil {t : LruTable α} (hring : IsRing t.links none []) (hchains : ∀ k, t.hashTable k = []) :
    t.Holds K [] := by
  refine ⟨hring, fun k => ?_, fun k p => ?_, nofun⟩
  · rw [hchains]
    exact List.nodup_nil
  · rw [hchains]
    exact iff_of_false List.not_mem_nil fun hp => List.not_mem_nil hp.1

end LruTable

end Colama.Lib

import Mathlib.Tactic
import Colama.Spice.PixmapSync

namespace Colama.Spice

open Lib

section UpdateItem

variable {id : Nat} {f : SharedItem → Option SharedItem} {chain : List SharedItem} {item : SharedItem}

theorem mem_updateItem (hnodup : (chain.map SharedItem.id).Nodup) :
    item ∈ updateItem id f chain ↔
      item ∈ chain ∧ item.id ≠ id ∨ ∃ old ∈ chain, old.id = id ∧ f old = some item := by
  induction chain with
  | nil => exact iff_of_false List.not_mem_nil (by rintro (⟨h, -⟩ | ⟨_, h, -⟩) <;> exact List.not_mem_nil h)
  | cons head chain ih =>
    obtain ⟨hhead, hchain⟩ := List.nodup_cons.mp hnodup
    rw [updateItem]
    by_cases hid : head.id = id
    · have hne : ∀ other ∈ chain, other.id ≠ id := fun other hmem he =>
        hhead (List.mem_map.mpr ⟨other, hmem, he.trans hid.symm⟩)
      rw [if_pos hid, List.mem_append, Option.mem_toList]
      constructor
      · rintro (h | h)
        · exact .inr ⟨head, List.mem_cons_self, hid, h⟩
        · exact .inl ⟨List.mem_cons_of_mem head h, hne item h⟩
      · rintro (⟨h, hitem⟩ | ⟨old, h, hold, hf⟩)
        · obtain rfl | h := List.mem_cons.mp h
          · exact absurd hid hitem
          · exact .inr h
        · obtain rfl | h := List.mem_cons.mp h
          · exact .inl hf
          · exact absurd hold (hne old h)
    · rw [if_neg hid, List.mem_cons, ih hchain]
      constructor
      · rintro (rfl | ⟨h, hitem⟩ | ⟨old, h, hold, hf⟩)
        · exact .inl ⟨List.mem_cons_self, hid⟩
        · exact .inl ⟨List.mem_cons_of_mem head h, hitem⟩
        · exact .inr ⟨old, List.mem_cons_of_mem head h, hold, hf⟩
      · rintro (⟨h, hitem⟩ | ⟨old, h, hold, hf⟩)
        · obtain rfl | h := List.mem_cons.mp h
          · exact .inl rfl
          · exact .inr (.inl ⟨h, hitem⟩)
        · obtain rfl | h := List.mem_cons.mp h
          · exact absurd hold hid
          · exact .inr (.inr ⟨old, h, hold, hf⟩)

/-- Where the identity is kept, the identities are those of a part of the chain. -/
theorem updateItem_sublist (hf : ∀ old item, f old = some item → item.id = old.id) :
    ((updateItem id f chain).map SharedItem.id).Sublist (chain.map SharedItem.id) := by
  induction chain with
  | nil => exact .slnil
  | cons head chain ih =>
    rw [updateItem]
    split
    · cases hhead : f head with
      | none => exact .cons _ (List.Sublist.refl _)
      | some item =>
        change (item.id :: chain.map SharedItem.id).Sublist _
        rw [hf head item hhead]
        exact List.Sublist.refl _
    · exact .cons_cons _ ih

end UpdateItem

namespace SharedCache

variable {T : Treat} {c : SharedCache} {f g : Nat → Nat} {id : Nat} {lossy : Bool}

/-- The client refers to each identity as often as `f` says. -/
structure Holds (T : Treat) (c : SharedCache) (f : Nat → Nat) : Prop where
  nodup : ∀ k, ((c.hash k).map SharedItem.id).Nodup
  item : ∀ k, ∀ item ∈ c.hash k, Cache.key T item.id = k ∧ item.refs = f item.id ∧ 0 < item.refs
  mem : ∀ id, 0 < f id → ∃ item ∈ c.hash (Cache.key T id), item.id = id

theorem holds_empty : empty.Holds T fun _ => 0 where
  nodup _ := List.nodup_nil
  item _ _ h := absurd h List.not_mem_nil
  mem _ h := absurd h (Nat.lt_irrefl 0)

theorem Holds.find_some (h : c.Holds T f) (hid : 0 < f id) : ∃ item, c.find T id = some item := by
  obtain ⟨item, hmem, he⟩ := h.mem id hid
  cases hfind : c.find T id with
  | some item => exact ⟨item, rfl⟩
  | none => exact absurd he (by simpa using List.find?_eq_none.mp hfind item hmem)

theorem Holds.find_none (h : c.Holds T f) (hfind : c.find T id = none) : f id = 0 := by
  by_contra hne
  obtain ⟨item, he⟩ := h.find_some (Nat.pos_of_ne_zero hne)
  exact absurd (he.symm.trans hfind) nofun

theorem hash_setChain_self (k : Nat) (chain : List SharedItem) : (c.setChain k chain).hash k = chain :=
  Function.update_self _ _ _

theorem hash_setChain_of_ne {k k' : Nat} (h : k' ≠ k) (chain : List SharedItem) :
    (c.setChain k chain).hash k' = c.hash k' := Function.update_of_ne h _ _

/-- The item of one identity is changed. -/
theorem Holds.update (h : c.Holds T f) {u : SharedItem → Option SharedItem}
    (hu : ∀ old item, u old = some item → item.id = old.id)
    (hsome : ∀ old item, old.id = id → old.refs = f id → u old = some item → item.refs = g id ∧ 0 < item.refs)
    (hnone : ∀ old, old.id = id → old.refs = f id → u old = none → g id = 0) (hpos : 0 < g id → 0 < f id)
    (hother : ∀ id', id' ≠ id → g id' = f id') : (c.update T id u).Holds T g := by
  have hchain := h.nodup (Cache.key T id)
  refine ⟨fun k => ?_, fun k item hitem => ?_, fun id' hid' => ?_⟩
  · by_cases hk : k = Cache.key T id
    · rw [hk, SharedCache.update, hash_setChain_self]
      exact (updateItem_sublist hu).nodup hchain
    · rw [SharedCache.update, hash_setChain_of_ne hk]
      exact h.nodup k
  · by_cases hk : k = Cache.key T id
    · rw [hk, SharedCache.update, hash_setChain_self, mem_updateItem hchain] at hitem
      obtain ⟨hmem, hne⟩ | ⟨old, hmem, hold, hold'⟩ := hitem
      · rw [hk, hother item.id hne]
        exact h.item _ item hmem
      · obtain ⟨hkey, hrefs, -⟩ := h.item _ old hmem
        rw [hold] at hrefs
        have hid := hu old item hold'
        rw [hid, hold]
        exact ⟨hk.symm, hsome old item hold hrefs hold'⟩
    · rw [SharedCache.update, hash_setChain_of_ne hk] at hitem
      obtain ⟨hkey, hrefs, hlt⟩ := h.item k item hitem
      refine ⟨hkey, ?_, hlt⟩
      rw [hother item.id fun he => hk (by rw [← hkey, he])]
      exact hrefs
  · by_cases he : id' = id
    · subst he
      obtain ⟨old, hmem, hold⟩ := h.mem id' (hpos hid')
      have hrefs := (h.item _ old hmem).2.1
      rw [hold] at hrefs
      cases hu' : u old with
      | none => exact absurd (hnone old hold hrefs hu') (Nat.pos_iff_ne_zero.mp hid')
      | some item =>
        refine ⟨item, ?_, (hu old item hu').trans hold⟩
        rw [SharedCache.update, hash_setChain_self, mem_updateItem hchain]
        exact .inr ⟨old, hmem, hold, hu'⟩
    · obtain ⟨item, hmem, hitem⟩ := h.mem id' (hother id' he ▸ hid')
      refine ⟨item, ?_, hitem⟩
      by_cases hk : Cache.key T id' = Cache.key T id
      · rw [hk, SharedCache.update, hash_setChain_self, mem_updateItem hchain]
        exact .inl ⟨hk ▸ hmem, fun h' => he (hitem.symm.trans h')⟩
      · rw [SharedCache.update, hash_setChain_of_ne hk]
        exact hmem

theorem Holds.add (h : c.Holds T f) (id : Nat) (lossy : Bool) :
    (c.add T id lossy).Holds T (Function.update f id (f id + 1)) := by
  have hother : ∀ id', id' ≠ id → Function.update f id (f id + 1) id' = f id' := fun id' hne =>
    Function.update_of_ne hne _ _
  have hself : Function.update f id (f id + 1) id = f id + 1 := Function.update_self _ _ _
  rw [SharedCache.add]
  cases hfind : c.find T id with
  | some item =>
    obtain ⟨hmem, hid⟩ : item ∈ c.hash (Cache.key T id) ∧ item.id = id :=
      ⟨List.mem_of_find?_eq_some hfind, by simpa using List.find?_some hfind⟩
    have hpos : 0 < f id := by
      obtain ⟨-, hrefs, hlt⟩ := h.item _ item hmem
      rwa [hrefs, hid] at hlt
    refine h.update ?_ ?_ (fun _ _ _ => nofun) (fun _ => hpos) hother
    · rintro old _ ⟨⟩
      rfl
    · rintro old _ - hrefs ⟨⟩
      rw [hself, hrefs]
      exact ⟨rfl, Nat.succ_pos _⟩
  | none =>
    have hzero := h.find_none hfind
    have hnew : ∀ item ∈ c.hash (Cache.key T id), item.id ≠ id := fun item hmem => by
      simpa using List.find?_eq_none.mp hfind item hmem
    refine ⟨fun k => ?_, fun k item hitem => ?_, fun id' hid' => ?_⟩
    · by_cases hk : k = Cache.key T id
      · rw [hk, hash_setChain_self, List.map_append]
        refine List.nodup_append_comm.mp (List.nodup_cons.mpr ⟨fun hmem => ?_, h.nodup _⟩)
        obtain ⟨item, hmem, hid⟩ := List.mem_map.mp hmem
        exact hnew item hmem hid
      · rw [hash_setChain_of_ne hk]
        exact h.nodup k
    · by_cases hk : k = Cache.key T id
      · rw [hk, hash_setChain_self, List.mem_append, List.mem_singleton] at hitem
        obtain hitem | rfl := hitem
        · rw [hk, hother item.id (hnew item hitem)]
          exact h.item _ item hitem
        · exact ⟨hk.symm, by rw [hself, hzero], Nat.one_pos⟩
      · rw [hash_setChain_of_ne hk] at hitem
        obtain ⟨hkey, hrefs, hlt⟩ := h.item k item hitem
        rw [hother item.id fun he => hk (by rw [← hkey, he])]
        exact ⟨hkey, hrefs, hlt⟩
    · by_cases he : id' = id
      · subst he
        rw [hash_setChain_self]
        exact ⟨_, List.mem_append_right _ (List.mem_singleton_self _), rfl⟩
      · rw [hother id' he] at hid'
        obtain ⟨item, hmem, hitem⟩ := h.mem id' hid'
        refine ⟨item, ?_, hitem⟩
        by_cases hk : Cache.key T id' = Cache.key T id
        · rw [hk, hash_setChain_self]
          exact List.mem_append_left _ (hk ▸ hmem)
        · rw [hash_setChain_of_ne hk]
          exact hmem

theorem Holds.remove (h : c.Holds T f) (hid : 0 < f id) :
    ∃ c', c.remove T id = .ok c' ∧ c'.Holds T (Function.update f id (f id - 1)) := by
  have hself : Function.update f id (f id - 1) id = f id - 1 := Function.update_self _ _ _
  obtain ⟨item, hfind⟩ := h.find_some hid
  refine ⟨_, by rw [SharedCache.remove, hfind]; rfl, h.update ?_ ?_ ?_ (fun _ => hid) fun id' hne =>
    Function.update_of_ne hne _ _⟩
  · intro old item hitem
    split at hitem
    · exact absurd hitem nofun
    · cases hitem
      rfl
  · intro old item hold hrefs hitem
    split at hitem
    · exact absurd hitem nofun
    · next hne =>
      cases hitem
      rw [hself]
      exact ⟨by rw [hrefs], Nat.pos_of_ne_zero hne⟩
  · intro old hold hrefs hitem
    split at hitem
    · next he => rw [hself, ← hrefs, he]
    · exact absurd hitem nofun

theorem Holds.replace {c' : SharedCache} (h : c.Holds T f) (hc : c.replace T id lossy = some c') :
    c'.Holds T f := by
  obtain ⟨item, hfind, rfl⟩ := Option.map_eq_some_iff.mp hc
  refine h.update ?_ ?_ (fun _ _ _ => nofun) (fun hpos => hpos) fun _ _ => rfl
  · rintro old _ ⟨⟩
    rfl
  · rintro old _ hold hrefs ⟨⟩
    refine ⟨hrefs, ?_⟩
    have hmem := List.mem_of_find?_eq_some hfind
    have hid : item.id = id := by simpa using List.find?_some hfind
    obtain ⟨-, hitem, hlt⟩ := h.item _ item hmem
    rw [hitem, hid] at hlt
    exact hrefs ▸ hlt

end SharedCache

end Colama.Spice
